import SchurForm.Proofs.RecognizedForm
import SchurForm.Proofs.ReorderedSpectrum
import SchurForm.Proofs.StandardFactorization

/-!
# A reordered form is recognized again

An exchange is accepted only if both of its blocks of order two hold a complex eigenvalue
afterwards, however much the patch was perturbed. All along a reordering, complete or not, the
matrix is therefore cut by the present order of the blocks and has a complex eigenvalue in each of
order two, which is all that recognition asks for. The blocks found in the result are the reported
ones, so the reported eigenvalues are those of a fresh recognition, and the reported selection is a
valid one.
-/

namespace SchurForm

open Scalar Block

variable {m n p q : Nat} {tol : Tolerance ℝ}

section StandardExchanges

variable {row k : Nat} {d : Mat (p + q) (p + q) ℝ}

/-- The blocks of order two of an accepted exchange have complex eigenvalues. -/
theorem exchangeStandard_pairs (hp : p = 1 ∨ p = 2) (hq : q = 1 ∨ q = 2)
    {e : StandardExchange (p + q) ℝ} (h : exchangeStandard tol row d = .ok e) :
    (q = 2 → pairAt e.after 0 ≠ none) ∧ (p = 2 → pairAt e.after q ≠ none) := by
  obtain ⟨hlead, htrail⟩ := exchangeStandard_standardized hp hq h
  exact ⟨fun htwo => (hlead htwo).pairAt_ne_none, fun htwo => (htrail htwo).pairAt_ne_none⟩

end StandardExchanges

section PencilExchanges

variable {row k : Nat} {a b : Mat (p + q) (p + q) ℝ}

/-- A pencil block of order two that is as recognition wants it: the second matrix is diagonal in
it, and it has a complex eigenvalue. -/
def Mat.HoldsPencilPair (s t : Mat n n ℝ) (k : Nat) : Prop :=
  t.DiagonalAt k ∧ pencilPairAt s t k ≠ none

/-- Whether a pencil block is as recognition wants it is seen from the block pair alone. -/
theorem Mat.HoldsPencilPair.of_block_eq {s t : Mat m m ℝ} {s' t' : Mat n n ℝ} {i j : Nat}
    (h : s'.HoldsPencilPair t' j) (hs : (s.block i i : Mat 2 2 ℝ) = s'.block j j)
    (ht : (t.block i i : Mat 2 2 ℝ) = t'.block j j) : s.HoldsPencilPair t i := by
  have hdiagonal : t.DiagonalAt i := Mat.DiagonalAt.of_block_eq ht h.1
  refine ⟨hdiagonal, ?_⟩
  rw [(Mat.EquivalentAt.of_eq hs ht).pencilPairAt_eq hdiagonal h.1]
  exact h.2

/-- Only a block pair with a complex eigenvalue passes the diagonalization. -/
theorem PencilExchange.holdsPencilPair_of_diagonalizeSize {size : Nat}
    (hsize : size = 1 ∨ size = 2) {e e' : PencilExchange m ℝ} (hk : k + size ≤ m)
    (h : e.diagonalizeSize row k size = .ok e') (htwo : size = 2) :
    e'.s.HoldsPencilPair e'.t k := by
  refine ⟨(diagonalizeSize_turned hsize hk h).diagonal htwo, ?_⟩
  subst htwo
  obtain ⟨next, -, hnext⟩ := exists_diagonalizeBlock row hk e
  rw [diagonalizeSize, if_pos rfl, hnext] at h
  split at h
  · cases h
  · obtain rfl : next = e' := by simpa using h
    assumption

/-- The block pairs of order two of an accepted exchange are as recognition wants them. -/
theorem exchangePencil_pairs (hp : p = 1 ∨ p = 2) (hq : q = 1 ∨ q = 2)
    {e : PencilExchange (p + q) ℝ} (h : exchangePencil tol row a b = .ok e) :
    (q = 2 → e.s.HoldsPencilPair e.t 0) ∧ (p = 2 → e.s.HoldsPencilPair e.t q) := by
  obtain ⟨-, -, -, -, first, hfirst, hlast⟩ := exchangePencil_eq_ok.mp h
  have hturned := PencilExchange.diagonalizeSize_turned hp (by omega) hlast
  refine ⟨fun htwo => ?_,
    PencilExchange.holdsPencilPair_of_diagonalizeSize hp (by omega) hlast⟩
  have hkept := PencilExchange.holdsPencilPair_of_diagonalizeSize hq (by omega) hfirst htwo
  subst htwo
  obtain ⟨hs, ht⟩ := hturned.outside 0 2 (Or.inl (by omega)) (by omega)
  exact hkept.of_block_eq hs ht

end PencilExchanges

section Selections

variable {α : Type} {blocks : List (Block α)}

/-- The rows of the leading blocks are marked. -/
theorem flagAt_markFront (htiles : Tiles 0 blocks n) (gathered row : Nat) :
    flagAt (markFront n blocks gathered).1 row =
      decide (row < totalSize (blocks.take gathered)) := by
  have hrows : totalSize blocks = n := by simpa using htiles.last_eq.symm
  have hmark := markFront_layOut n gathered blocks hrows
  rw [htiles.layOut_eq] at hmark
  rw [hmark, flagAt, List.getD_eq_getElem?_getD, List.getElem?_append, List.length_replicate]
  split
  · simp [*]
  · rw [List.getElem?_replicate]
    split <;> simp [*]

/-- A block of a tiling is marked in all of its rows or in none, depending on where it stands. -/
theorem flagAt_markFront_block (htiles : Tiles 0 blocks n) (gathered : Nat) {i : Nat} :
    (∀ b ∈ blocks.take gathered, i < b.size →
      flagAt (markFront n blocks gathered).1 (b.start + i) = true) ∧
    (∀ b ∈ blocks.drop gathered, flagAt (markFront n blocks gathered).1 (b.start + i) = false) := by
  have hsplit := htiles
  rw [← List.take_append_drop gathered blocks] at hsplit
  obtain ⟨hfront, hback⟩ := hsplit.append
  rw [Nat.zero_add] at hfront hback
  refine ⟨fun b hb hi => ?_, fun b hb => ?_⟩
  · have hstop := hfront.stop_le hb
    rw [flagAt_markFront htiles, decide_eq_true_eq]
    rw [stop] at hstop
    omega
  · have hstart := hback.le_start hb
    rw [flagAt_markFront htiles, decide_eq_false_iff_not]
    omega

/-- Marking the leading blocks of a tiling is a valid selection of their rows. -/
theorem checkSelection_markFront {blocks : List (Block ℝ)} (htiles : Tiles 0 blocks n)
    (gathered position : Nat) :
    checkSelection blocks (markFront n blocks gathered).1 position =
      .ok (markFront n blocks gathered).2 := by
  have hlength : (markFront n blocks gathered).1.length = n := by simp [markFront]
  have hhalf : firstHalfSelected blocks (markFront n blocks gathered).1 = none := by
    rw [firstHalfSelected, List.find?_eq_none]
    intro b hb
    rw [← List.take_append_drop gathered blocks, List.mem_append] at hb
    obtain ⟨hfirst₀, hbehind₀⟩ := flagAt_markFront_block htiles gathered (i := 0)
    obtain ⟨hfirst₁, hbehind₁⟩ := flagAt_markFront_block htiles gathered (i := 1)
    cases b with
    | real k => simp [isPair]
    | pair k re im =>
      rcases hb with hb | hb
      · have h0 := hfirst₀ _ hb two_pos
        have h1 := hfirst₁ _ hb one_lt_two
        simp_all
      · have h0 := hbehind₀ _ hb
        have h1 := hbehind₁ _ hb
        simp_all
  have hselected : selectedSize blocks (markFront n blocks gathered).1 =
      totalSize (blocks.take gathered) := by
    obtain ⟨hfront, hback⟩ := flagAt_markFront_block htiles gathered (i := 0)
    simp only [Nat.add_zero] at hfront hback
    set flags := (markFront n blocks gathered).1
    rw [selectedSize]
    conv_lhs => rw [← List.take_append_drop gathered blocks, List.filter_append]
    rw [List.filter_eq_self.mpr fun b hb => hfront b hb b.size_pos,
      filter_chosen_of_unchosen hback, List.append_nil]
  rw [checkSelection, hlength, htiles.blocksEnd_eq fun _ => rfl, if_neg (not_not.mpr rfl), hhalf,
    hselected]
  rfl

/-- Reading blocks again does not change which rows the leading ones cover. -/
theorem markFront_map_reread (find : Nat → Option (α × α)) (gathered : Nat) :
    markFront n (blocks.map (reread find)) gathered = markFront n blocks gathered := by
  have hcovers (b : Block α) (row : Nat) : (b.reread find).covers row = b.covers row := by
    obtain ⟨hstart, hsize⟩ := start_size_reread find b
    rw [covers, covers, stop, stop, hstart, hsize]
  have hrows (front : List (Block α)) : totalSize (front.map (reread find)) = totalSize front := by
    induction front with
    | nil => rfl
    | cons b front ih => simp [ih, (start_size_reread find b).2]
  simp only [markFront, ← List.map_take, List.any_map, Function.comp_def, hcovers, hrows]

end Selections

section Standard

/-- What holds all along a reordering about the form, whatever is perturbed. -/
structure StandardRecognized (tol : Tolerance ℝ) (s : Mat n n ℝ) (q : Option (Mat n n ℝ))
    (st : Logged (StandardForm n ℝ) (StandardAttempt ℝ)) (order : List (Block ℝ)) (count : Nat) :
    Prop where
  run : StandardRun tol s q st order count
  pairs : ∀ place ∈ placed 0 order, place.2.size = 2 → pairAt st.form.s place.1 ≠ none

variable {s : Mat n n ℝ} {q : Option (Mat n n ℝ)}
  {st next : Logged (StandardForm n ℝ) (StandardAttempt ℝ)} {above below : List (Block ℝ)}
  {upper lower : Block ℝ} {count : Nat}

/-- A recognized form has what recognition asks for. -/
theorem StandardRecognized.start (q : Option (Mat n n ℝ)) {blocks : List (Block ℝ)}
    (h : s.Classified blocks) : StandardRecognized tol s q ⟨⟨s, q⟩, []⟩ blocks 0 := by
  refine ⟨StandardRun.start q h, fun place hplace hsize => ?_⟩
  rw [← h.tiles.start_eq_of_mem_placed hplace]
  exact (Mat.SimilarAt.of_eq rfl).pairAt_ne_none (h.pairs _ (mem_of_mem_placed hplace)) hsize

/-- An accepted exchange puts in two blocks that recognition accepts. -/
theorem StandardRecognized.accepted
    (h : StandardRecognized tol s q st (above ++ upper :: lower :: below) count)
    (hact : standardAction tol st (totalSize above) upper.size lower.size = (next, none)) :
    StandardRecognized tol s q next (above ++ lower :: upper :: below) (count + 1) := by
  refine ⟨h.run.accepted hact, ?_⟩
  rcases standardAction_cases tol st (totalSize above) upper.size lower.size with
    ⟨e, he, hok⟩ | ⟨reason, -, herror⟩
  · obtain rfl := (Prod.mk.inj (hok.symm.trans hact)).1
    obtain ⟨hlead, htrail⟩ := exchangeStandard_pairs upper.size_cases lower.size_cases he
    have hj := patch_le h.run.rows
    have hinside (i : Nat) (hi : i + 2 ≤ upper.size + lower.size) :
        pairAt (st.form.apply (totalSize above) e).s (totalSize above + i) = pairAt e.after i :=
      (Mat.SimilarAt.of_eq
        (Mat.block_transformPatch_inside _ hj hi e.factor e.factor e.after)).pairAt_eq
    refine forall_placed_exchange (fun hsize : lower.size = 2 => ?_)
      (fun hsize : upper.size = 2 => ?_) fun place hplace hout hsize => ?_
    · exact (hinside 0 (by omega)).symm ▸ hlead hsize
    · exact (hinside lower.size (by omega)).symm ▸ htrail hsize
    · rw [hsize] at hout
      have hkept :
          Mat.SimilarAt 2 (st.form.apply (totalSize above) e).s place.1 st.form.s place.1 :=
        Mat.SimilarAt.of_eq (Mat.block_transformPatch_outside _ hout e.factor e.factor e.after)
      exact hkept.pairAt_eq ▸ h.pairs place hplace hsize
  · exact nomatch (Prod.mk.inj (herror.symm.trans hact)).2

/-- A refused exchange leaves the form as it is. -/
theorem StandardRecognized.refused {reason : FormError ℝ}
    (h : StandardRecognized tol s q st (above ++ upper :: lower :: below) count)
    (hact : standardAction tol st (totalSize above) upper.size lower.size = (next, some reason)) :
    StandardRecognized tol s q next (above ++ upper :: lower :: below) count := by
  refine ⟨h.run.refused hact, ?_⟩
  rcases standardAction_cases tol st (totalSize above) upper.size lower.size with
    ⟨e, -, hok⟩ | ⟨reason, -, herror⟩
  · exact nomatch (Prod.mk.inj (hok.symm.trans hact)).2
  · obtain rfl := (Prod.mk.inj (herror.symm.trans hact)).1
    exact h.pairs

/-- What a report says about a reordering of `form`: the run that was made, and where it has left
the blocks. -/
structure StandardForm.Reported (tol : Tolerance ℝ) (form : StandardForm n ℝ)
    (blocks : List (Block ℝ)) (selected : List Bool)
    (r : Reordering (StandardForm n ℝ) (StandardAttempt ℝ) (Eigenvalues n ℝ) (FormError ℝ))
    (order : List (Block ℝ)) (gathered : Nat) : Prop where
  run : ExchangeRun (standardAction tol) (fun b => flagAt selected b.start) ⟨form, []⟩ blocks
    r.swaps ⟨r.form, r.log⟩ order r.rejected
  stable : StablyGathered (fun b => flagAt selected b.start) blocks order gathered r.rejected
  recognized : diagonalBlocks r.form.s = .ok ((layOut 0 order).map (reread (pairAt r.form.s)))
  tiles : Tiles 0 ((layOut 0 order).map (reread (pairAt r.form.s))) n
  front : (r.selected, r.reordered) =
    markFront n ((layOut 0 order).map (reread (pairAt r.form.s))) gathered
  eigenvalues : r.eigenvalues =
    SchurForm.eigenvalues r.form.s ((layOut 0 order).map (reread (pairAt r.form.s)))

/-- A reordering reports a form that is recognized again. -/
theorem StandardForm.reorder_reported {form : StandardForm n ℝ} {selected : List Bool}
    {r : Reordering (StandardForm n ℝ) (StandardAttempt ℝ) (Eigenvalues n ℝ) (FormError ℝ)}
    (h : form.reorder tol selected = .ok r) :
    ∃ blocks order gathered, diagonalBlocks form.s = .ok blocks ∧
      form.Reported tol blocks selected r order gathered := by
  obtain ⟨blocks, -, hblocks, -, rfl⟩ := StandardForm.reorder_eq_ok.mp h
  have hclassified := classified_of_diagonalBlocks hblocks
  obtain ⟨order, hlaid, hrun, hstable, -⟩ :=
    gather_exchangeRun (standardAction tol) blocks selected n ⟨form, []⟩ hclassified.tiles
  have hfinal := hrun.preserves
    (P := fun st order count _ => StandardRecognized tol form.s form.q st order count)
    (fun _ _ _ _ _ _ _ hrecognized hact => hrecognized.accepted hact)
    (fun _ _ _ _ _ _ _ _ hrecognized hact => hrecognized.refused hact)
    (StandardRecognized.start form.q hclassified)
  have hrows := hfinal.run.rows
  refine ⟨blocks, order, _, hblocks, hrun, hstable,
    diagonalBlocks_of_cutBy hrows hfinal.run.cuts hfinal.pairs, ?_, ?_, ?_⟩
  · simpa [hrows] using (tiles_layOut 0 order).map_reread _
  · rw [markFront_map_reread, ← hlaid]
    rfl
  · rw [← hlaid]
    rfl

end Standard

section Pencil

/-- What holds all along a reordering about the pencil, whatever is perturbed. -/
structure PencilRecognized (tol : Tolerance ℝ) (s t : Mat n n ℝ) (q z : Option (Mat n n ℝ))
    (st : Logged (PencilForm n ℝ) (PencilAttempt ℝ)) (order : List (Block ℝ)) (count : Nat) :
    Prop where
  run : PencilRun tol s t q z st order count
  pairs : ∀ place ∈ placed 0 order, place.2.size = 2 →
    st.form.s.HoldsPencilPair st.form.t place.1

variable {s t : Mat n n ℝ} {q z : Option (Mat n n ℝ)}
  {st next : Logged (PencilForm n ℝ) (PencilAttempt ℝ)} {above below : List (Block ℝ)}
  {upper lower : Block ℝ} {count : Nat}

/-- A recognized pencil has what recognition asks for. -/
theorem PencilRecognized.start (q z : Option (Mat n n ℝ)) {blocks : List (Block ℝ)}
    (h : s.PencilClassified t blocks) :
    PencilRecognized tol s t q z ⟨⟨s, t, q, z⟩, []⟩ blocks 0 := by
  refine ⟨PencilRun.start q z h, fun place hplace hsize => ?_⟩
  have hmem := mem_of_mem_placed hplace
  rw [← h.tiles.start_eq_of_mem_placed hplace]
  have hdiagonal := h.diagonal _ hmem hsize
  exact ⟨hdiagonal, (Mat.EquivalentAt.of_eq rfl rfl).pencilPairAt_ne_none (h.pairs _ hmem)
    hdiagonal hdiagonal hsize⟩

/-- An accepted exchange puts in two block pairs that recognition accepts. -/
theorem PencilRecognized.accepted
    (h : PencilRecognized tol s t q z st (above ++ upper :: lower :: below) count)
    (hact : pencilAction tol st (totalSize above) upper.size lower.size = (next, none)) :
    PencilRecognized tol s t q z next (above ++ lower :: upper :: below) (count + 1) := by
  refine ⟨h.run.accepted hact, ?_⟩
  rcases pencilAction_cases tol st (totalSize above) upper.size lower.size with
    ⟨e, he, hok⟩ | ⟨reason, -, herror⟩
  · obtain rfl := (Prod.mk.inj (hok.symm.trans hact)).1
    obtain ⟨hlead, htrail⟩ := exchangePencil_pairs upper.size_cases lower.size_cases he
    have hj := patch_le h.run.rows
    have hinside {i : Nat} (hi : i + 2 ≤ upper.size + lower.size)
        (hholds : e.s.HoldsPencilPair e.t i) :
        (st.form.apply (totalSize above) e).s.HoldsPencilPair
          (st.form.apply (totalSize above) e).t (totalSize above + i) :=
      hholds.of_block_eq (Mat.block_transformPatch_inside _ hj hi e.left e.right e.s)
        (Mat.block_transformPatch_inside _ hj hi e.left e.right e.t)
    refine forall_placed_exchange (fun hsize : lower.size = 2 => ?_)
      (fun hsize : upper.size = 2 => ?_) fun place hplace hout hsize => ?_
    · exact hinside (i := 0) (by omega) (hlead hsize)
    · exact hinside (by omega) (htrail hsize)
    · rw [hsize] at hout
      exact (h.pairs place hplace hsize).of_block_eq
        (Mat.block_transformPatch_outside _ hout e.left e.right e.s)
        (Mat.block_transformPatch_outside _ hout e.left e.right e.t)
  · exact nomatch (Prod.mk.inj (herror.symm.trans hact)).2

/-- A refused exchange leaves the pencil as it is. -/
theorem PencilRecognized.refused {reason : FormError ℝ}
    (h : PencilRecognized tol s t q z st (above ++ upper :: lower :: below) count)
    (hact : pencilAction tol st (totalSize above) upper.size lower.size = (next, some reason)) :
    PencilRecognized tol s t q z next (above ++ upper :: lower :: below) count := by
  refine ⟨h.run.refused hact, ?_⟩
  rcases pencilAction_cases tol st (totalSize above) upper.size lower.size with
    ⟨e, -, hok⟩ | ⟨reason, -, herror⟩
  · exact nomatch (Prod.mk.inj (hok.symm.trans hact)).2
  · obtain rfl := (Prod.mk.inj (herror.symm.trans hact)).1
    exact h.pairs

/-- What a report says about a reordering of a pencil: the run that was made, and where it has left
the blocks. -/
structure PencilForm.Reported (tol : Tolerance ℝ) (form : PencilForm n ℝ)
    (blocks : List (Block ℝ)) (selected : List Bool)
    (r : Reordering (PencilForm n ℝ) (PencilAttempt ℝ) (PencilEigenvalues n ℝ) (FormError ℝ))
    (order : List (Block ℝ)) (gathered : Nat) : Prop where
  run : ExchangeRun (pencilAction tol) (fun b => flagAt selected b.start) ⟨form, []⟩ blocks
    r.swaps ⟨r.form, r.log⟩ order r.rejected
  stable : StablyGathered (fun b => flagAt selected b.start) blocks order gathered r.rejected
  recognized : pencilBlocks r.form.s r.form.t =
    .ok ((layOut 0 order).map (reread (pencilPairAt r.form.s r.form.t)))
  tiles : Tiles 0 ((layOut 0 order).map (reread (pencilPairAt r.form.s r.form.t))) n
  front : (r.selected, r.reordered) =
    markFront n ((layOut 0 order).map (reread (pencilPairAt r.form.s r.form.t))) gathered
  eigenvalues : r.eigenvalues = pencilEigenvalues r.form.s r.form.t
    ((layOut 0 order).map (reread (pencilPairAt r.form.s r.form.t)))

/-- A reordering reports a pencil that is recognized again. -/
theorem PencilForm.reorder_reported {form : PencilForm n ℝ} {selected : List Bool}
    {r : Reordering (PencilForm n ℝ) (PencilAttempt ℝ) (PencilEigenvalues n ℝ) (FormError ℝ)}
    (h : form.reorder tol selected = .ok r) :
    ∃ blocks order gathered, pencilBlocks form.s form.t = .ok blocks ∧
      form.Reported tol blocks selected r order gathered := by
  obtain ⟨blocks, -, hblocks, -, rfl⟩ := PencilForm.reorder_eq_ok.mp h
  have hclassified := classified_of_pencilBlocks hblocks
  obtain ⟨order, hlaid, hrun, hstable, -⟩ :=
    gather_exchangeRun (pencilAction tol) blocks selected n ⟨form, []⟩ hclassified.tiles
  have hfinal := hrun.preserves
    (P := fun st order count _ => PencilRecognized tol form.s form.t form.q form.z st order count)
    (fun _ _ _ _ _ _ _ hrecognized hact => hrecognized.accepted hact)
    (fun _ _ _ _ _ _ _ _ hrecognized hact => hrecognized.refused hact)
    (PencilRecognized.start form.q form.z hclassified)
  have hrows := hfinal.run.rows
  refine ⟨blocks, order, _, hblocks, hrun, hstable,
    pencilBlocks_of_cutBy hrows hfinal.run.cuts_s hfinal.run.cuts_t hfinal.pairs, ?_, ?_, ?_⟩
  · simpa [hrows] using (tiles_layOut 0 order).map_reread _
  · rw [markFront_map_reread, ← hlaid]
    rfl
  · rw [← hlaid]
    rfl

end Pencil

/-- Recognizing the result of a reordering, complete or stopped, succeeds. The blocks that are found
have the orders of the original blocks in the permuted order, the reported selection is valid for
them and selects as many eigenvalues as were reordered, and the reported eigenvalues are those that
are read from the result. -/
theorem reorder_recognized (tol : Tolerance ℝ) (selected : List Bool) :
    let chosen := fun b : Block ℝ => flagAt selected b.start
    (∀ (form : StandardForm n ℝ)
      (r : Reordering (StandardForm n ℝ) (StandardAttempt ℝ) (Eigenvalues n ℝ) (FormError ℝ)),
      form.reorder tol selected = .ok r →
      ∃ blocks order gathered fresh, diagonalBlocks form.s = .ok blocks ∧
        ExchangeRun (standardAction tol) chosen ⟨form, []⟩ blocks r.swaps ⟨r.form, r.log⟩ order
          r.rejected ∧
        order.Perm blocks ∧ StablyGathered chosen blocks order gathered r.rejected ∧
        diagonalBlocks r.form.s = .ok fresh ∧ fresh.map size = order.map size ∧
        r.form.s.CutBy fresh ∧
        (∀ position, checkSelection fresh r.selected position = .ok r.reordered) ∧
        eigenvalues r.form.s fresh = r.eigenvalues) ∧
    (∀ (form : PencilForm n ℝ)
      (r : Reordering (PencilForm n ℝ) (PencilAttempt ℝ) (PencilEigenvalues n ℝ) (FormError ℝ)),
      form.reorder tol selected = .ok r →
      ∃ blocks order gathered fresh, pencilBlocks form.s form.t = .ok blocks ∧
        ExchangeRun (pencilAction tol) chosen ⟨form, []⟩ blocks r.swaps ⟨r.form, r.log⟩ order
          r.rejected ∧
        order.Perm blocks ∧ StablyGathered chosen blocks order gathered r.rejected ∧
        pencilBlocks r.form.s r.form.t = .ok fresh ∧ fresh.map size = order.map size ∧
        r.form.s.CutBy fresh ∧ (∀ i j, j < i → r.form.t.get i j = 0) ∧
        (∀ b ∈ fresh, b.size = 2 → r.form.t.DiagonalAt b.start ∧
          r.form.t.get b.start b.start ≠ 0 ∧ r.form.t.get (b.start + 1) (b.start + 1) ≠ 0) ∧
        (∀ position, checkSelection fresh r.selected position = .ok r.reordered) ∧
        pencilEigenvalues r.form.s r.form.t fresh = r.eigenvalues) := by
  intro chosen
  have hsizes (find : Nat → Option (ℝ × ℝ)) (order : List (Block ℝ)) :
      ((layOut 0 order).map (reread find)).map size = order.map size := by
    rw [map_size_reread, map_size_layOut]
  refine ⟨fun form r hr => ?_, fun form r hr => ?_⟩
  · obtain ⟨blocks, order, gathered, hblocks, h⟩ := StandardForm.reorder_reported hr
    have hfront := Prod.mk.inj h.front
    refine ⟨blocks, order, gathered, _, hblocks, h.run, h.run.perm, h.stable, h.recognized,
      hsizes _ _, (classified_of_diagonalBlocks h.recognized).cuts, fun position => ?_,
      h.eigenvalues.symm⟩
    rw [hfront.1, hfront.2]
    exact checkSelection_markFront h.tiles gathered position
  · obtain ⟨blocks, order, gathered, hblocks, h⟩ := PencilForm.reorder_reported hr
    have hfront := Prod.mk.inj h.front
    have hclassified := classified_of_pencilBlocks h.recognized
    refine ⟨blocks, order, gathered, _, hblocks, h.run, h.run.perm, h.stable, h.recognized,
      hsizes _ _, hclassified.cuts_s, hclassified.triangular.1, hclassified.triangular.2,
      fun position => ?_, h.eigenvalues.symm⟩
    rw [hfront.1, hfront.2]
    exact checkSelection_markFront h.tiles gathered position

/-- The pair of a quarter turn is carried past the eigenvalue zero. -/
theorem exists_reorder_turnBelowZero (tol : Tolerance ℝ) (q : Option (Mat 3 3 ℝ)) :
    ∃ r, StandardForm.reorder tol ⟨turnBelowZero, q⟩ [false, true, true] = .ok r ∧ r.swaps = 1 ∧
      r.rejected = none := by
  have hturn : complexEigenvalue? (0 : ℝ) (-1) 1 0 = some (0, 1) := by
    rw [complexEigenvalue?_eq, conjugatePair?_eq]
    norm_num
  have hblocks : diagonalBlocks (turnBelowZero : Mat 3 3 ℝ) = .ok [.real 0, .pair 1 0 1] := by
    simp [diagonalBlocks, checkSubdiagonal, firstNonzeroBelow, positionsBelow, scanBlocks,
      turnBelowZero, requirePair, pairAt, hturn, List.range_succ, Bind.bind, Except.bind, pure,
      Except.pure]
  have hunperturbed : (couplingSolution tol turnBelowZero).perturbed = false :=
    couplingSolution_turnBelowZero tol
  have hr : StandardForm.reorder tol ⟨turnBelowZero, q⟩ [false, true, true] = .ok _ :=
    StandardForm.reorder_eq_ok.mpr ⟨_, _, hblocks, checkSelection_turnBelowReal, rfl⟩
  have hpatch : (Mat.block (turnBelowZero : Mat 3 3 ℝ) 0 0 : Mat (1 + 2) (1 + 2) ℝ) =
      turnBelowZero :=
    Mat.ext_get fun i hi j hj => by rw [Mat.get_block _ _ _ hi hj, Nat.zero_add, Nat.zero_add]
  rcases standardAction_cases tol ⟨⟨turnBelowZero, q⟩, []⟩ 0 1 2 with
    ⟨e, -, hok⟩ | ⟨reason, he, -⟩
  · refine ⟨_, hr, ?_⟩
    simp [StandardForm.report, gather, gatherFrom, flagAt, climb, start, size, hok]
  · have hpair : pairAt (turnBelowZero : Mat 3 3 ℝ) 1 ≠ none := by
      simp [pairAt, turnBelowZero, hturn]
    obtain ⟨e, haccepted, -⟩ := exchangeStandard_swaps (p := 1) (q := 2) (Or.inl rfl) (Or.inr rfl) 0
      isCut_turnBelowZero hunperturbed (fun h => absurd h (by decide)) fun _ => hpair
    rw [hpatch] at he
    cases he.symm.trans haccepted

/-- The infinite eigenvalue of a pencil is carried past the eigenvalue zero. -/
theorem exists_reorder_zero_infinity (tol : Tolerance ℝ) (q z : Option (Mat 2 2 ℝ)) :
    ∃ r, PencilForm.reorder tol ⟨Mat.ofRows2 0 1 0 1, Mat.ofRows2 1 0 0 0, q, z⟩ [false, true] =
        .ok r ∧ r.swaps = 1 ∧ r.rejected = none := by
  obtain ⟨count, hselection⟩ := exists_checkSelection_two false true
  have hblocks := pencilBlocks_triangular_two 0 1 1 1 0 0
  obtain ⟨-, hunperturbed⟩ := unperturbed_zero_infinity tol q z
  have hcomplete := (PencilForm.report_spectrum tol q z (classified_of_pencilBlocks hblocks)
    [false, true] hunperturbed).1
  refine ⟨_, PencilForm.reorder_eq_ok.mpr ⟨_, _, hblocks, hselection, rfl⟩, ?_, hcomplete⟩
  rcases pencilAction_cases tol ⟨⟨Mat.ofRows2 0 1 0 1, Mat.ofRows2 1 0 0 0, q, z⟩, []⟩ 0 1 1 with
    ⟨e, -, hok⟩ | ⟨reason, -, herror⟩
  · simp [PencilForm.report, gather, gatherFrom, flagAt, climb, start, size, hok]
  · simp [PencilForm.report, gather, gatherFrom, flagAt, climb, start, size, herror] at hcomplete

/-- Carrying a conjugate pair past a real eigenvalue of a standard form, and the infinite eigenvalue
past a finite one of a pencil, leaves forms that are recognized again. -/
theorem reorder_recognized_turn :
    let form : StandardForm 3 ℝ := ⟨turnBelowZero, none⟩
    let pencil : PencilForm 2 ℝ := ⟨Mat.ofRows2 0 1 0 1, Mat.ofRows2 1 0 0 0, none, none⟩
    (∃ r fresh, form.reorder Tolerance.standard [false, true, true] = .ok r ∧ r.swaps = 1 ∧
      r.rejected = none ∧ diagonalBlocks r.form.s = .ok fresh ∧
      checkSelection fresh r.selected 2 = .ok r.reordered ∧
      eigenvalues r.form.s fresh = r.eigenvalues) ∧
    ∃ r fresh, pencil.reorder Tolerance.standard [false, true] = .ok r ∧ r.swaps = 1 ∧
      r.rejected = none ∧ pencilBlocks r.form.s r.form.t = .ok fresh ∧
      checkSelection fresh r.selected 2 = .ok r.reordered ∧
      pencilEigenvalues r.form.s r.form.t fresh = r.eigenvalues := by
  intro form pencil
  obtain ⟨r, hr, hswaps, hcomplete⟩ := exists_reorder_turnBelowZero Tolerance.standard none
  obtain ⟨r', hr', hswaps', hcomplete'⟩ := exists_reorder_zero_infinity Tolerance.standard none none
  obtain ⟨-, -, -, fresh, -, -, -, -, hfresh, -, -, hselection, heigenvalues⟩ :=
    (reorder_recognized Tolerance.standard [false, true, true]).1 form r hr
  obtain ⟨-, -, -, fresh', -, -, -, -, hfresh', -, -, -, -, hselection', heigenvalues'⟩ :=
    (reorder_recognized Tolerance.standard [false, true]).2 pencil r' hr'
  exact ⟨⟨r, fresh, hr, hswaps, hcomplete, hfresh, hselection 2, heigenvalues⟩,
    r', fresh', hr', hswaps', hcomplete', hfresh', hselection' 2, heigenvalues'⟩

end SchurForm
