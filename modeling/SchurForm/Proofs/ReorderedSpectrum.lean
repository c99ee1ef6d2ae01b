import SchurForm.Proofs.EigenvalueLayout
import SchurForm.Proofs.OrthogonalPencilReordering
import SchurForm.Proofs.OrthogonalReordering

/-!
# An unperturbed reordering is complete and rearranges the eigenvalues

Along a run without perturbed equations every block stays similar, or every block pair equivalent,
to the original one, wherever it has moved. The blocks of order two therefore keep their complex
eigenvalues, so that no exchange has a reason to be refused. At the end the blocks are stably
partitioned, and the eigenvalue lists, which are read from the moved matrices, are the original ones
in the order of the blocks.
-/

namespace SchurForm

open Scalar Block

variable {m n : Nat} {tol : Tolerance ℝ}

/-- A block of order two that is similar to a block with a complex eigenvalue has one. -/
theorem Mat.SimilarAt.pairAt_ne_none {a : Mat m m ℝ} {i : Nat} {s : Mat n n ℝ} {b : Block ℝ}
    (h : SimilarAt b.size a i s b.start) (hpair : b.HasPair (pairAt s)) (hsize : b.size = 2) :
    pairAt a i ≠ none := by
  rw [SimilarAt.pairAt_eq (hsize ▸ h)]
  exact hpair.ne_none hsize

/-- A block of a patch is a block of the matrix. -/
theorem Mat.block_block (a : Mat n n ℝ) (row : Nat) {i size : Nat} (hi : i + size ≤ m) :
    ((a.block row row : Mat m m ℝ).block i i : Mat size size ℝ) = a.block (row + i) (row + i) := by
  apply ext_get
  intro r hr c hc
  rw [get_block _ _ _ hr hc, get_block _ _ _ hr hc, get_block _ _ _ (by omega) (by omega),
    Nat.add_assoc, Nat.add_assoc]

/-- Exchanged neighbours hold each other's blocks, and all other blocks stay. -/
theorem forall_placed_exchange {P : Nat × Block ℝ → Prop} {above below : List (Block ℝ)}
    {upper lower : Block ℝ} (hlower : P (totalSize above, lower))
    (hupper : P (totalSize above + lower.size, upper))
    (hother : ∀ place ∈ placed 0 (above ++ upper :: lower :: below),
      place.1 + place.2.size ≤ totalSize above ∨
        totalSize above + (upper.size + lower.size) ≤ place.1 → P place) :
    ∀ place ∈ placed 0 (above ++ lower :: upper :: below), P place := by
  intro place hplace
  rcases mem_placed_exchange hplace with rfl | rfl | ⟨hold, hout⟩
  · exact hlower
  · exact hupper
  · exact hother place hold hout

/-- The blocks that cover the same row of a moved block, now and in the beginning. -/
theorem blockAt_reported {order blocks : List (Block ℝ)} (htiles : Tiles 0 blocks n)
    (hperm : order.Perm blocks) (find : Nat → Option (ℝ × ℝ)) {place : Nat × Block ℝ}
    (hplace : place ∈ placed 0 order) {i : Nat} (hi : i < place.2.size) :
    place.1 + i < n ∧ place.2.start + i < n ∧
      blockAt ((layOut 0 order).map (reread find)) (place.1 + i) =
        some ((place.2.moveTo place.1).reread find) ∧
      blockAt blocks (place.2.start + i) = some place.2 := by
  have hmem : place.2 ∈ blocks := hperm.mem_iff.mp (mem_of_mem_placed hplace)
  have hrows : totalSize blocks = n := by simpa using htiles.last_eq.symm
  have hnow := (placed_bounds hplace).2
  rw [totalSize_perm hperm, hrows] at hnow
  have hthen := htiles.stop_le hmem
  rw [stop] at hthen
  exact ⟨by omega, by omega, blockAt_layOut (start_size_reread find) hplace hi,
    htiles.blockAt hmem hi⟩

section Standard

/-- What holds all along a reordering about the blocks: as long as no equation was perturbed, no
exchange has been refused, and every block is similar to the original one. -/
structure StandardSpectrum (tol : Tolerance ℝ) (s : Mat n n ℝ) (q : Option (Mat n n ℝ))
    (st : Logged (StandardForm n ℝ) (StandardAttempt ℝ)) (order : List (Block ℝ)) (count : Nat)
    (rejected : Option (FormError ℝ)) : Prop where
  run : StandardRun tol s q st order count
  pairs : ∀ b ∈ order, b.HasPair (pairAt s)
  moved : (∀ a ∈ st.log, a.perturbed tol = false) → rejected = none ∧
    ∀ place ∈ placed 0 order, Mat.SimilarAt place.2.size st.form.s place.1 s place.2.start

variable {s : Mat n n ℝ} {q : Option (Mat n n ℝ)}
  {st next : Logged (StandardForm n ℝ) (StandardAttempt ℝ)} {above below : List (Block ℝ)}
  {upper lower : Block ℝ} {count : Nat}

/-- Nothing has moved at the start. -/
theorem StandardSpectrum.start (q : Option (Mat n n ℝ)) {blocks : List (Block ℝ)}
    (h : s.Classified blocks) : StandardSpectrum tol s q ⟨⟨s, q⟩, []⟩ blocks 0 none := by
  refine ⟨StandardRun.start q h, h.pairs, fun _ => ⟨rfl, fun place hplace => ?_⟩⟩
  rw [h.tiles.start_eq_of_mem_placed hplace]
  exact Mat.SimilarAt.of_eq rfl

/-- An unperturbed exchange of neighbours is accepted and swaps their blocks. -/
theorem StandardSpectrum.exists_exchange
    (h : StandardSpectrum tol s q st (above ++ upper :: lower :: below) count none)
    (hlog : ∀ a ∈ st.log, a.perturbed tol = false)
    (hpatch : exchangePerturbed tol (st.form.s.block (totalSize above) (totalSize above) :
      Mat (upper.size + lower.size) (upper.size + lower.size) ℝ) = false) :
    ∃ e, exchangeStandard tol (totalSize above)
        (st.form.s.block (totalSize above) (totalSize above) :
          Mat (upper.size + lower.size) (upper.size + lower.size) ℝ) = .ok e ∧
      Mat.SimilarAt lower.size e.after 0 s lower.start ∧
      Mat.SimilarAt upper.size e.after lower.size s upper.start := by
  have hmiddle := (h.run.cuts.patch_cuts h.run.rows).2.1
  set row := totalSize above with hrow
  set patch : Mat (upper.size + lower.size) (upper.size + lower.size) ℝ := st.form.s.block row row
    with hpatchDef
  have hupper : Mat.SimilarAt upper.size patch 0 s upper.start :=
    (Mat.SimilarAt.of_eq (Mat.block_block _ row (by omega))).trans
      ((h.moved hlog).2 (row, upper) (mem_placed_pair.mpr (Or.inr (Or.inl rfl))))
  have hlower : Mat.SimilarAt lower.size patch upper.size s lower.start :=
    (Mat.SimilarAt.of_eq (Mat.block_block _ row le_rfl)).trans
      ((h.moved hlog).2 (row + upper.size, lower)
        (mem_placed_pair.mpr (Or.inr (Or.inr (Or.inl rfl)))))
  obtain ⟨e, he, hswaps⟩ := exchangeStandard_swaps upper.size_cases lower.size_cases row
    hmiddle.block hpatch (hupper.pairAt_ne_none (h.pairs upper (by simp)))
    (hlower.pairAt_ne_none (h.pairs lower (by simp)))
  exact ⟨e, he, hswaps.lead.trans hlower, hswaps.trail.trans hupper⟩

/-- An accepted exchange moves two blocks and keeps the others. -/
theorem StandardSpectrum.accepted
    (h : StandardSpectrum tol s q st (above ++ upper :: lower :: below) count none)
    (hact : standardAction tol st (totalSize above) upper.size lower.size = (next, none)) :
    StandardSpectrum tol s q next (above ++ lower :: upper :: below) (count + 1) none := by
  refine ⟨h.run.accepted hact, fun b hb => h.pairs b ?_, fun hunperturbed => ⟨rfl, ?_⟩⟩
  · simpa [or_left_comm] using hb
  · rcases standardAction_cases tol st (totalSize above) upper.size lower.size with
      ⟨e, he, hok⟩ | ⟨reason, -, herror⟩
    · obtain rfl := (Prod.mk.inj (hok.symm.trans hact)).1
      have hlog : ∀ a ∈ st.log, a.perturbed tol = false :=
        fun a ha => hunperturbed a (List.mem_append_left _ ha)
      obtain ⟨e', he', hlead, htrail⟩ := h.exists_exchange hlog
        (hunperturbed _ (List.mem_append_right _ (List.mem_singleton.mpr rfl)))
      obtain rfl : e = e' := Except.ok.inj (he.symm.trans he')
      have hj := patch_le h.run.rows
      refine forall_placed_exchange ?_ ?_ fun place hplace hout => ?_
      · exact (Mat.SimilarAt.of_eq (Mat.block_transformPatch_inside _ hj
          (show 0 + lower.size ≤ upper.size + lower.size by omega) e.factor e.factor
          e.after)).trans hlead
      · exact (Mat.SimilarAt.of_eq (Mat.block_transformPatch_inside _ hj
          (show lower.size + upper.size ≤ upper.size + lower.size by omega) e.factor e.factor
          e.after)).trans htrail
      · exact (Mat.SimilarAt.of_eq (Mat.block_transformPatch_outside _ hout
          e.factor e.factor e.after)).trans ((h.moved hlog).2 place hplace)
    · exact nomatch (Prod.mk.inj (herror.symm.trans hact)).2

/-- An exchange is refused only if its equation was perturbed. -/
theorem StandardSpectrum.refused {reason : FormError ℝ}
    (h : StandardSpectrum tol s q st (above ++ upper :: lower :: below) count none)
    (hact : standardAction tol st (totalSize above) upper.size lower.size = (next, some reason)) :
    StandardSpectrum tol s q next (above ++ upper :: lower :: below) count (some reason) := by
  refine ⟨h.run.refused hact, h.pairs, fun hunperturbed => ?_⟩
  rcases standardAction_cases tol st (totalSize above) upper.size lower.size with
    ⟨e, -, hok⟩ | ⟨reason, he, herror⟩
  · exact nomatch (Prod.mk.inj (hok.symm.trans hact)).2
  · obtain rfl := (Prod.mk.inj (herror.symm.trans hact)).1
    obtain ⟨e', he', -⟩ := h.exists_exchange
      (fun a ha => hunperturbed a (List.mem_append_left _ ha))
      (hunperturbed _ (List.mem_append_right _ (List.mem_singleton.mpr rfl)))
    exact nomatch he.symm.trans he'

/-- At the end of an unperturbed reordering the reported eigenvalues are the original ones, in the
order of the blocks. -/
theorem StandardSpectrum.map_eigenvalues_at {blocks order : List (Block ℝ)}
    {rejected : Option (FormError ℝ)} (h : StandardSpectrum tol s q st order count rejected)
    (htiles : Tiles 0 blocks n) (hperm : order.Perm blocks)
    (hlog : ∀ a ∈ st.log, a.perturbed tol = false) :
    (List.range n).map
        (eigenvalues st.form.s ((layOut 0 order).map (reread (pairAt st.form.s)))).at =
      (blockRows order).map (eigenvalues s blocks).at := by
  rw [← List.forall₂_eq_eq_eq, List.range_eq_range']
  set now := eigenvalues st.form.s ((layOut 0 order).map (reread (pairAt st.form.s)))
  have hplaced : List.Forall₂ Eq ((List.range' 0 (totalSize order)).map now.at)
      ((blockRows order).map (eigenvalues s blocks).at) := by
    apply forall₂_placed
    intro place hplace i hi
    obtain ⟨hnow, hthen, hcovers, hcovers₀⟩ :=
      blockAt_reported htiles hperm (pairAt st.form.s) hplace hi
    rw [eigenvalues_at hnow hcovers, eigenvalues_at hthen hcovers₀]
    exact eigenvalueAt_reread (h.pairs _ (mem_of_mem_placed hplace))
      ((h.moved hlog).2 place hplace) hi
  rwa [h.run.rows] at hplaced

/-- A reordering without perturbed equations is complete and reports the original eigenvalues, those
of the selected blocks first. -/
theorem StandardForm.report_spectrum (tol : Tolerance ℝ) (q : Option (Mat n n ℝ))
    {blocks : List (Block ℝ)} (h : s.Classified blocks) (selected : List Bool) :
    let chosen := fun b : Block ℝ => flagAt selected b.start
    let r := StandardForm.report (gather (standardAction tol) blocks selected ⟨⟨s, q⟩, []⟩)
    (∀ a ∈ r.log, a.perturbed tol = false) → r.rejected = none ∧
      (List.range n).map r.eigenvalues.at =
        (blockRows (blocks.filter chosen ++ blocks.filter (!chosen ·))).map
          (eigenvalues s blocks).at := by
  intro chosen r hunperturbed
  obtain ⟨order, hblocks, hrun, hstable, -⟩ :=
    gather_exchangeRun (standardAction tol) blocks selected n ⟨⟨s, q⟩, []⟩ h.tiles
  have hfinal := hrun.preserves (P := StandardSpectrum tol s q)
    (fun _ _ _ _ _ _ _ hspectrum hact => hspectrum.accepted hact)
    (fun _ _ _ _ _ _ _ _ hspectrum hact => hspectrum.refused hact) (StandardSpectrum.start q h)
  have hcomplete := (hfinal.moved hunperturbed).1
  rw [hcomplete] at hstable
  have horder : order = blocks.filter chosen ++ blocks.filter (!chosen ·) := hstable.1
  refine ⟨hcomplete, ?_⟩
  rw [← horder, ← hfinal.map_eigenvalues_at h.tiles hrun.perm hunperturbed, ← hblocks]
  rfl

end Standard

/-- A block pair of order two that is equivalent to one with a complex eigenvalue, both over
diagonal blocks, has one. -/
theorem Mat.EquivalentAt.pencilPairAt_ne_none {a d : Mat m m ℝ} {i : Nat} {s t : Mat n n ℝ}
    {b : Block ℝ} (h : EquivalentAt b.size a d i s t b.start) (hpair : b.HasPair (pencilPairAt s t))
    (hd : d.DiagonalAt i) (ht : t.DiagonalAt b.start) (hsize : b.size = 2) :
    pencilPairAt a d i ≠ none := by
  rw [EquivalentAt.pencilPairAt_eq (hsize ▸ h) hd ht]
  exact hpair.ne_none hsize

section Pencil

/-- A block of a pencil where it stands now: the block pair is equivalent to the original one, and
the second matrix is diagonal in a block of order two. -/
structure PencilForm.Holds (form : PencilForm n ℝ) (s t : Mat n n ℝ) (place : Nat × Block ℝ) :
    Prop where
  equivalent : Mat.EquivalentAt place.2.size form.s form.t place.1 s t place.2.start
  diagonal : place.2.size = 2 → form.t.DiagonalAt place.1

/-- What holds all along a reordering about the block pairs: as long as no equations were perturbed,
no exchange has been refused, and every block pair is equivalent to the original one. -/
structure PencilSpectrum (tol : Tolerance ℝ) (s t : Mat n n ℝ) (q z : Option (Mat n n ℝ))
    (st : Logged (PencilForm n ℝ) (PencilAttempt ℝ)) (order : List (Block ℝ)) (count : Nat)
    (rejected : Option (FormError ℝ)) : Prop where
  run : PencilRun tol s t q z st order count
  pairs : ∀ b ∈ order, b.HasPair (pencilPairAt s t)
  diagonal : ∀ b ∈ order, b.size = 2 → t.DiagonalAt b.start
  moved : (∀ a ∈ st.log, a.perturbed tol = false) → rejected = none ∧
    ∀ place ∈ placed 0 order, st.form.Holds s t place

variable {s t : Mat n n ℝ} {q z : Option (Mat n n ℝ)}
  {st next : Logged (PencilForm n ℝ) (PencilAttempt ℝ)} {above below : List (Block ℝ)}
  {upper lower : Block ℝ} {count : Nat}

/-- An exchange leaves the blocks outside its patch as they are. -/
theorem PencilForm.Holds.apply_outside {form : PencilForm n ℝ} {place : Nat × Block ℝ}
    (h : form.Holds s t place) {row : Nat}
    (hout : place.1 + place.2.size ≤ row ∨ row + m ≤ place.1) (e : PencilExchange m ℝ) :
    (form.apply row e).Holds s t place := by
  have houtside (a : Mat n n ℝ) := Mat.block_transformPatch_outside a hout e.left e.right
  refine ⟨?_, fun hsize => ?_⟩
  · exact (Mat.EquivalentAt.of_eq (houtside _ _) (houtside _ _)).trans h.equivalent
  · exact Mat.DiagonalAt.of_block_eq (hsize ▸ houtside _ _) (h.diagonal hsize)

/-- An exchange puts in the blocks of its new patch. -/
theorem PencilForm.holds_apply_inside {form : PencilForm n ℝ} {row i : Nat} (hj : row + m ≤ n)
    {b : Block ℝ} (hi : i + b.size ≤ m) {e : PencilExchange m ℝ}
    (hequivalent : Mat.EquivalentAt b.size e.s e.t i s t b.start)
    (hdiagonal : b.size = 2 → e.t.DiagonalAt i) : (form.apply row e).Holds s t (row + i, b) := by
  have hinside (a : Mat n n ℝ) := Mat.block_transformPatch_inside a hj hi e.left e.right
  refine ⟨?_, fun hsize => ?_⟩
  · exact (Mat.EquivalentAt.of_eq (hinside _ _) (hinside _ _)).trans hequivalent
  · exact Mat.DiagonalAt.of_block_eq (hsize ▸ hinside _ _) (hdiagonal hsize)

/-- Nothing has moved at the start. -/
theorem PencilSpectrum.start (q z : Option (Mat n n ℝ)) {blocks : List (Block ℝ)}
    (h : s.PencilClassified t blocks) :
    PencilSpectrum tol s t q z ⟨⟨s, t, q, z⟩, []⟩ blocks 0 none := by
  refine ⟨PencilRun.start q z h, h.pairs, h.diagonal, fun _ => ⟨rfl, fun place hplace => ?_⟩⟩
  have hstart := h.tiles.start_eq_of_mem_placed hplace
  refine ⟨?_, fun hsize => ?_⟩
  · rw [hstart]
    exact Mat.EquivalentAt.of_eq rfl rfl
  · rw [← hstart]
    exact h.diagonal _ (mem_of_mem_placed hplace) hsize

/-- An unperturbed exchange of neighbours is accepted and swaps their block pairs. -/
theorem PencilSpectrum.exists_exchange
    (h : PencilSpectrum tol s t q z st (above ++ upper :: lower :: below) count none)
    (hlog : ∀ a ∈ st.log, a.perturbed tol = false)
    (hpatch : (coupledSolution tol
      (st.form.s.block (totalSize above) (totalSize above) :
        Mat (upper.size + lower.size) (upper.size + lower.size) ℝ)
      (st.form.t.block (totalSize above) (totalSize above))).perturbed = false) :
    ∃ e, exchangePencil tol (totalSize above)
        (st.form.s.block (totalSize above) (totalSize above) :
          Mat (upper.size + lower.size) (upper.size + lower.size) ℝ)
        (st.form.t.block (totalSize above) (totalSize above)) = .ok e ∧
      Mat.EquivalentAt lower.size e.s e.t 0 s t lower.start ∧
      Mat.EquivalentAt upper.size e.s e.t lower.size s t upper.start ∧
      (lower.size = 2 → e.t.DiagonalAt 0) ∧ (upper.size = 2 → e.t.DiagonalAt lower.size) := by
  have hmiddleS := (h.run.cuts_s.patch_cuts h.run.rows).2.1
  have hmiddleT := (h.run.cuts_t.patch_cuts h.run.rows).2.1
  set row := totalSize above with hrow
  set a : Mat (upper.size + lower.size) (upper.size + lower.size) ℝ := st.form.s.block row row
    with ha
  set b : Mat (upper.size + lower.size) (upper.size + lower.size) ℝ := st.form.t.block row row
    with hb
  have hholdsUpper := (h.moved hlog).2 (row, upper) (mem_placed_pair.mpr (Or.inr (Or.inl rfl)))
  have hholdsLower := (h.moved hlog).2 (row + upper.size, lower)
    (mem_placed_pair.mpr (Or.inr (Or.inr (Or.inl rfl))))
  have hupper : Mat.EquivalentAt upper.size a b 0 s t upper.start :=
    (Mat.EquivalentAt.of_eq (Mat.block_block _ row (by omega))
      (Mat.block_block _ row (by omega))).trans hholdsUpper.equivalent
  have hlower : Mat.EquivalentAt lower.size a b upper.size s t lower.start :=
    (Mat.EquivalentAt.of_eq (Mat.block_block _ row le_rfl)
      (Mat.block_block _ row le_rfl)).trans hholdsLower.equivalent
  have hdiagonalUpper (hsize : upper.size = 2) : b.DiagonalAt 0 :=
    Mat.DiagonalAt.of_block_eq (Mat.block_block _ row (by omega)) (hholdsUpper.diagonal hsize)
  have hdiagonalLower (hsize : lower.size = 2) : b.DiagonalAt upper.size :=
    Mat.DiagonalAt.of_block_eq (Mat.block_block _ row (by omega)) (hholdsLower.diagonal hsize)
  obtain ⟨e, he, hswaps⟩ := exchangePencil_swaps upper.size_cases lower.size_cases row
    hmiddleS.block hmiddleT.block hpatch
    (fun hsize => ⟨hdiagonalUpper hsize, hupper.pencilPairAt_ne_none (h.pairs upper (by simp))
      (hdiagonalUpper hsize) (h.diagonal upper (by simp) hsize) hsize⟩)
    (fun hsize => ⟨hdiagonalLower hsize, hlower.pencilPairAt_ne_none (h.pairs lower (by simp))
      (hdiagonalLower hsize) (h.diagonal lower (by simp) hsize) hsize⟩)
  exact ⟨e, he, hswaps.lead.trans hlower, hswaps.trail.trans hupper, hswaps.lead_diagonal,
    hswaps.trail_diagonal⟩

/-- An accepted exchange moves two block pairs and keeps the others. -/
theorem PencilSpectrum.accepted
    (h : PencilSpectrum tol s t q z st (above ++ upper :: lower :: below) count none)
    (hact : pencilAction tol st (totalSize above) upper.size lower.size = (next, none)) :
    PencilSpectrum tol s t q z next (above ++ lower :: upper :: below) (count + 1) none := by
  have hmem (b : Block ℝ) (hb : b ∈ above ++ lower :: upper :: below) :
      b ∈ above ++ upper :: lower :: below := by simpa [or_left_comm] using hb
  refine ⟨h.run.accepted hact, fun b hb => h.pairs b (hmem b hb),
    fun b hb => h.diagonal b (hmem b hb), fun hunperturbed => ⟨rfl, ?_⟩⟩
  rcases pencilAction_cases tol st (totalSize above) upper.size lower.size with
    ⟨e, he, hok⟩ | ⟨reason, -, herror⟩
  · obtain rfl := (Prod.mk.inj (hok.symm.trans hact)).1
    have hlog : ∀ a ∈ st.log, a.perturbed tol = false :=
      fun a ha => hunperturbed a (List.mem_append_left _ ha)
    obtain ⟨e', he', hlead, htrail, hleadDiagonal, htrailDiagonal⟩ := h.exists_exchange hlog
      (hunperturbed _ (List.mem_append_right _ (List.mem_singleton.mpr rfl)))
    obtain rfl : e = e' := Except.ok.inj (he.symm.trans he')
    have hj := patch_le h.run.rows
    exact forall_placed_exchange (PencilForm.holds_apply_inside hj (i := 0) (by omega) hlead
        hleadDiagonal)
      (PencilForm.holds_apply_inside hj (by omega) htrail htrailDiagonal)
      fun place hplace hout => ((h.moved hlog).2 place hplace).apply_outside hout e
  · exact nomatch (Prod.mk.inj (herror.symm.trans hact)).2

/-- An exchange is refused only if its equations were perturbed. -/
theorem PencilSpectrum.refused {reason : FormError ℝ}
    (h : PencilSpectrum tol s t q z st (above ++ upper :: lower :: below) count none)
    (hact : pencilAction tol st (totalSize above) upper.size lower.size = (next, some reason)) :
    PencilSpectrum tol s t q z next (above ++ upper :: lower :: below) count (some reason) := by
  refine ⟨h.run.refused hact, h.pairs, h.diagonal, fun hunperturbed => ?_⟩
  rcases pencilAction_cases tol st (totalSize above) upper.size lower.size with
    ⟨e, -, hok⟩ | ⟨reason, he, herror⟩
  · exact nomatch (Prod.mk.inj (hok.symm.trans hact)).2
  · obtain rfl := (Prod.mk.inj (herror.symm.trans hact)).1
    obtain ⟨e', he', -⟩ := h.exists_exchange
      (fun a ha => hunperturbed a (List.mem_append_left _ ha))
      (hunperturbed _ (List.mem_append_right _ (List.mem_singleton.mpr rfl)))
    exact nomatch he.symm.trans he'

/-- At the end of an unperturbed reordering the reported points are the original ones, in the order
of the blocks. -/
theorem PencilSpectrum.forall₂_eigenvalues_at {blocks order : List (Block ℝ)}
    {rejected : Option (FormError ℝ)} (h : PencilSpectrum tol s t q z st order count rejected)
    (htiles : Tiles 0 blocks n) (hperm : order.Perm blocks)
    (hlog : ∀ a ∈ st.log, a.perturbed tol = false) :
    List.Forall₂ SamePoint
      ((List.range n).map (pencilEigenvalues st.form.s st.form.t
        ((layOut 0 order).map (reread (pencilPairAt st.form.s st.form.t)))).at)
      ((blockRows order).map (pencilEigenvalues s t blocks).at) := by
  rw [List.range_eq_range']
  set now := pencilEigenvalues st.form.s st.form.t
    ((layOut 0 order).map (reread (pencilPairAt st.form.s st.form.t)))
  have hplaced : List.Forall₂ SamePoint ((List.range' 0 (totalSize order)).map now.at)
      ((blockRows order).map (pencilEigenvalues s t blocks).at) := by
    apply forall₂_placed
    intro place hplace i hi
    obtain ⟨hnow, hthen, hcovers, hcovers₀⟩ :=
      blockAt_reported htiles hperm (pencilPairAt st.form.s st.form.t) hplace hi
    have hmem := mem_of_mem_placed hplace
    have hholds := (h.moved hlog).2 place hplace
    rw [pencilEigenvalues_at hnow hcovers, pencilEigenvalues_at hthen hcovers₀]
    exact pencilEigenvalueAt_reread (h.pairs _ hmem) hholds.equivalent hholds.diagonal
      (h.diagonal _ hmem) hi
  rwa [h.run.rows] at hplaced

/-- A reordering without perturbed equations is complete and reports the original points, those of
the selected blocks first. -/
theorem PencilForm.report_spectrum (tol : Tolerance ℝ) (q z : Option (Mat n n ℝ))
    {blocks : List (Block ℝ)} (h : s.PencilClassified t blocks) (selected : List Bool) :
    let chosen := fun b : Block ℝ => flagAt selected b.start
    let r := PencilForm.report (gather (pencilAction tol) blocks selected ⟨⟨s, t, q, z⟩, []⟩)
    (∀ a ∈ r.log, a.perturbed tol = false) → r.rejected = none ∧
      List.Forall₂ SamePoint ((List.range n).map r.eigenvalues.at)
        ((blockRows (blocks.filter chosen ++ blocks.filter (!chosen ·))).map
          (pencilEigenvalues s t blocks).at) := by
  intro chosen r hunperturbed
  obtain ⟨order, hblocks, hrun, hstable, -⟩ :=
    gather_exchangeRun (pencilAction tol) blocks selected n ⟨⟨s, t, q, z⟩, []⟩ h.tiles
  have hfinal := hrun.preserves (P := PencilSpectrum tol s t q z)
    (fun _ _ _ _ _ _ _ hspectrum hact => hspectrum.accepted hact)
    (fun _ _ _ _ _ _ _ _ hspectrum hact => hspectrum.refused hact) (PencilSpectrum.start q z h)
  have hcomplete := (hfinal.moved hunperturbed).1
  rw [hcomplete] at hstable
  have horder : order = blocks.filter chosen ++ blocks.filter (!chosen ·) := hstable.1
  have hpoints := hfinal.forall₂_eigenvalues_at h.tiles hrun.perm hunperturbed
  rw [← hblocks, horder] at hpoints
  exact ⟨hcomplete, hpoints⟩

end Pencil

/-- A reordering of a recognized form by a valid selection is complete if none of its Sylvester
equations were perturbed. The reported eigenvalues are then the original ones, those of the selected
blocks first and both kinds in their original order: the same numbers for a standard form, the same
projective points for a pencil. -/
theorem reorder_spectrum (tol : Tolerance ℝ) (selected : List Bool) :
    let chosen := fun b : Block ℝ => flagAt selected b.start
    (∀ (form : StandardForm n ℝ) (blocks : List (Block ℝ)) (count : Nat),
      diagonalBlocks form.s = .ok blocks → checkSelection blocks selected 2 = .ok count →
      ∃ r, form.reorder tol selected = .ok r ∧
        ((∀ a ∈ r.log, a.perturbed tol = false) → r.rejected = none ∧
          (List.range n).map r.eigenvalues.at =
            (blockRows (blocks.filter chosen ++ blocks.filter (!chosen ·))).map
              (eigenvalues form.s blocks).at)) ∧
    (∀ (form : PencilForm n ℝ) (blocks : List (Block ℝ)) (count : Nat),
      pencilBlocks form.s form.t = .ok blocks → checkSelection blocks selected 2 = .ok count →
      ∃ r, form.reorder tol selected = .ok r ∧
        ((∀ a ∈ r.log, a.perturbed tol = false) → r.rejected = none ∧
          List.Forall₂ SamePoint ((List.range n).map r.eigenvalues.at)
            ((blockRows (blocks.filter chosen ++ blocks.filter (!chosen ·))).map
              (pencilEigenvalues form.s form.t blocks).at))) := by
  intro chosen
  refine ⟨fun form blocks count hblocks hcount => ?_, fun form blocks count hblocks hcount => ?_⟩
  · exact ⟨_, StandardForm.reorder_eq_ok.mpr ⟨blocks, count, hblocks, hcount, rfl⟩,
      StandardForm.report_spectrum tol form.q (classified_of_diagonalBlocks hblocks) selected⟩
  · exact ⟨_, PencilForm.reorder_eq_ok.mpr ⟨blocks, count, hblocks, hcount, rfl⟩,
      PencilForm.report_spectrum tol form.q form.z (classified_of_pencilBlocks hblocks) selected⟩

/-- The second eigenvalue is moved to the front: of a standard form with the eigenvalues one and
two, and of a pencil with the eigenvalue zero and the infinite one. -/
theorem reorder_spectrum_two :
    let form : StandardForm 2 ℝ := ⟨Mat.ofRows2 1 3 0 2, none⟩
    let pencil : PencilForm 2 ℝ := ⟨Mat.ofRows2 0 1 0 1, Mat.ofRows2 1 0 0 0, none, none⟩
    (∃ r, form.reorder Tolerance.standard [false, true] = .ok r ∧
      (∀ a ∈ r.log, a.perturbed Tolerance.standard = false) ∧ r.rejected = none ∧
      (List.range 2).map r.eigenvalues.at = [(2, 0), (1, 0)]) ∧
    ∃ r, pencil.reorder Tolerance.standard [false, true] = .ok r ∧
      (∀ a ∈ r.log, a.perturbed Tolerance.standard = false) ∧ r.rejected = none ∧
      List.Forall₂ SamePoint ((List.range 2).map r.eigenvalues.at) [(1, 0, 0), (0, 0, 1)] := by
  intro form pencil
  obtain ⟨count, hselection⟩ := exists_checkSelection_two false true
  obtain ⟨hstandard, hpencil⟩ := reorder_spectrum (n := 2) Tolerance.standard [false, true]
  constructor
  · have hblocks := diagonalBlocks_triangular_two 1 3 2
    obtain ⟨r, hr, hspectrum⟩ := hstandard form _ count hblocks hselection
    have hunperturbed : ∀ a ∈ r.log, a.perturbed Tolerance.standard = false := by
      obtain ⟨_, _, hfound, -, rfl⟩ := StandardForm.reorder_eq_ok.mp hr
      obtain rfl := Except.ok.inj (hblocks.symm.trans hfound)
      exact unperturbed_real_two Tolerance.standard _ none
    obtain ⟨hcomplete, hlist⟩ := hspectrum hunperturbed
    refine ⟨r, hr, hunperturbed, hcomplete, hlist.trans ?_⟩
    simp [blockRows, flagAt, start, size, Eigenvalues.at, eigenvalues, blockAt, covers, stop,
      eigenvalueAt, form, Mat.ofRows2]
  · have hblocks := pencilBlocks_triangular_two 0 1 1 1 0 0
    obtain ⟨r, hr, hspectrum⟩ := hpencil pencil _ count hblocks hselection
    have hunperturbed : ∀ a ∈ r.log, a.perturbed Tolerance.standard = false := by
      obtain ⟨_, _, hfound, -, rfl⟩ := PencilForm.reorder_eq_ok.mp hr
      obtain rfl := Except.ok.inj (hblocks.symm.trans hfound)
      exact (unperturbed_zero_infinity Tolerance.standard none none).2
    obtain ⟨hcomplete, hlist⟩ := hspectrum hunperturbed
    refine ⟨r, hr, hunperturbed, hcomplete, ?_⟩
    simpa [blockRows, flagAt, start, size, PencilEigenvalues.at, pencilEigenvalues, blockAt, covers,
      stop, pencilEigenvalueAt, pencil, Mat.ofRows2, zero_le_one.not_gt] using hlist

end SchurForm
