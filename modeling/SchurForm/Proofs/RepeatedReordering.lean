import SchurForm.Proofs.ReorderedForm

/-!
# Reordering again changes nothing

The reported selection marks the leading blocks of the reported form and no others. A second
reordering recognizes the same blocks, finds every selected block in its place and asks for no
exchange, so it does not even look at the tolerance. This holds of stopped reorderings as well: the
selected blocks that were not reached are no longer selected.
-/

namespace SchurForm

open Block

section Gatherings

variable {α σ ε : Type} {act : ExchangeAction σ ε} {selected : List Bool} {n : Nat}

/-- Selected blocks join the front one by one as long as nothing waits above them. -/
theorem gatherFrom_of_chosen {leading : List (Block α)}
    (h : ∀ b ∈ leading, flagAt selected b.start = true) (front rest : List (Block α)) (swaps : Nat)
    (state : σ) : gatherFrom act selected front [] (leading ++ rest) swaps state =
      gatherFrom act selected (front ++ leading) [] rest swaps state := by
  induction leading generalizing front with
  | nil => simp
  | cons b leading ih =>
    have hleading : ∀ c ∈ leading, flagAt selected c.start = true :=
      fun c hc => h c (List.mem_cons_of_mem b hc)
    rw [List.cons_append, gatherFrom, if_pos (h b List.mem_cons_self)]
    simp only [List.reverse_nil, climb, Nat.add_zero, ih hleading, List.append_assoc,
      List.singleton_append]

/-- Unselected blocks stay where they are. -/
theorem gatherFrom_of_unchosen {trailing : List (Block α)}
    (h : ∀ b ∈ trailing, flagAt selected b.start = false) (front waiting : List (Block α))
    (swaps : Nat) (state : σ) : gatherFrom act selected front waiting trailing swaps state =
      { state, blocks := front ++ (waiting ++ trailing), swaps, gathered := front.length
        rejected := none } := by
  induction trailing generalizing waiting with
  | nil => simp [gatherFrom]
  | cons b trailing ih =>
    have hb : ¬ flagAt selected b.start = true := by simp [h b List.mem_cons_self]
    rw [gatherFrom, if_neg hb, ih fun c hc => h c (List.mem_cons_of_mem b hc)]
    simp

/-- Gathering the leading blocks of a tiling asks for no exchange. -/
theorem gather_markFront (act : ExchangeAction σ ε) {blocks : List (Block α)}
    (htiles : Tiles 0 blocks n) (gathered : Nat) (state : σ) :
    gather act blocks (markFront n blocks gathered).1 state =
      { state, blocks, swaps := 0, gathered := (blocks.take gathered).length
        rejected := none } := by
  obtain ⟨hfront, hback⟩ := flagAt_markFront_block htiles gathered (i := 0)
  have hleading : ∀ b ∈ blocks.take gathered,
      flagAt (markFront n blocks gathered).1 b.start = true :=
    fun b hb => hfront b hb b.size_pos
  set flags := (markFront n blocks gathered).1
  have hsplit : gather act blocks flags state =
      gatherFrom act flags [] [] (blocks.take gathered ++ blocks.drop gathered) 0 state := by
    rw [List.take_append_drop, gather]
  rw [hsplit, gatherFrom_of_chosen hleading, gatherFrom_of_unchosen hback]
  simp

/-- Only as many blocks as there are can be marked. -/
theorem markFront_length_take (blocks : List (Block α)) (gathered : Nat) :
    markFront n blocks (blocks.take gathered).length = markFront n blocks gathered := by
  have htake : blocks.take (blocks.take gathered).length = blocks.take gathered := by
    rw [List.length_take, ← List.take_take, List.take_length]
  rw [markFront, htake, ← markFront]

end Gatherings

/-- A reordering that found nothing to do in the result of another one. -/
structure Reordering.Repeats {form attempt eig ε : Type} (again r : Reordering form attempt eig ε) :
    Prop where
  complete : again.isComplete = true
  swaps : again.swaps = 0
  log : again.log = []
  reordered : again.reordered = r.reordered
  eigenvalues : again.eigenvalues = r.eigenvalues
  form : again.form = r.form
  selected : again.selected = r.selected

variable {n : Nat} {tol : Tolerance ℝ} {blocks order : List (Block ℝ)} {selected : List Bool}
  {gathered : Nat}

/-- Blocks that were read again are as a further reading would find them. -/
theorem Block.map_reread_map_reread {α : Type} (find : Nat → Option (α × α))
    (blocks : List (Block α)) :
    (blocks.map (reread find)).map (reread find) = blocks.map (reread find) := by
  rw [List.map_map]
  exact List.map_congr_left fun b _ => reread_reread find b

/-- Reordering a reported form by its reported selection changes nothing. -/
theorem StandardForm.Reported.reorder_again {form : StandardForm n ℝ}
    {r : Reordering (StandardForm n ℝ) (StandardAttempt ℝ) (Eigenvalues n ℝ) (FormError ℝ)}
    (h : form.Reported tol blocks selected r order gathered) (tol' : Tolerance ℝ) :
    ∃ again, r.form.reorder tol' r.selected = .ok again ∧ again.Repeats r := by
  have hselected := congrArg Prod.fst h.front
  have hreordered := congrArg Prod.snd h.front
  dsimp only at hselected hreordered
  have hselection := checkSelection_markFront h.tiles gathered 2
  rw [← hselected] at hselection
  have hgather := gather_markFront (standardAction tol') h.tiles gathered
    (⟨r.form, []⟩ : Logged (StandardForm n ℝ) (StandardAttempt ℝ))
  rw [← hselected] at hgather
  refine ⟨_, StandardForm.reorder_eq_ok.mpr ⟨_, _, h.recognized, hselection, rfl⟩, ?_⟩
  rw [hgather]
  exact {
    complete := rfl
    swaps := rfl
    log := rfl
    reordered := by simp only [StandardForm.report, markFront_length_take, hreordered]
    eigenvalues := by simp only [StandardForm.report, map_reread_map_reread, h.eigenvalues]
    form := rfl
    selected := by simp only [StandardForm.report, markFront_length_take, hselected] }

/-- Reordering a reported pencil by its reported selection changes nothing. -/
theorem PencilForm.Reported.reorder_again {form : PencilForm n ℝ}
    {r : Reordering (PencilForm n ℝ) (PencilAttempt ℝ) (PencilEigenvalues n ℝ) (FormError ℝ)}
    (h : form.Reported tol blocks selected r order gathered) (tol' : Tolerance ℝ) :
    ∃ again, r.form.reorder tol' r.selected = .ok again ∧ again.Repeats r := by
  have hselected := congrArg Prod.fst h.front
  have hreordered := congrArg Prod.snd h.front
  dsimp only at hselected hreordered
  have hselection := checkSelection_markFront h.tiles gathered 2
  rw [← hselected] at hselection
  have hgather := gather_markFront (pencilAction tol') h.tiles gathered
    (⟨r.form, []⟩ : Logged (PencilForm n ℝ) (PencilAttempt ℝ))
  rw [← hselected] at hgather
  refine ⟨_, PencilForm.reorder_eq_ok.mpr ⟨_, _, h.recognized, hselection, rfl⟩, ?_⟩
  rw [hgather]
  exact {
    complete := rfl
    swaps := rfl
    log := rfl
    reordered := by simp only [PencilForm.report, markFront_length_take, hreordered]
    eigenvalues := by simp only [PencilForm.report, map_reread_map_reread, h.eigenvalues]
    form := rfl
    selected := by simp only [PencilForm.report, markFront_length_take, hselected] }

/-- Reordering is idempotent. Whatever a reordering left behind, complete or stopped, reordering it
by the reported selection under any tolerance is complete, carries out no exchange and leaves the
matrices, the factors, the selection, the number of leading eigenvalues and the eigenvalues as they
were. -/
theorem reorder_idempotent (tol tol' : Tolerance ℝ) (selected : List Bool) :
    (∀ (form : StandardForm n ℝ)
      (r : Reordering (StandardForm n ℝ) (StandardAttempt ℝ) (Eigenvalues n ℝ) (FormError ℝ)),
      form.reorder tol selected = .ok r →
      ∃ again, r.form.reorder tol' r.selected = .ok again ∧ again.Repeats r) ∧
    (∀ (form : PencilForm n ℝ)
      (r : Reordering (PencilForm n ℝ) (PencilAttempt ℝ) (PencilEigenvalues n ℝ) (FormError ℝ)),
      form.reorder tol selected = .ok r →
      ∃ again, r.form.reorder tol' r.selected = .ok again ∧ again.Repeats r) := by
  refine ⟨fun form r hr => ?_, fun form r hr => ?_⟩
  · obtain ⟨_, _, _, _, hreported⟩ := StandardForm.reorder_reported hr
    exact hreported.reorder_again tol'
  · obtain ⟨_, _, _, _, hreported⟩ := PencilForm.reorder_reported hr
    exact hreported.reorder_again tol'

/-- Reordering again, under a stricter tolerance, after a conjugate pair was carried past a real
eigenvalue of a standard form, and the infinite eigenvalue past a finite one of a pencil. -/
theorem reorder_idempotent_turn :
    let form : StandardForm 3 ℝ := ⟨turnBelowZero, some Mat.identity⟩
    let pencil : PencilForm 2 ℝ :=
      ⟨Mat.ofRows2 0 1 0 1, Mat.ofRows2 1 0 0 0, some Mat.identity, none⟩
    (∃ r again, form.reorder Tolerance.standard [false, true, true] = .ok r ∧ r.swaps = 1 ∧
      r.form.reorder ⟨1, 0⟩ r.selected = .ok again ∧ again.Repeats r) ∧
    ∃ r again, pencil.reorder Tolerance.standard [false, true] = .ok r ∧ r.swaps = 1 ∧
      r.form.reorder ⟨1, 0⟩ r.selected = .ok again ∧ again.Repeats r := by
  intro form pencil
  obtain ⟨r, hr, hswaps, -⟩ :=
    exists_reorder_turnBelowZero Tolerance.standard (some Mat.identity)
  obtain ⟨r', hr', hswaps', -⟩ :=
    exists_reorder_zero_infinity Tolerance.standard (some Mat.identity) none
  obtain ⟨again, hagain, hrepeats⟩ :=
    (reorder_idempotent Tolerance.standard ⟨1, 0⟩ [false, true, true]).1 form r hr
  obtain ⟨again', hagain', hrepeats'⟩ :=
    (reorder_idempotent Tolerance.standard ⟨1, 0⟩ [false, true]).2 pencil r' hr'
  exact ⟨⟨r, again, hr, hswaps, hagain, hrepeats⟩,
    r', again', hr', hswaps', hagain', hrepeats'⟩

end SchurForm
