import SchurForm.Proofs.GatheringRuns
import SchurForm.Reordering

/-!
# What comes of a reordering

Whatever the arithmetic, a reordering can fail only before its first exchange, while the form is
recognized and the selection is checked, and such an error charges an argument. After that there is
always a report. Every attempted exchange is logged with its outcome, and the refusals in the log
are the reported one: there is none or the one that ended the gathering.
-/

namespace SchurForm

open Block

variable {α : Type} [Scalar α] {n : Nat} {tol : Tolerance α}

section Checks

/-- Recognition fails with errors that charge an argument. -/
theorem chargesArguments_scanBlocks {s : Mat n n α} {pair : Nat → Except (FormError α) (α × α)}
    (hpair : ∀ k, ChargesArguments (pair k)) (left k : Nat) :
    ChargesArguments (scanBlocks s pair left k) := by
  fun_induction scanBlocks s pair left k with
  | case1 => exact chargesArguments_ok _
  | case2 => exact chargesArguments_ok _
  | case3 => exact chargesArguments_error trivial
  | case4 left k _ _ ih =>
    exact (hpair k).bind fun _ => ih.bind fun _ => chargesArguments_ok _
  | case5 left k _ ih => exact ih.bind fun _ => chargesArguments_ok _

/-- Entries below the subdiagonal are charged to the form. -/
theorem chargesArguments_checkSubdiagonal (s : Mat n n α) :
    ChargesArguments (checkSubdiagonal s) := by
  rw [checkSubdiagonal]
  split
  · exact chargesArguments_error trivial
  · exact chargesArguments_ok _

/-- Entries below the diagonal of the second matrix are charged to the form. -/
theorem chargesArguments_checkTriangular (t : Mat n n α) :
    ChargesArguments (checkTriangular t) := by
  rw [checkTriangular]
  split
  · exact chargesArguments_error trivial
  · exact chargesArguments_ok _

/-- A block without a conjugate pair is charged to the form. -/
theorem chargesArguments_requirePair (s : Mat n n α) (k : Nat) :
    ChargesArguments (requirePair s k) := by
  rw [requirePair]
  split
  · exact chargesArguments_ok _
  · exact chargesArguments_error trivial

/-- A block pair without a conjugate pair is charged to the form. -/
theorem chargesArguments_requirePencilPair (s t : Mat n n α) (k : Nat) :
    ChargesArguments (requirePencilPair s t k) := by
  rw [requirePencilPair]
  split
  · exact chargesArguments_error trivial
  · split
    · exact chargesArguments_ok _
    · exact chargesArguments_error trivial

/-- Recognizing a standard form charges arguments only. -/
theorem chargesArguments_diagonalBlocks (s : Mat n n α) : ChargesArguments (diagonalBlocks s) :=
  (chargesArguments_checkSubdiagonal s).bind fun _ =>
    chargesArguments_scanBlocks (chargesArguments_requirePair s) n 0

/-- Recognizing a pencil charges arguments only. -/
theorem chargesArguments_pencilBlocks (s t : Mat n n α) : ChargesArguments (pencilBlocks s t) :=
  (chargesArguments_checkSubdiagonal s).bind fun _ =>
    (chargesArguments_checkTriangular t).bind fun _ =>
      chargesArguments_scanBlocks (chargesArguments_requirePencilPair s t) n 0

omit [Scalar α] in
/-- A selection that does not fit charges the ordinal that it has. -/
theorem chargesArguments_checkSelection (blocks : List (Block α)) (selected : List Bool)
    {position : Nat} (h : IsOrdinal position) :
    ChargesArguments (checkSelection blocks selected position) := by
  rw [checkSelection]
  split
  · exact chargesArguments_error h
  · split
    · exact chargesArguments_error h
    · exact chargesArguments_ok _

end Checks

section Actions

/-- The exchange of blocks is refused or applies an accepted exchange; both are logged. -/
theorem standardAction_cases (tol : Tolerance α)
    (st : Logged (StandardForm n α) (StandardAttempt α)) (row upper lower : Nat) :
    let patch : Mat (upper + lower) (upper + lower) α := st.form.s.block row row
    (∃ e, exchangeStandard tol row patch = .ok e ∧ standardAction tol st row upper lower =
      (⟨st.form.apply row e, st.log ++ [⟨row, upper, lower, patch, .ok e⟩]⟩, none)) ∨
    (∃ reason, exchangeStandard tol row patch = .error reason ∧
      standardAction tol st row upper lower =
        (⟨st.form, st.log ++ [⟨row, upper, lower, patch, .error reason⟩]⟩, some reason)) := by
  intro patch
  cases houtcome : exchangeStandard tol row patch with
  | ok e =>
    exact Or.inl ⟨e, rfl, by simp only [standardAction, StandardForm.attempt, patch, houtcome]⟩
  | error reason =>
    exact Or.inr ⟨reason, rfl, by simp only [standardAction, StandardForm.attempt, patch, houtcome]⟩

/-- The exchange of block pairs is refused or applies an accepted exchange; both are logged. -/
theorem pencilAction_cases (tol : Tolerance α) (st : Logged (PencilForm n α) (PencilAttempt α))
    (row upper lower : Nat) :
    let patchS : Mat (upper + lower) (upper + lower) α := st.form.s.block row row
    let patchT : Mat (upper + lower) (upper + lower) α := st.form.t.block row row
    (∃ e, exchangePencil tol row patchS patchT = .ok e ∧ pencilAction tol st row upper lower =
      (⟨st.form.apply row e, st.log ++ [⟨row, upper, lower, patchS, patchT, .ok e⟩]⟩, none)) ∨
    (∃ reason, exchangePencil tol row patchS patchT = .error reason ∧
      pencilAction tol st row upper lower =
        (⟨st.form, st.log ++ [⟨row, upper, lower, patchS, patchT, .error reason⟩]⟩,
          some reason)) := by
  intro patchS patchT
  cases houtcome : exchangePencil tol row patchS patchT with
  | ok e =>
    exact Or.inl ⟨e, rfl, by simp only [pencilAction, PencilForm.attempt, patchS, patchT, houtcome]⟩
  | error reason =>
    exact Or.inr ⟨reason, rfl, by
      simp only [pencilAction, PencilForm.attempt, patchS, patchT, houtcome]⟩

end Actions

section Results

/-- A reordering classifies the form, checks the selection and gathers the selected blocks. -/
theorem StandardForm.reorder_eq_ok {form : StandardForm n α} {selected : List Bool}
    {r : Reordering (StandardForm n α) (StandardAttempt α) (Eigenvalues n α) (FormError α)} :
    form.reorder tol selected = .ok r ↔ ∃ blocks count, diagonalBlocks form.s = .ok blocks ∧
      checkSelection blocks selected 2 = .ok count ∧
      StandardForm.report (gather (standardAction tol) blocks selected ⟨form, []⟩) = r := by
  simp only [StandardForm.reorder, checked_bind_eq_ok, pure, Except.pure, Except.ok.injEq]
  constructor
  · rintro ⟨blocks, hblocks, count, hcount, hreport⟩
    exact ⟨blocks, count, hblocks, hcount, hreport⟩
  · rintro ⟨blocks, count, hblocks, hcount, hreport⟩
    exact ⟨blocks, hblocks, count, hcount, hreport⟩

/-- A reordering classifies the pencil, checks the selection and gathers the selected blocks. -/
theorem PencilForm.reorder_eq_ok {form : PencilForm n α} {selected : List Bool}
    {r : Reordering (PencilForm n α) (PencilAttempt α) (PencilEigenvalues n α) (FormError α)} :
    form.reorder tol selected = .ok r ↔ ∃ blocks count, pencilBlocks form.s form.t = .ok blocks ∧
      checkSelection blocks selected 2 = .ok count ∧
      PencilForm.report (gather (pencilAction tol) blocks selected ⟨form, []⟩) = r := by
  simp only [PencilForm.reorder, checked_bind_eq_ok, pure, Except.pure, Except.ok.injEq]
  constructor
  · rintro ⟨blocks, hblocks, count, hcount, hreport⟩
    exact ⟨blocks, count, hblocks, hcount, hreport⟩
  · rintro ⟨blocks, count, hblocks, hcount, hreport⟩
    exact ⟨blocks, hblocks, count, hcount, hreport⟩

/-- A reordering fails exactly if the form is not recognized or the selection does not fit it. -/
theorem StandardForm.reorder_eq_error {form : StandardForm n α} {selected : List Bool}
    {e : FormError α} :
    form.reorder tol selected = .error e ↔ diagonalBlocks form.s = .error e ∨
      ∃ blocks, diagonalBlocks form.s = .ok blocks ∧
        checkSelection blocks selected 2 = .error e := by
  simp only [StandardForm.reorder, checked_bind_eq_error, pure, Except.pure, reduceCtorEq,
    and_false, exists_false, or_false]

/-- A reordering fails exactly if the pencil is not recognized or the selection does not fit it. -/
theorem PencilForm.reorder_eq_error {form : PencilForm n α} {selected : List Bool}
    {e : FormError α} :
    form.reorder tol selected = .error e ↔ pencilBlocks form.s form.t = .error e ∨
      ∃ blocks, pencilBlocks form.s form.t = .ok blocks ∧
        checkSelection blocks selected 2 = .error e := by
  simp only [PencilForm.reorder, checked_bind_eq_error, pure, Except.pure, reduceCtorEq,
    and_false, exists_false, or_false]

/-- A reordering that fails charges an argument. -/
theorem StandardForm.chargesArguments_reorder (form : StandardForm n α) (selected : List Bool) :
    ChargesArguments (form.reorder tol selected) :=
  (chargesArguments_diagonalBlocks form.s).bind fun blocks =>
    (chargesArguments_checkSelection blocks selected (by decide)).bind fun _ =>
      chargesArguments_ok _

/-- A reordering of a pencil that fails charges an argument. -/
theorem PencilForm.chargesArguments_reorder (form : PencilForm n α) (selected : List Bool) :
    ChargesArguments (form.reorder tol selected) :=
  (chargesArguments_pencilBlocks form.s form.t).bind fun blocks =>
    (chargesArguments_checkSelection blocks selected (by decide)).bind fun _ =>
      chargesArguments_ok _

end Results

section Refusals

/-- The reason why an exchange was refused, if it was. -/
def refusal? {ε β : Type} : Except ε β → Option ε
  | .ok _ => none
  | .error reason => some reason

/-- An outcome has a reason for refusal exactly if it is this error. -/
theorem refusal?_eq_some {ε β : Type} {outcome : Except ε β} {reason : ε} :
    refusal? outcome = some reason ↔ outcome = .error reason := by
  cases outcome <;> simp [refusal?]

/-- An exchange of a run adds one attempt to the log, refused for the reason that the exchange
has. -/
def LogsRefusals {form attempt ε : Type} (reason : attempt → Option ε)
    (act : ExchangeAction (Logged form attempt) ε) : Prop :=
  ∀ st row upper lower, ∃ a, (act st row upper lower).1.log = st.log ++ [a] ∧
    reason a = (act st row upper lower).2

omit [Scalar α] in
/-- The refusals in the log of a gathering are the one that ended it. -/
theorem LogsRefusals.gather {form attempt ε : Type} {reason : attempt → Option ε}
    {act : ExchangeAction (Logged form attempt) ε} (h : LogsRefusals reason act)
    {blocks : List (Block α)} (htiles : Tiles 0 blocks n) (selected : List Bool) (start : form) :
    (gather act blocks selected ⟨start, []⟩).state.log.filterMap reason =
      (gather act blocks selected ⟨start, []⟩).rejected.toList := by
  obtain ⟨order, -, hrun, -, -⟩ := gather_exchangeRun act blocks selected n ⟨start, []⟩ htiles
  refine hrun.preserves_state (P := fun st rejected => st.log.filterMap reason = rejected.toList)
    (fun st row upper lower hlog => ?_) rfl
  obtain ⟨a, hadd, hreason⟩ := h st row upper lower
  rw [hadd, List.filterMap_append, hlog, ← hreason]
  cases hcase : reason a <;> simp [hcase]

/-- The log of a standard form shows whether the last exchange was refused. -/
theorem logsRefusals_standardAction (tol : Tolerance α) :
    LogsRefusals (fun a : StandardAttempt α => refusal? a.outcome)
      (standardAction (n := n) tol) := by
  intro st row upper lower
  rcases standardAction_cases tol st row upper lower with ⟨e, -, h⟩ | ⟨reason, -, h⟩
  · exact ⟨_, by rw [h], by rw [h]; rfl⟩
  · exact ⟨_, by rw [h], by rw [h]; rfl⟩

/-- The log of a pencil shows whether the last exchange was refused. -/
theorem logsRefusals_pencilAction (tol : Tolerance α) :
    LogsRefusals (fun a : PencilAttempt α => refusal? a.outcome) (pencilAction (n := n) tol) := by
  intro st row upper lower
  rcases pencilAction_cases tol st row upper lower with ⟨e, -, h⟩ | ⟨reason, -, h⟩
  · exact ⟨_, by rw [h], by rw [h]; rfl⟩
  · exact ⟨_, by rw [h], by rw [h]; rfl⟩

/-- The refusals in the log of a standard reordering are the reported one. -/
theorem StandardForm.reorder_refusals {form : StandardForm n α} {selected : List Bool}
    {r : Reordering (StandardForm n α) (StandardAttempt α) (Eigenvalues n α) (FormError α)}
    (h : form.reorder tol selected = .ok r) :
    r.log.filterMap (fun a => refusal? a.outcome) = r.rejected.toList := by
  obtain ⟨blocks, count, hblocks, -, rfl⟩ := StandardForm.reorder_eq_ok.mp h
  exact (logsRefusals_standardAction tol).gather (tiles_of_diagonalBlocks hblocks) selected form

/-- The refusals in the log of a reordering of a pencil are the reported one. -/
theorem PencilForm.reorder_refusals {form : PencilForm n α} {selected : List Bool}
    {r : Reordering (PencilForm n α) (PencilAttempt α) (PencilEigenvalues n α) (FormError α)}
    (h : form.reorder tol selected = .ok r) :
    r.log.filterMap (fun a => refusal? a.outcome) = r.rejected.toList := by
  obtain ⟨blocks, count, hblocks, -, rfl⟩ := PencilForm.reorder_eq_ok.mp h
  exact (logsRefusals_pencilAction tol).gather (tiles_of_pencilBlocks hblocks) selected form

end Refusals

section Factors

/-- A reordering keeps a factor if there is one. -/
theorem StandardForm.isSome_reorder {form : StandardForm n α} {selected : List Bool}
    {r : Reordering (StandardForm n α) (StandardAttempt α) (Eigenvalues n α) (FormError α)}
    (h : form.reorder tol selected = .ok r) : r.form.q.isSome = form.q.isSome := by
  obtain ⟨blocks, count, hblocks, -, rfl⟩ := StandardForm.reorder_eq_ok.mp h
  obtain ⟨order, -, hrun, -, -⟩ := gather_exchangeRun (standardAction tol) blocks selected n
    ⟨form, []⟩ (tiles_of_diagonalBlocks hblocks)
  refine hrun.preserves_state (P := fun st _ => st.form.q.isSome = form.q.isSome)
    (fun st row upper lower hsome => ?_) rfl
  rcases standardAction_cases tol st row upper lower with ⟨e, -, h⟩ | ⟨reason, -, h⟩
  · simpa [h, StandardForm.apply] using hsome
  · simpa [h] using hsome

/-- A reordering keeps both factors if there are any. -/
theorem PencilForm.isSome_reorder {form : PencilForm n α} {selected : List Bool}
    {r : Reordering (PencilForm n α) (PencilAttempt α) (PencilEigenvalues n α) (FormError α)}
    (h : form.reorder tol selected = .ok r) :
    r.form.q.isSome = form.q.isSome ∧ r.form.z.isSome = form.z.isSome := by
  obtain ⟨blocks, count, hblocks, -, rfl⟩ := PencilForm.reorder_eq_ok.mp h
  obtain ⟨order, -, hrun, -, -⟩ := gather_exchangeRun (pencilAction tol) blocks selected n
    ⟨form, []⟩ (tiles_of_pencilBlocks hblocks)
  refine hrun.preserves_state
    (P := fun st _ => st.form.q.isSome = form.q.isSome ∧ st.form.z.isSome = form.z.isSome)
    (fun st row upper lower hsome => ?_) ⟨rfl, rfl⟩
  rcases pencilAction_cases tol st row upper lower with ⟨e, -, h⟩ | ⟨reason, -, h⟩
  · simpa [h, PencilForm.apply] using hsome
  · simpa [h] using hsome

end Factors

end SchurForm
