import SchurForm.Binary64
import SchurForm.Proofs.StorageOperations
import SchurForm.Proofs.WorkspaceReordering

/-!
# Errors change nothing, refusals are reported

An operation that fails leaves everything as it was: a workspace with its matrices and its
selection, and all buffers of a caller with flat storage, padding included. All of its checks come
before its first write, and the only step behind a write that may fail is an exchange, whose refusal
ends the gathering and is no failure of the operation. A refusal is known from its attempt in the
log, and it always comes out as the reason in the report, and as the status of a partial reordering.
-/

namespace SchurForm

variable {α : Type} [Scalar α] {n : Nat} {tol : Tolerance α}

section Reports

/-- Gathering the selected blocks of a standard form attempts an exchange that is refused. -/
def StandardForm.Refuses (tol : Tolerance α) (form : StandardForm n α) (selected : List Bool)
    (reason : FormError α) : Prop :=
  ∃ blocks count, diagonalBlocks form.s = .ok blocks ∧
    checkSelection blocks selected 2 = .ok count ∧
    ∃ a ∈ (gather (standardAction tol) blocks selected ⟨form, []⟩).state.log,
      a.outcome = .error reason

/-- Gathering the selected blocks of a pencil attempts an exchange that is refused. -/
def PencilForm.Refuses (tol : Tolerance α) (form : PencilForm n α) (selected : List Bool)
    (reason : FormError α) : Prop :=
  ∃ blocks count, pencilBlocks form.s form.t = .ok blocks ∧
    checkSelection blocks selected 2 = .ok count ∧
    ∃ a ∈ (gather (pencilAction tol) blocks selected ⟨form, []⟩).state.log,
      a.outcome = .error reason

omit [Scalar α] in
/-- The reason in a report is that of a refused attempt in the log. -/
theorem rejected_eq_some_iff {attempt : Type} {β : attempt → Type}
    {outcome : ∀ a, Except (FormError α) (β a)} {log : List attempt}
    {rejected : Option (FormError α)}
    (h : log.filterMap (fun a => refusal? (outcome a)) = rejected.toList) {reason : FormError α} :
    rejected = some reason ↔ ∃ a ∈ log, outcome a = .error reason := by
  rw [← Option.mem_toList, ← h]
  simp only [List.mem_filterMap, refusal?_eq_some]

/-- A refused exchange always comes out as the reason in a report. -/
theorem StandardForm.refuses_iff {form : StandardForm n α} {selected : List Bool}
    {reason : FormError α} : form.Refuses tol selected reason ↔
      ∃ r, form.reorder tol selected = .ok r ∧ r.rejected = some reason := by
  constructor
  · rintro ⟨blocks, count, hblocks, hselected, hrefused⟩
    have hr : form.reorder tol selected = .ok _ :=
      StandardForm.reorder_eq_ok.mpr ⟨blocks, count, hblocks, hselected, rfl⟩
    exact ⟨_, hr, (rejected_eq_some_iff (StandardForm.reorder_refusals hr)).mpr hrefused⟩
  · rintro ⟨r, hr, hrejected⟩
    have hrefused := (rejected_eq_some_iff (StandardForm.reorder_refusals hr)).mp hrejected
    obtain ⟨blocks, count, hblocks, hselected, rfl⟩ := StandardForm.reorder_eq_ok.mp hr
    exact ⟨blocks, count, hblocks, hselected, hrefused⟩

/-- A refused exchange always comes out as the reason in a report. -/
theorem PencilForm.refuses_iff {form : PencilForm n α} {selected : List Bool}
    {reason : FormError α} : form.Refuses tol selected reason ↔
      ∃ r, form.reorder tol selected = .ok r ∧ r.rejected = some reason := by
  constructor
  · rintro ⟨blocks, count, hblocks, hselected, hrefused⟩
    have hr : form.reorder tol selected = .ok _ :=
      PencilForm.reorder_eq_ok.mpr ⟨blocks, count, hblocks, hselected, rfl⟩
    exact ⟨_, hr, (rejected_eq_some_iff (PencilForm.reorder_refusals hr)).mpr hrefused⟩
  · rintro ⟨r, hr, hrejected⟩
    have hrefused := (rejected_eq_some_iff (PencilForm.reorder_refusals hr)).mp hrejected
    obtain ⟨blocks, count, hblocks, hselected, rfl⟩ := PencilForm.reorder_eq_ok.mp hr
    exact ⟨blocks, count, hblocks, hselected, hrefused⟩

/-- A report has the status of a partial reordering exactly if it names a refused exchange. -/
theorem ReorderReport.status_eq_partialReordering_iff {eig ε : Type} {r : ReorderReport eig ε} :
    r.status = .partialReordering ↔ ∃ reason, r.rejected = some reason := by
  rw [status, isComplete]
  cases r.rejected <;> simp

end Reports

section Workspaces

/-- A matrix that is not square is charged to the form. -/
theorem chargesArguments_square (name : String) (a : Table α) :
    ChargesArguments (a.square name) := by
  rw [Table.square]
  split
  · exact chargesArguments_ok _
  · exact chargesArguments_error trivial

/-- A matrix of another order is charged to the form. -/
theorem chargesArguments_squareOf (name : String) (n : Nat) (a : Table α) :
    ChargesArguments (a.squareOf name n) := by
  rw [Table.squareOf]
  split
  · split
    · exact chargesArguments_ok _
    · exact chargesArguments_error trivial
  · exact chargesArguments_error trivial

/-- A factor of another order is charged to its argument. -/
theorem chargesArguments_factorOf? {n position : Nat} {name : String} {a : Option (Table α)}
    (h : IsOrdinal position) :
    ChargesArguments (Table.factorOf? n position name a) := by
  rw [Table.factorOf?.eq_def]
  split
  · exact chargesArguments_ok _
  · split
    · exact chargesArguments_ok _
    · exact chargesArguments_error h

/-- Making a standard form of tables charges arguments only. -/
theorem StandardForm.chargesArguments_ofTables (s : Table α) (q : Option (Table α)) :
    ChargesArguments (StandardForm.ofTables s q) :=
  .bind (chargesArguments_square _ s) fun _ =>
    .bind (chargesArguments_factorOf? (by decide)) fun _ => chargesArguments_ok _

/-- Making a pencil of tables charges arguments only. -/
theorem PencilForm.chargesArguments_ofTables (s t : Table α) (q z : Option (Table α)) :
    ChargesArguments (PencilForm.ofTables s t q z) :=
  .bind (chargesArguments_square _ s) fun _ =>
    .bind (chargesArguments_factorOf? (by decide)) fun _ =>
    .bind (chargesArguments_factorOf? (by decide)) fun _ =>
    .bind (chargesArguments_squareOf _ _ t) fun _ => chargesArguments_ok _

/-- Reordering the form in a workspace attempts an exchange that is refused. -/
def Workspace.Refuses (tol : Tolerance α) (w : Workspace α) (reason : FormError α) : Prop :=
  match w.t with
  | none => ∃ (n : Nat) (form : StandardForm n α),
      StandardForm.ofTables w.s w.q = .ok ⟨n, form⟩ ∧ form.Refuses tol w.selected reason
  | some t => ∃ (n : Nat) (form : PencilForm n α),
      PencilForm.ofTables w.s t w.q w.z = .ok ⟨n, form⟩ ∧ form.Refuses tol w.selected reason

/-- What comes of reordering a workspace: an error, with the workspace as it was and no exchange
refused, or a report that names the refused exchange if there is one. -/
inductive Workspace.Reordered (tol : Tolerance α) (w : Workspace α) :
    Except (FormError α) (ReorderSummary α) × Workspace α → Prop where
  | failed (e : FormError α) (charges : e.ChargesArgument)
      (unrefused : ∀ reason, ¬w.Refuses tol reason) : w.Reordered tol (.error e, w)
  | reported (summary : ReorderSummary α) (after : Workspace α)
      (refusal : ∀ reason, summary.rejected = some reason ↔ w.Refuses tol reason)
      (status : summary.status = .partialReordering ↔ ∃ reason, summary.rejected = some reason) :
      w.Reordered tol (.ok summary, after)

/-- A refused exchange always comes out as the reason in the report on a workspace. -/
theorem Workspace.refuses_iff {w : Workspace α} {reason : FormError α} :
    w.Refuses tol reason ↔ ∃ x, w.reordered tol = .ok x ∧ x.1.rejected = some reason := by
  cases hw : w.t with
  | none =>
    simp only [Refuses, hw, StandardForm.refuses_iff, reordered_of_standard hw, checked_bind_eq_ok]
    constructor
    · rintro ⟨n, form, htables, r, hr, hrejected⟩
      exact ⟨_, ⟨⟨n, form⟩, htables, r, hr, rfl⟩, hrejected⟩
    · rintro ⟨x, ⟨⟨n, form⟩, htables, r, hr, hx⟩, hrejected⟩
      obtain rfl := Except.ok.inj hx
      exact ⟨n, form, htables, r, hr, hrejected⟩
  | some t =>
    simp only [Refuses, hw, PencilForm.refuses_iff, reordered_of_pencil hw, checked_bind_eq_ok]
    constructor
    · rintro ⟨n, form, htables, r, hr, hrejected⟩
      exact ⟨_, ⟨⟨n, form⟩, htables, r, hr, rfl⟩, hrejected⟩
    · rintro ⟨x, ⟨⟨n, form⟩, htables, r, hr, hx⟩, hrejected⟩
      obtain rfl := Except.ok.inj hx
      exact ⟨n, form, htables, r, hr, hrejected⟩

/-- Reordering the form in a workspace fails with errors that charge an argument. -/
theorem Workspace.chargesArguments_reordered (tol : Tolerance α) (w : Workspace α) :
    ChargesArguments (w.reordered tol) := by
  cases hw : w.t with
  | none =>
    rw [reordered_of_standard hw]
    exact (StandardForm.chargesArguments_ofTables w.s w.q).bind fun f =>
      (f.2.chargesArguments_reorder w.selected).bind fun _ => chargesArguments_ok _
  | some t =>
    rw [reordered_of_pencil hw]
    exact (PencilForm.chargesArguments_ofTables w.s t w.q w.z).bind fun f =>
      (f.2.chargesArguments_reorder w.selected).bind fun _ => chargesArguments_ok _

/-- Reordering a workspace leaves it as it was or reports. -/
theorem Workspace.reordered_reorder (tol : Tolerance α) (w : Workspace α) :
    w.Reordered tol ((Workspace.reorder tol).run w) := by
  cases hx : w.reordered tol with
  | error e =>
    rw [run_reorder_error hx]
    refine .failed e (chargesArguments_reordered tol w e hx) fun reason hrefused => ?_
    obtain ⟨x, hok, -⟩ := refuses_iff.mp hrefused
    rw [hx] at hok
    nomatch hok
  | ok x =>
    rw [run_reorder hx]
    refine .reported x.1 x.2 (fun reason => ?_) ReorderReport.status_eq_partialReordering_iff
    rw [refuses_iff]
    constructor
    · exact fun hrejected => ⟨x, hx, hrejected⟩
    · rintro ⟨y, hy, hrejected⟩
      obtain rfl := Except.ok.inj (hx.symm.trans hy)
      exact hrejected

end Workspaces

namespace Storage

section Buffers

variable {β buffers : Type} {operation : Operation α buffers Status}

/-- An operation on storage is atomic: with a negative status all buffers are as they were. -/
def Atomic (operation : buffers → Status × buffers) : Prop :=
  ∀ before, (operation before).1.code < 0 → (operation before).2 = before

omit [Scalar α] in
/-- The status of a partial reordering stands for the reason in a report. -/
theorem Computes.settle_eq_partialReordering_iff {form attempt eig : Type}
    {compute : buffers → Except (FormError α) (Reordering form attempt eig (FormError α))}
    {write : buffers → Reordering form attempt eig (FormError α) → buffers} {matrixPosition : Nat}
    (h : Computes operation compute write fun r => r.status)
    (hcharges : ∀ b, ChargesArguments (compute b)) (hmatrix : IsOrdinal matrixPosition)
    {b : buffers} : (settle matrixPosition operation b).1 = .partialReordering ↔
      ∃ reason r, compute b = .ok r ∧ r.rejected = some reason := by
  cases hcompute : compute b with
  | ok r =>
    rw [settle, (h b).ok hcompute]
    simpa using ReorderReport.status_eq_partialReordering_iff
  | error e =>
    rw [settle, (h b).error hcompute]
    have hneg := (hcharges b e hcompute).code_neg hmatrix
    have hcode : e.status matrixPosition ≠ .partialReordering := fun heq => by
      rw [heq] at hneg
      exact absurd hneg (by decide)
    simpa using hcode

/-- Reordering the form in the buffers attempts an exchange that is refused. -/
def ReorderBuffers.Refuses (tol : Tolerance α) (n : Nat) (b : ReorderBuffers α)
    (reason : FormError α) : Prop :=
  ∃ form, b.form n = .ok form ∧ form.Refuses tol (frontFlags b.selected n) reason

/-- Reordering the pencil in the buffers attempts an exchange that is refused. -/
def PencilReorderBuffers.Refuses (tol : Tolerance α) (n : Nat) (b : PencilReorderBuffers α)
    (reason : FormError α) : Prop :=
  ∃ form, b.form n = .ok form ∧ form.Refuses tol (frontFlags b.selected n) reason

/-- A reordering in storage is refused exactly if the reordering of the matrices reports a refusal.
-/
theorem ReorderBuffers.refuses_iff {b : ReorderBuffers α} {reason : FormError α} :
    b.Refuses tol n reason ↔ ∃ r, b.compute tol n = .ok r ∧ r.rejected = some reason := by
  simp only [Refuses, compute, StandardForm.refuses_iff, checked_bind_eq_ok]
  constructor
  · rintro ⟨form, hform, r, hr, hrejected⟩
    exact ⟨r, ⟨form, hform, hr⟩, hrejected⟩
  · rintro ⟨r, ⟨form, hform, hr⟩, hrejected⟩
    exact ⟨form, hform, r, hr, hrejected⟩

/-- A reordering of a pencil in storage is refused exactly if the reordering of the matrices reports
a refusal. -/
theorem PencilReorderBuffers.refuses_iff {b : PencilReorderBuffers α} {reason : FormError α} :
    b.Refuses tol n reason ↔ ∃ r, b.compute tol n = .ok r ∧ r.rejected = some reason := by
  simp only [Refuses, compute, PencilForm.refuses_iff, checked_bind_eq_ok]
  constructor
  · rintro ⟨form, hform, r, hr, hrejected⟩
    exact ⟨r, ⟨form, hform, hr⟩, hrejected⟩
  · rintro ⟨r, ⟨form, hform, hr⟩, hrejected⟩
    exact ⟨form, hform, r, hr, hrejected⟩

end Buffers

end Storage

open Storage

/-- Errors change nothing, and refusals are no errors. A workspace that could not be reordered is as
it was, and no exchange was refused on the way; else the report names the refused exchange, if there
was one, and has the status of a partial reordering exactly then. The same holds of reordering
matrices of known order. An operation on storage with a negative status leaves all buffers as they
were, and a reordering has the status of a partial one exactly if an exchange was refused. -/
theorem errors_atomic (tol : Tolerance α) (n : Nat) (test : α × α → Bool)
    (pencilTest : α × α × α → Bool) :
    (∀ (w after : Workspace α) (e : FormError α),
      (Workspace.reorder tol).run w = (.error e, after) →
        after = w ∧ ¬e.RefusesExchange ∧ ∀ reason, ¬w.Refuses tol reason) ∧
    (∀ (w after : Workspace α) (summary : ReorderSummary α),
      (Workspace.reorder tol).run w = (.ok summary, after) →
        (∀ reason, summary.rejected = some reason ↔ w.Refuses tol reason) ∧
        (summary.status = .partialReordering ↔ ∃ reason, w.Refuses tol reason)) ∧
    (∀ (form : StandardForm n α) (selected : List Bool) (reason : FormError α),
      form.Refuses tol selected reason ↔
        ∃ r, form.reorder tol selected = .ok r ∧ r.rejected = some reason) ∧
    (∀ (form : PencilForm n α) (selected : List Bool) (reason : FormError α),
      form.Refuses tol selected reason ↔
        ∃ r, form.reorder tol selected = .ok r ∧ r.rejected = some reason) ∧
    Atomic (selectStandard n test) ∧ Atomic (reorderStandard tol n) ∧
    Atomic (eigenvectorsStandard (α := α) n) ∧ Atomic (Storage.selectPencil n pencilTest) ∧
    Atomic (reorderPencil tol n) ∧ Atomic (eigenvectorsPencil (α := α) n) ∧
    (∀ b : ReorderBuffers α, (reorderStandard tol n b).1 = .partialReordering ↔
      ∃ reason, b.Refuses tol n reason) ∧
    (∀ b : PencilReorderBuffers α, (reorderPencil tol n b).1 = .partialReordering ↔
      ∃ reason, b.Refuses tol n reason) := by
  refine ⟨fun w after e h => ?_, fun w after summary h => ?_, fun _ _ _ => StandardForm.refuses_iff,
    fun _ _ _ => PencilForm.refuses_iff, ?_, ?_, ?_, ?_, ?_, ?_, fun b => ?_, fun b => ?_⟩
  · have hreordered := h ▸ Workspace.reordered_reorder tol w
    cases hreordered with
    | failed _ charges unrefused => exact ⟨rfl, charges.not_refusesExchange, unrefused⟩
  · have hreordered := h ▸ Workspace.reordered_reorder tol w
    cases hreordered with
    | reported _ _ refusal status => exact ⟨refusal, by simp only [status, refusal]⟩
  · exact fun _ => (SelectBuffers.computes_select n test).settle_of_neg fun _ => by decide
  · exact fun _ =>
      (ReorderBuffers.computes_reorder tol n).settle_of_neg fun r => r.code_status_nonneg
  · exact fun _ => (EigenvectorBuffers.computes_eigenvectors n).settle_of_neg
      Eigenvectors.code_status_nonneg
  · exact fun _ =>
      (PencilSelectBuffers.computes_select n pencilTest).settle_of_neg fun _ => by decide
  · exact fun _ =>
      (PencilReorderBuffers.computes_reorder tol n).settle_of_neg fun r => r.code_status_nonneg
  · exact fun _ => (PencilEigenvectorBuffers.computes_eigenvectors n).settle_of_neg
      Eigenvectors.code_status_nonneg
  · simp only [ReorderBuffers.refuses_iff]
    exact (ReorderBuffers.computes_reorder tol n).settle_eq_partialReordering_iff
      (ReorderBuffers.chargesArguments_compute tol n) (by decide)
  · simp only [PencilReorderBuffers.refuses_iff]
    exact (PencilReorderBuffers.computes_reorder tol n).settle_eq_partialReordering_iff
      (PencilReorderBuffers.chargesArguments_compute tol n) (by decide)

/-- A conjugate pair above a real eigenvalue of nearly the same size, coupled so strongly that the
exchange is refused. Asking for a fourth eigenvalue is an error. -/
theorem errors_atomic_coupled :
    let tol : Tolerance Float := ⟨1, 0⟩
    let b : ReorderBuffers Float :=
      { selected := #[false, false, true]
        s := #[1, -4, 0, 1, 1, 0, 4000000, -4000000, 1], lds := 3
        q := #[1, 0, 0, 0, 1, 0, 0, 0, 1], ldq := 3
        real := #[0, 0, 0], imag := #[0, 0, 0] }
    let w : Workspace Float :=
      { s := .ofFn 2 3 fun _ _ => 0, t := none, q := none, z := none, selected := [] }
    let fault : FormError Float := .shape (.notSquare "S" 2 3)
    (Workspace.reorder tol).run w = (.error fault, w) ∧ ¬fault.RefusesExchange ∧
      (reorderStandard tol 4 b).1.code < 0 ∧ (reorderStandard tol 4 b).2 = b ∧
      ∃ reason, b.Refuses tol 3 reason := by
  intro tol b w fault
  have hrun : (Workspace.reorder tol).run w = (.error fault, w) := rfl
  have hneg : (reorderStandard tol 4 b).1.code < 0 := by decide +kernel
  have hpartial : (reorderStandard tol 3 b).1 = .partialReordering := by decide +kernel
  obtain ⟨herror, -, -, -, -, hatomic, -⟩ :=
    errors_atomic tol 4 (fun _ => true) (fun _ => true)
  obtain ⟨-, -, -, -, -, -, -, -, -, -, hrefused, -⟩ :=
    errors_atomic tol 3 (fun _ => true) (fun _ => true)
  exact ⟨hrun, (herror w w fault hrun).2.1, hneg, hatomic b hneg, (hrefused b).mp hpartial⟩

end SchurForm
