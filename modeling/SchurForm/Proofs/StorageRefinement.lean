import SchurForm.Binary64
import SchurForm.Proofs.StorageOperations

/-!
# Operations on storage are operations on the matrices in it

With a status that is not negative an operation on flat storage has done what the operation on
matrices does with the matrices that its views hold: the views hold the resulting matrices, the
arrays begin with the resulting flags and eigenvalues, and the status is that of the result. Nothing
else is changed, neither padding nor what follows a view or the front of an array. The view for
eigenvectors, whose width is counted from the flags alone, has exactly the columns of the result.

Lengths and leading dimensions need not be assumed: where they do not suffice, the status is
negative.
-/

namespace SchurForm

namespace Storage

variable {α : Type} [Scalar α] {n : Nat}

section Standard

/-- The buffers of a selection after it was stored. -/
structure SelectBuffers.Stored (before : SelectBuffers α) (n : Nat) (r : Selection)
    (answer : Status × SelectBuffers α) : Prop where
  status : answer.1 = .success
  width : r.selected.length = n
  selected : FrontOverwritten before.selected r.selected answer.2.selected
  count : answer.2.count = r.count
  kept : answer.2 = { before with selected := answer.2.selected, count := answer.2.count }

/-- The buffers of a reordering after its result was stored. -/
structure ReorderBuffers.Stored (before : ReorderBuffers α)
    (r : Reordering (StandardForm n α) (StandardAttempt α) (Eigenvalues n α) (FormError α))
    (answer : Status × ReorderBuffers α) : Prop where
  status : answer.1 = if r.rejected.isNone then .success else .partialReordering
  s : Overwritten before.s before.lds r.form.s answer.2.s
  q : ∃ q, r.form.q = some q ∧ Overwritten before.q before.ldq q answer.2.q
  width : r.selected.length = n
  selected : FrontOverwritten before.selected r.selected answer.2.selected
  real : FrontOverwritten before.real r.eigenvalues.real.toList answer.2.real
  imag : FrontOverwritten before.imag r.eigenvalues.imag.toList answer.2.imag
  kept : answer.2.lds = before.lds ∧ answer.2.ldq = before.ldq

/-- The buffers for eigenvectors after they were stored. -/
structure EigenvectorBuffers.Stored (before : EigenvectorBuffers α) (r : Eigenvectors n α)
    (answer : Status × EigenvectorBuffers α) : Prop where
  status : answer.1 = if r.failed = [] then .success else .partialEigenvectors
  width : r.columns.length = (frontFlags before.selected n).count true
  x : Overwritten before.x before.ldx r.matrix answer.2.x
  kept : answer.2 = { before with x := answer.2.x }

/-- A selection on storage has done what the selection on the matrix in it does. -/
def SelectBuffers.Refines (n : Nat) (test : α × α → Bool) (b : SelectBuffers α) : Prop :=
  ∃ (s : Mat n n α) (r : Selection), Holds b.s b.lds s ∧ selectBy s test = .ok r ∧
    b.Stored n r (selectStandard n test b)

/-- A reordering on storage has done what the reordering of the form in it does. -/
def ReorderBuffers.Refines (tol : Tolerance α) (n : Nat) (b : ReorderBuffers α) : Prop :=
  ∃ (s q : Mat n n α) (r : Reordering (StandardForm n α) (StandardAttempt α) (Eigenvalues n α)
      (FormError α)), Holds b.s b.lds s ∧ Holds b.q b.ldq q ∧
    StandardForm.reorder tol ⟨s, some q⟩ (frontFlags b.selected n) = .ok r ∧
    b.Stored r (reorderStandard tol n b)

/-- Eigenvectors of a form in storage are those of the form. -/
def EigenvectorBuffers.Refines (n : Nat) (b : EigenvectorBuffers α) : Prop :=
  ∃ (s q : Mat n n α) (r : Eigenvectors n α), Holds b.s b.lds s ∧ Holds b.q b.ldq q ∧
    StandardForm.eigenvectors .maxAbs ⟨s, some q⟩ (frontFlags b.selected n) = .ok r ∧
    b.Stored r (eigenvectorsStandard n b)

/-- Buffers that pass their checks hold the matrix that they are read as. -/
theorem SelectBuffers.matrix_eq_ok {b : SelectBuffers α} {s : Mat n n α}
    (h : b.matrix n = .ok s) :
    Fits b.s.size n n b.lds ∧ n ≤ b.selected.size ∧ s = load b.s b.lds n n := by
  simp only [matrix, checked_bind_eq_ok, requireLeadingDimension_eq_ok, requireView_eq_ok,
    requireLength_eq_ok, pure, Except.pure, Except.ok.injEq] at h
  obtain ⟨-, hlds, -, ⟨hs, -⟩, -, hselected, rfl⟩ := h
  exact ⟨⟨hlds, hs⟩, hselected, rfl⟩

/-- Selecting in storage refines selecting in the matrix. -/
theorem SelectBuffers.refines {test : α × α → Bool} {b : SelectBuffers α}
    (h : 0 ≤ (selectStandard n test b).1.code) : b.Refines n test := by
  obtain ⟨r, hr, hsettle⟩ := (SelectBuffers.computes_select n test).settle_of_nonneg
    (SelectBuffers.chargesArguments_compute n test) (by decide) h
  obtain ⟨s, hs, hr⟩ := checked_bind_eq_ok.mp hr
  obtain ⟨hfits, hselected, rfl⟩ := SelectBuffers.matrix_eq_ok hs
  have hwidth := length_selectBy hr
  refine ⟨_, r, holds_load hfits, hr, ?_⟩
  rw [selectStandard, hsettle]
  exact ⟨rfl, hwidth, frontOverwritten_storeFlags (by omega), rfl, rfl⟩

/-- Reordering in storage refines reordering the matrices. -/
theorem ReorderBuffers.refines {tol : Tolerance α} {b : ReorderBuffers α}
    (h : 0 ≤ (reorderStandard tol n b).1.code) : b.Refines tol n := by
  obtain ⟨r, hr, hsettle⟩ := (ReorderBuffers.computes_reorder tol n).settle_of_nonneg
    (ReorderBuffers.chargesArguments_compute tol n) (by decide) h
  obtain ⟨form, hform, hr⟩ := checked_bind_eq_ok.mp hr
  obtain ⟨⟨hs, hq⟩, ⟨hselected, hreal, himag⟩, rfl⟩ := ReorderBuffers.form_eq_ok hform
  obtain ⟨q, hfactor⟩ := Option.isSome_iff_exists.mp (StandardForm.isSome_reorder hr)
  have hwidth : r.selected.length = n := by
    obtain ⟨_, _, -, -, rfl⟩ := StandardForm.reorder_eq_ok.mp hr
    simp [StandardForm.report, markFront]
  refine ⟨_, _, r, holds_load hs, holds_load hq, hr, ?_⟩
  rw [reorderStandard, hsettle]
  refine ⟨rfl, overwritten_store hs _, ⟨q, hfactor, ?_⟩, hwidth,
    frontOverwritten_storeFlags (by omega), frontOverwritten_storeFront hreal _,
    frontOverwritten_storeFront himag _, rfl, rfl⟩
  simpa [hfactor] using overwritten_store hq q

/-- Buffers that pass their checks hold the form that they are read as, and have room for the
vectors. -/
theorem EigenvectorBuffers.form_eq_ok {b : EigenvectorBuffers α} {form : StandardForm n α}
    (h : b.form n = .ok form) :
    (Fits b.s.size n n b.lds ∧ Fits b.q.size n n b.ldq ∧
      Fits b.x.size n ((frontFlags b.selected n).count true) b.ldx) ∧
      form = ⟨load b.s b.lds n n, some (load b.q b.ldq n n)⟩ := by
  simp only [EigenvectorBuffers.form, checked_bind_eq_ok, requireLeadingDimension_eq_ok,
    requireView_eq_ok, requireLength_eq_ok, pure, Except.pure, Except.ok.injEq] at h
  obtain ⟨-, -, -, hlds, -, hldq, -, hldx, -, ⟨hs, -⟩, -, ⟨hq, -⟩, -, ⟨hx, -⟩, rfl⟩ := h
  exact ⟨⟨⟨hlds, hs⟩, ⟨hldq, hq⟩, ⟨hldx, hx⟩⟩, rfl⟩

/-- Computing eigenvectors in storage refines computing them of the matrices. -/
theorem EigenvectorBuffers.refines {b : EigenvectorBuffers α}
    (h : 0 ≤ (eigenvectorsStandard n b).1.code) : b.Refines n := by
  obtain ⟨r, hr, hsettle⟩ := (EigenvectorBuffers.computes_eigenvectors n).settle_of_nonneg
    (EigenvectorBuffers.chargesArguments_compute n) (by decide) h
  obtain ⟨form, hform, hr⟩ := checked_bind_eq_ok.mp hr
  obtain ⟨⟨hs, hq, hx⟩, rfl⟩ := EigenvectorBuffers.form_eq_ok hform
  have hwidth := StandardForm.width_eigenvectors hr
  refine ⟨_, _, r, holds_load hs, holds_load hq, hr, ?_⟩
  rw [eigenvectorsStandard, hsettle]
  refine ⟨?_, hwidth, overwritten_store (hwidth ▸ hx) r.matrix, rfl⟩
  simp [Eigenvectors.isComplete]

end Standard

section Pencil

/-- The buffers of a selection after it was stored. -/
structure PencilSelectBuffers.Stored (before : PencilSelectBuffers α) (n : Nat) (r : Selection)
    (answer : Status × PencilSelectBuffers α) : Prop where
  status : answer.1 = .success
  width : r.selected.length = n
  selected : FrontOverwritten before.selected r.selected answer.2.selected
  count : answer.2.count = r.count
  kept : answer.2 = { before with selected := answer.2.selected, count := answer.2.count }

/-- The buffers of a reordering after its result was stored. -/
structure PencilReorderBuffers.Stored (before : PencilReorderBuffers α)
    (r : Reordering (PencilForm n α) (PencilAttempt α) (PencilEigenvalues n α) (FormError α))
    (answer : Status × PencilReorderBuffers α) : Prop where
  status : answer.1 = if r.rejected.isNone then .success else .partialReordering
  s : Overwritten before.s before.lds r.form.s answer.2.s
  t : Overwritten before.t before.ldt r.form.t answer.2.t
  q : ∃ q, r.form.q = some q ∧ Overwritten before.q before.ldq q answer.2.q
  z : ∃ z, r.form.z = some z ∧ Overwritten before.z before.ldz z answer.2.z
  width : r.selected.length = n
  selected : FrontOverwritten before.selected r.selected answer.2.selected
  real : FrontOverwritten before.real r.eigenvalues.real.toList answer.2.real
  imag : FrontOverwritten before.imag r.eigenvalues.imag.toList answer.2.imag
  beta : FrontOverwritten before.beta r.eigenvalues.beta.toList answer.2.beta
  kept : answer.2.lds = before.lds ∧ answer.2.ldt = before.ldt ∧ answer.2.ldq = before.ldq ∧
    answer.2.ldz = before.ldz

/-- The buffers for eigenvectors after they were stored. -/
structure PencilEigenvectorBuffers.Stored (before : PencilEigenvectorBuffers α)
    (r : Eigenvectors n α) (answer : Status × PencilEigenvectorBuffers α) : Prop where
  status : answer.1 = if r.failed = [] then .success else .partialEigenvectors
  width : r.columns.length = (frontFlags before.selected n).count true
  x : Overwritten before.x before.ldx r.matrix answer.2.x
  kept : answer.2 = { before with x := answer.2.x }

/-- A selection on storage has done what the selection on the pencil in it does. -/
def PencilSelectBuffers.Refines (n : Nat) (test : α × α × α → Bool) (b : PencilSelectBuffers α) :
    Prop :=
  ∃ (s t : Mat n n α) (r : Selection), Holds b.s b.lds s ∧ Holds b.t b.ldt t ∧
    selectPencilBy s t test = .ok r ∧ b.Stored n r (Storage.selectPencil n test b)

/-- A reordering on storage has done what the reordering of the pencil in it does. -/
def PencilReorderBuffers.Refines (tol : Tolerance α) (n : Nat) (b : PencilReorderBuffers α) :
    Prop :=
  ∃ (s t q z : Mat n n α) (r : Reordering (PencilForm n α) (PencilAttempt α)
      (PencilEigenvalues n α) (FormError α)),
    (Holds b.s b.lds s ∧ Holds b.t b.ldt t ∧ Holds b.q b.ldq q ∧ Holds b.z b.ldz z) ∧
    PencilForm.reorder tol ⟨s, t, some q, some z⟩ (frontFlags b.selected n) = .ok r ∧
    b.Stored r (reorderPencil tol n b)

/-- Eigenvectors of a pencil in storage are those of the pencil. -/
def PencilEigenvectorBuffers.Refines (n : Nat) (b : PencilEigenvectorBuffers α) : Prop :=
  ∃ (s t z : Mat n n α) (r : Eigenvectors n α),
    (Holds b.s b.lds s ∧ Holds b.t b.ldt t ∧ Holds b.z b.ldz z) ∧
    PencilForm.eigenvectors .maxAbs ⟨s, t, none, some z⟩ (frontFlags b.selected n) = .ok r ∧
    b.Stored r (eigenvectorsPencil n b)

/-- Buffers that pass their checks hold the two matrices that they are read as. -/
theorem PencilSelectBuffers.matrices_eq_ok {b : PencilSelectBuffers α} {a : Mat n n α × Mat n n α}
    (h : b.matrices n = .ok a) :
    (Fits b.s.size n n b.lds ∧ Fits b.t.size n n b.ldt) ∧ n ≤ b.selected.size ∧
      a = (load b.s b.lds n n, load b.t b.ldt n n) := by
  simp only [matrices, checked_bind_eq_ok, requireLeadingDimension_eq_ok, requireView_eq_ok,
    requireLength_eq_ok, pure, Except.pure, Except.ok.injEq] at h
  obtain ⟨-, hlds, -, hldt, -, ⟨hs, -⟩, -, ⟨ht, -⟩, -, hselected, rfl⟩ := h
  exact ⟨⟨⟨hlds, hs⟩, ⟨hldt, ht⟩⟩, hselected, rfl⟩

/-- Selecting in storage refines selecting in the pencil. -/
theorem PencilSelectBuffers.refines {test : α × α × α → Bool} {b : PencilSelectBuffers α}
    (h : 0 ≤ (Storage.selectPencil n test b).1.code) : b.Refines n test := by
  obtain ⟨r, hr, hsettle⟩ := (PencilSelectBuffers.computes_select n test).settle_of_nonneg
    (PencilSelectBuffers.chargesArguments_compute n test) (by decide) h
  obtain ⟨a, ha, hr⟩ := checked_bind_eq_ok.mp hr
  obtain ⟨⟨hs, ht⟩, hselected, rfl⟩ := PencilSelectBuffers.matrices_eq_ok ha
  have hwidth := length_selectPencilBy hr
  refine ⟨_, _, r, holds_load hs, holds_load ht, hr, ?_⟩
  rw [Storage.selectPencil, hsettle]
  exact ⟨rfl, hwidth, frontOverwritten_storeFlags (by omega), rfl, rfl⟩

/-- Reordering a pencil in storage refines reordering the matrices. -/
theorem PencilReorderBuffers.refines {tol : Tolerance α} {b : PencilReorderBuffers α}
    (h : 0 ≤ (reorderPencil tol n b).1.code) : b.Refines tol n := by
  obtain ⟨r, hr, hsettle⟩ := (PencilReorderBuffers.computes_reorder tol n).settle_of_nonneg
    (PencilReorderBuffers.chargesArguments_compute tol n) (by decide) h
  obtain ⟨form, hform, hr⟩ := checked_bind_eq_ok.mp hr
  obtain ⟨⟨hs, ht, hq, hz⟩, ⟨hselected, hreal, himag, hbeta⟩, rfl⟩ :=
    PencilReorderBuffers.form_eq_ok hform
  obtain ⟨hsomeq, hsomez⟩ := PencilForm.isSome_reorder hr
  obtain ⟨q, hleft⟩ := Option.isSome_iff_exists.mp hsomeq
  obtain ⟨z, hright⟩ := Option.isSome_iff_exists.mp hsomez
  have hwidth : r.selected.length = n := by
    obtain ⟨_, _, -, -, rfl⟩ := PencilForm.reorder_eq_ok.mp hr
    simp [PencilForm.report, markFront]
  refine ⟨_, _, _, _, r, ⟨holds_load hs, holds_load ht, holds_load hq, holds_load hz⟩, hr, ?_⟩
  rw [reorderPencil, hsettle]
  refine ⟨rfl, overwritten_store hs _, overwritten_store ht _, ⟨q, hleft, ?_⟩, ⟨z, hright, ?_⟩,
    hwidth, frontOverwritten_storeFlags (by omega), frontOverwritten_storeFront hreal _,
    frontOverwritten_storeFront himag _, frontOverwritten_storeFront hbeta _, rfl, rfl, rfl, rfl⟩
  · simpa [hleft] using overwritten_store hq q
  · simpa [hright] using overwritten_store hz z

/-- Buffers that pass their checks hold the pencil that they are read as, and have room for the
vectors. -/
theorem PencilEigenvectorBuffers.form_eq_ok {b : PencilEigenvectorBuffers α}
    {form : PencilForm n α} (h : b.form n = .ok form) :
    (Fits b.s.size n n b.lds ∧ Fits b.t.size n n b.ldt ∧ Fits b.z.size n n b.ldz ∧
      Fits b.x.size n ((frontFlags b.selected n).count true) b.ldx) ∧
      form = ⟨load b.s b.lds n n, load b.t b.ldt n n, none, some (load b.z b.ldz n n)⟩ := by
  simp only [PencilEigenvectorBuffers.form, checked_bind_eq_ok, requireLeadingDimension_eq_ok,
    requireView_eq_ok, requireLength_eq_ok, pure, Except.pure, Except.ok.injEq] at h
  obtain ⟨-, -, -, hlds, -, hldt, -, hldz, -, hldx, -, ⟨hs, -⟩, -, ⟨ht, -⟩, -, ⟨hz, -⟩, -,
    ⟨hx, -⟩, rfl⟩ := h
  exact ⟨⟨⟨hlds, hs⟩, ⟨hldt, ht⟩, ⟨hldz, hz⟩, ⟨hldx, hx⟩⟩, rfl⟩

/-- Computing eigenvectors of a pencil in storage refines computing them of the matrices. -/
theorem PencilEigenvectorBuffers.refines {b : PencilEigenvectorBuffers α}
    (h : 0 ≤ (eigenvectorsPencil n b).1.code) : b.Refines n := by
  obtain ⟨r, hr, hsettle⟩ := (PencilEigenvectorBuffers.computes_eigenvectors n).settle_of_nonneg
    (PencilEigenvectorBuffers.chargesArguments_compute n) (by decide) h
  obtain ⟨form, hform, hr⟩ := checked_bind_eq_ok.mp hr
  obtain ⟨⟨hs, ht, hz, hx⟩, rfl⟩ := PencilEigenvectorBuffers.form_eq_ok hform
  have hwidth := PencilForm.width_eigenvectors hr
  refine ⟨_, _, _, r, ⟨holds_load hs, holds_load ht, holds_load hz⟩, hr, ?_⟩
  rw [eigenvectorsPencil, hsettle]
  refine ⟨?_, hwidth, overwritten_store (hwidth ▸ hx) r.matrix, rfl⟩
  simp [Eigenvectors.isComplete]

end Pencil

/-- Operations on storage refine the operations on matrices. Whenever the status is not negative,
the matrices that the views hold have been selected from, reordered or solved for eigenvectors, and
the buffers hold exactly the result, in the positions of the views and in the first entries of the
arrays; all other positions are as they were. -/
theorem storage_refines_matrices (tol : Tolerance α) (n : Nat) (test : α × α → Bool)
    (pencilTest : α × α × α → Bool) :
    (∀ b : SelectBuffers α, 0 ≤ (selectStandard n test b).1.code → b.Refines n test) ∧
    (∀ b : ReorderBuffers α, 0 ≤ (reorderStandard tol n b).1.code → b.Refines tol n) ∧
    (∀ b : EigenvectorBuffers α, 0 ≤ (eigenvectorsStandard n b).1.code → b.Refines n) ∧
    (∀ b : PencilSelectBuffers α, 0 ≤ (Storage.selectPencil n pencilTest b).1.code →
      b.Refines n pencilTest) ∧
    (∀ b : PencilReorderBuffers α, 0 ≤ (reorderPencil tol n b).1.code → b.Refines tol n) ∧
    (∀ b : PencilEigenvectorBuffers α, 0 ≤ (eigenvectorsPencil n b).1.code → b.Refines n) :=
  ⟨fun _ => SelectBuffers.refines, fun _ => ReorderBuffers.refines,
    fun _ => EigenvectorBuffers.refines, fun _ => PencilSelectBuffers.refines,
    fun _ => PencilReorderBuffers.refines, fun _ => PencilEigenvectorBuffers.refines⟩

/-- Two real eigenvalues in storage with padding between the columns and entries behind them. The
second eigenvalue is selected, brought to the front and solved for. -/
theorem storage_refines_matrices_padded :
    let tol : Tolerance Float := Tolerance.standard
    let s : Array Float := #[1, 0, 7, 3, -2, 7, 7]
    let one : Array Float := #[1, 0, 7, 0, 1, 7, 7]
    let selected := #[false, true, true]
    let select : SelectBuffers Float := { s, lds := 3, selected, count := 7 }
    let reorder : ReorderBuffers Float :=
      { selected, s, lds := 3, q := one, ldq := 3, real := #[7, 7, 7], imag := #[7, 7] }
    let solve : EigenvectorBuffers Float :=
      { selected, s, lds := 3, q := one, ldq := 3, x := one, ldx := 4 }
    let pencilSelect : PencilSelectBuffers Float :=
      { s, lds := 3, t := one, ldt := 3, selected, count := 7 }
    let pencilReorder : PencilReorderBuffers Float :=
      { selected, s, lds := 3, t := one, ldt := 3, q := one, ldq := 3, z := one, ldz := 3
        real := #[7, 7, 7], imag := #[7, 7], beta := #[7, 7] }
    let pencilSolve : PencilEigenvectorBuffers Float :=
      { selected, s, lds := 3, t := one, ldt := 3, z := one, ldz := 3, x := one, ldx := 4 }
    (0 ≤ (selectStandard 2 (fun v => v.1 < 0) select).1.code ∧
      select.Refines 2 (fun v => v.1 < 0)) ∧
      (0 ≤ (reorderStandard tol 2 reorder).1.code ∧ reorder.Refines tol 2) ∧
      (0 ≤ (eigenvectorsStandard 2 solve).1.code ∧ solve.Refines 2) ∧
      (0 ≤ (Storage.selectPencil 2 (fun v => v.1 < 0) pencilSelect).1.code ∧
        pencilSelect.Refines 2 (fun v => v.1 < 0)) ∧
      (0 ≤ (reorderPencil tol 2 pencilReorder).1.code ∧ pencilReorder.Refines tol 2) ∧
      0 ≤ (eigenvectorsPencil 2 pencilSolve).1.code ∧ pencilSolve.Refines 2 := by
  intro tol s one selected select reorder solve pencilSelect pencilReorder pencilSolve
  obtain ⟨h₁, h₂, h₃, h₄, h₅, h₆⟩ :=
    storage_refines_matrices tol 2 (fun v => v.1 < 0) (fun v => v.1 < 0)
  have hselect : 0 ≤ (selectStandard 2 (fun v => v.1 < 0) select).1.code := by decide +kernel
  have hreorder : 0 ≤ (reorderStandard tol 2 reorder).1.code := by decide +kernel
  have hsolve : 0 ≤ (eigenvectorsStandard 2 solve).1.code := by decide +kernel
  have hpencilSelect : 0 ≤ (Storage.selectPencil 2 (fun v => v.1 < 0) pencilSelect).1.code := by
    decide +kernel
  have hpencilReorder : 0 ≤ (reorderPencil tol 2 pencilReorder).1.code := by decide +kernel
  have hpencilSolve : 0 ≤ (eigenvectorsPencil 2 pencilSolve).1.code := by decide +kernel
  exact ⟨⟨hselect, h₁ select hselect⟩, ⟨hreorder, h₂ reorder hreorder⟩, ⟨hsolve, h₃ solve hsolve⟩,
    ⟨hpencilSelect, h₄ pencilSelect hpencilSelect⟩,
    ⟨hpencilReorder, h₅ pencilReorder hpencilReorder⟩, hpencilSolve, h₆ pencilSolve hpencilSolve⟩

end Storage

end SchurForm
