import SchurForm.Eigenvector.Standard
import SchurForm.Reordering.InPlace
import SchurForm.Storage

/-!
# Standard forms in flat storage

The operations on standard forms for callers with column-major storage. Each changes the buffers of
the caller, one after the other, and answers with a status. A negative code names the one-based
ordinal of an invalid argument; the ordinals count the parameters in the order of the fields, each
matrix followed by its leading dimension, the order `n` being the first parameter.
-/

namespace SchurForm

namespace Storage

variable {α : Type} [Scalar α]

/-- The arguments of a selection: `n`, `s`, `lds`, the predicate, `selected`, the count. -/
structure SelectBuffers (α : Type) where
  s : Array α
  lds : Nat
  selected : Array Bool
  count : Nat

/-- The arguments of a reordering: `n`, `selected`, `s`, `lds`, `q`, `ldq`, `real`, `imag`. -/
structure ReorderBuffers (α : Type) where
  selected : Array Bool
  s : Array α
  lds : Nat
  q : Array α
  ldq : Nat
  real : Array α
  imag : Array α

/-- The arguments for eigenvectors: `n`, `selected`, `s`, `lds`, `q`, `ldq`, `x`, `ldx`. -/
structure EigenvectorBuffers (α : Type) where
  selected : Array Bool
  s : Array α
  lds : Nat
  q : Array α
  ldq : Nat
  x : Array α
  ldx : Nat

/-- The status of an operation and the buffers that it leaves. Faults found inside a matrix are
charged to `matrixPosition`. -/
def settle {buffers : Type} (matrixPosition : Nat) (operation : Operation α buffers Status)
    (before : buffers) : Status × buffers :=
  match operation.run before with
  | (.ok status, after) => (status, after)
  | (.error e, after) => (e.status matrixPosition, after)

/-- The matrix in the buffers of a selection. -/
def SelectBuffers.matrix (b : SelectBuffers α) (n : Nat) : Except (FormError α) (Mat n n α) := do
  requireLeadingDimension n b.lds 3 "ldS"
  requireView b.s.size n n b.lds 2 "S" false
  requireLength b.selected.size n 5 "selected"
  return load b.s b.lds n n

/-- The form in the buffers of a reordering. -/
def ReorderBuffers.form (b : ReorderBuffers α) (n : Nat) :
    Except (FormError α) (StandardForm n α) := do
  requireLength b.selected.size n 2 "selected"
  requireLeadingDimension n b.lds 4 "ldS"
  requireLeadingDimension n b.ldq 6 "ldQ"
  requireLength b.real.size n 7 "real"
  requireLength b.imag.size n 8 "imag"
  requireView b.s.size n n b.lds 3 "S" true
  requireView b.q.size n n b.ldq 5 "Q" true
  return { s := load b.s b.lds n n, q := some (load b.q b.ldq n n) }

/-- The first flags of a buffer. -/
def frontFlags (selected : Array Bool) (n : Nat) : List Bool :=
  selected.toList.take n

/-- The form in the buffers for eigenvectors, which have a column for every flag that is set. -/
def EigenvectorBuffers.form (b : EigenvectorBuffers α) (n : Nat) :
    Except (FormError α) (StandardForm n α) := do
  requireLength b.selected.size n 2 "selected"
  requireLeadingDimension n b.lds 4 "ldS"
  requireLeadingDimension n b.ldq 6 "ldQ"
  requireLeadingDimension n b.ldx 8 "ldX"
  requireView b.s.size n n b.lds 3 "S" false
  requireView b.q.size n n b.ldq 5 "Q" false
  requireView b.x.size n ((frontFlags b.selected n).count true) b.ldx 7 "X" true
  return { s := load b.s b.lds n n, q := some (load b.q b.ldq n n) }

/-- The form in the buffers of a reordering, and the selection, as views of these buffers. -/
def ReorderBuffers.view (n : Nat) : StandardView n α (ReorderBuffers α) where
  selected b := frontFlags b.selected n
  setSelected flags b := { b with selected := storeFlags b.selected flags }
  s b := load b.s b.lds n n
  setS a b := { b with s := store b.s b.lds a }
  q b := some (load b.q b.ldq n n)
  setQ a b := { b with q := store b.q b.ldq a }

/-- Mark the eigenvalues that a predicate accepts, and count them. -/
def SelectBuffers.select (n : Nat) (predicate : α × α → Bool) :
    Operation α (SelectBuffers α) Status := do
  let s ← (← get).matrix n
  let selection ← selectBy s predicate
  modify fun b => { b with selected := storeFlags b.selected selection.selected }
  modify fun b => { b with count := selection.count }
  return .success

/-- Check the buffers, reorder the form in them in place and store its eigenvalues. -/
def ReorderBuffers.reorder (tol : Tolerance α) (n : Nat) :
    Operation α (ReorderBuffers α) Status := do
  let _ ← (← get).form n
  let report ← (ReorderBuffers.view n).reorder tol
  modify fun b => { b with real := storeFront b.real report.eigenvalues.real }
  modify fun b => { b with imag := storeFront b.imag report.eigenvalues.imag }
  return report.status

/-- Store the eigenvectors of the form in the buffers. -/
def EigenvectorBuffers.eigenvectors (n : Nat) :
    Operation α (EigenvectorBuffers α) Status := do
  let b ← get
  let form ← b.form n
  let result ← form.eigenvectors .maxAbs (frontFlags b.selected n)
  modify fun b => { b with x := store b.x b.ldx result.matrix }
  return if result.isComplete then .success else .partialEigenvectors

/-- Mark the eigenvalues that a predicate accepts. -/
def selectStandard (n : Nat) (predicate : α × α → Bool) :
    SelectBuffers α → Status × SelectBuffers α :=
  settle 2 (SelectBuffers.select n predicate)

/-- Move the selected eigenvalues to the front. -/
def reorderStandard (tol : Tolerance α) (n : Nat) :
    ReorderBuffers α → Status × ReorderBuffers α :=
  settle 3 (ReorderBuffers.reorder tol n)

/-- Compute the back-transformed eigenvectors of the selected eigenvalues. -/
def eigenvectorsStandard (n : Nat) : EigenvectorBuffers α → Status × EigenvectorBuffers α :=
  settle 3 (EigenvectorBuffers.eigenvectors n)

end Storage

end SchurForm
