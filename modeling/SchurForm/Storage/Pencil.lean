import SchurForm.Eigenvector.Pencil
import SchurForm.Storage.Standard

/-!
# Pencils in flat storage

The operations on pencils for callers with column-major storage, by the same conventions as those on
standard forms.
-/

namespace SchurForm

namespace Storage

variable {α : Type} [Scalar α]

/-- The arguments of a selection: `n`, `s`, `lds`, `t`, `ldt`, the predicate, `selected`, the
count. -/
structure PencilSelectBuffers (α : Type) where
  s : Array α
  lds : Nat
  t : Array α
  ldt : Nat
  selected : Array Bool
  count : Nat

/-- The arguments of a reordering: `n`, `selected`, `s`, `lds`, `t`, `ldt`, `q`, `ldq`, `z`, `ldz`,
`real`, `imag`, `beta`. -/
structure PencilReorderBuffers (α : Type) where
  selected : Array Bool
  s : Array α
  lds : Nat
  t : Array α
  ldt : Nat
  q : Array α
  ldq : Nat
  z : Array α
  ldz : Nat
  real : Array α
  imag : Array α
  beta : Array α

/-- The arguments for eigenvectors: `n`, `selected`, `s`, `lds`, `t`, `ldt`, `z`, `ldz`, `x`,
`ldx`. -/
structure PencilEigenvectorBuffers (α : Type) where
  selected : Array Bool
  s : Array α
  lds : Nat
  t : Array α
  ldt : Nat
  z : Array α
  ldz : Nat
  x : Array α
  ldx : Nat

/-- The matrices in the buffers of a selection. -/
def PencilSelectBuffers.matrices (b : PencilSelectBuffers α) (n : Nat) :
    Except (FormError α) (Mat n n α × Mat n n α) := do
  requireLeadingDimension n b.lds 3 "ldS"
  requireLeadingDimension n b.ldt 5 "ldT"
  requireView b.s.size n n b.lds 2 "S" false
  requireView b.t.size n n b.ldt 4 "T" false
  requireLength b.selected.size n 7 "selected"
  return (load b.s b.lds n n, load b.t b.ldt n n)

/-- The pencil in the buffers of a reordering. -/
def PencilReorderBuffers.form (b : PencilReorderBuffers α) (n : Nat) :
    Except (FormError α) (PencilForm n α) := do
  requireLength b.selected.size n 2 "selected"
  requireLeadingDimension n b.lds 4 "ldS"
  requireLeadingDimension n b.ldt 6 "ldT"
  requireLeadingDimension n b.ldq 8 "ldQ"
  requireLeadingDimension n b.ldz 10 "ldZ"
  requireLength b.real.size n 11 "real"
  requireLength b.imag.size n 12 "imag"
  requireLength b.beta.size n 13 "beta"
  requireView b.s.size n n b.lds 3 "S" true
  requireView b.t.size n n b.ldt 5 "T" true
  requireView b.q.size n n b.ldq 7 "Q" true
  requireView b.z.size n n b.ldz 9 "Z" true
  return {
    s := load b.s b.lds n n, t := load b.t b.ldt n n
    q := some (load b.q b.ldq n n), z := some (load b.z b.ldz n n) }

/-- The pencil in the buffers for eigenvectors, which have a column for every flag that is set. -/
def PencilEigenvectorBuffers.form (b : PencilEigenvectorBuffers α) (n : Nat) :
    Except (FormError α) (PencilForm n α) := do
  requireLength b.selected.size n 2 "selected"
  requireLeadingDimension n b.lds 4 "ldS"
  requireLeadingDimension n b.ldt 6 "ldT"
  requireLeadingDimension n b.ldz 8 "ldZ"
  requireLeadingDimension n b.ldx 10 "ldX"
  requireView b.s.size n n b.lds 3 "S" false
  requireView b.t.size n n b.ldt 5 "T" false
  requireView b.z.size n n b.ldz 7 "Z" false
  requireView b.x.size n ((frontFlags b.selected n).count true) b.ldx 9 "X" true
  return {
    s := load b.s b.lds n n, t := load b.t b.ldt n n
    q := none, z := some (load b.z b.ldz n n) }

/-- The pencil in the buffers of a reordering, and the selection, as views of these buffers. -/
def PencilReorderBuffers.view (n : Nat) : PencilView n α (PencilReorderBuffers α) where
  selected b := frontFlags b.selected n
  setSelected flags b := { b with selected := storeFlags b.selected flags }
  s b := load b.s b.lds n n
  setS a b := { b with s := store b.s b.lds a }
  t b := load b.t b.ldt n n
  setT a b := { b with t := store b.t b.ldt a }
  q b := some (load b.q b.ldq n n)
  setQ a b := { b with q := store b.q b.ldq a }
  z b := some (load b.z b.ldz n n)
  setZ a b := { b with z := store b.z b.ldz a }

/-- Mark the eigenvalues that a predicate accepts, and count them. -/
def PencilSelectBuffers.select (n : Nat) (predicate : α × α × α → Bool) :
    Operation α (PencilSelectBuffers α) Status := do
  let (s, t) ← (← get).matrices n
  let selection ← selectPencilBy s t predicate
  modify fun b => { b with selected := storeFlags b.selected selection.selected }
  modify fun b => { b with count := selection.count }
  return .success

/-- Check the buffers, reorder the pencil in them in place and store its eigenvalues. -/
def PencilReorderBuffers.reorder (tol : Tolerance α) (n : Nat) :
    Operation α (PencilReorderBuffers α) Status := do
  let _ ← (← get).form n
  let report ← (PencilReorderBuffers.view n).reorder tol
  modify fun b => { b with real := storeFront b.real report.eigenvalues.real }
  modify fun b => { b with imag := storeFront b.imag report.eigenvalues.imag }
  modify fun b => { b with beta := storeFront b.beta report.eigenvalues.beta }
  return report.status

/-- Store the eigenvectors of the pencil in the buffers. -/
def PencilEigenvectorBuffers.eigenvectors (n : Nat) :
    Operation α (PencilEigenvectorBuffers α) Status := do
  let b ← get
  let form ← b.form n
  let result ← form.eigenvectors .maxAbs (frontFlags b.selected n)
  modify fun b => { b with x := store b.x b.ldx result.matrix }
  return if result.isComplete then .success else .partialEigenvectors

/-- Mark the eigenvalues that a predicate accepts. -/
def selectPencil (n : Nat) (predicate : α × α × α → Bool) :
    PencilSelectBuffers α → Status × PencilSelectBuffers α :=
  settle 2 (PencilSelectBuffers.select n predicate)

/-- Move the selected eigenvalues to the front. -/
def reorderPencil (tol : Tolerance α) (n : Nat) :
    PencilReorderBuffers α → Status × PencilReorderBuffers α :=
  settle 3 (PencilReorderBuffers.reorder tol n)

/-- Compute the back-transformed eigenvectors of the selected eigenvalues. -/
def eigenvectorsPencil (n : Nat) :
    PencilEigenvectorBuffers α → Status × PencilEigenvectorBuffers α :=
  settle 3 (PencilEigenvectorBuffers.eigenvectors n)

end Storage

end SchurForm
