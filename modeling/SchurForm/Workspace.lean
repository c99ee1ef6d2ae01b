import SchurForm.Eigenvector.Pencil
import SchurForm.Eigenvector.Standard
import SchurForm.Reordering.InPlace

/-!
# A form in place

A workspace holds the matrices of a standard form or of a pencil, of dimensions that are known only
as values, together with a selection. Operations change the workspace; one that fails leaves behind
what it had changed by then.
-/

namespace SchurForm

/-- The matrices of a form and a selection of its eigenvalues. A second matrix makes it a pencil. -/
structure Workspace (α : Type) where
  s : Table α
  t : Option (Table α)
  q : Option (Table α)
  z : Option (Table α)
  selected : List Bool

/-- An operation on a workspace. -/
abbrev Work (α : Type) := Operation α (Workspace α)

/-- The eigenvalues of a form of unknown order. There are denominators for a pencil. -/
structure EigenvalueLists (α : Type) where
  real : List α
  imag : List α
  beta : Option (List α)

/-- What a reordering of a workspace answers. -/
abbrev ReorderSummary (α : Type) := ReorderReport (EigenvalueLists α) (FormError α)

/-- Eigenvectors of a form of unknown order. -/
structure EigenvectorTable (α : Type) where
  vectors : Table α
  /-- The first rows of the selected blocks without a vector. -/
  failed : List Nat

variable {α : Type} [Scalar α]

/-- The eigenvalues of a standard form as lists, without denominators. -/
def Eigenvalues.toLists {n : Nat} (e : Eigenvalues n α) : EigenvalueLists α :=
  ⟨e.real.toList, e.imag.toList, none⟩

/-- The eigenvalues of a pencil as lists. -/
def PencilEigenvalues.toLists {n : Nat} (e : PencilEigenvalues n α) : EigenvalueLists α :=
  ⟨e.real.toList, e.imag.toList, some e.beta.toList⟩

namespace Workspace

/-- The standard form of order `n` in a workspace. -/
def standardView (n : Nat) : StandardView n α (Workspace α) where
  selected w := w.selected
  setSelected flags w := { w with selected := flags }
  s w := w.s.leading n n
  setS a w := { w with s := .ofMat a }
  q w := w.q.map fun q => q.leading n n
  setQ a w := { w with q := some (.ofMat a) }

/-- The pencil of order `n` in a workspace. -/
def pencilView (n : Nat) : PencilView n α (Workspace α) where
  selected w := w.selected
  setSelected flags w := { w with selected := flags }
  s w := w.s.leading n n
  setS a w := { w with s := .ofMat a }
  t w := (w.t.map fun t => t.leading n n).getD .zero
  setT a w := { w with t := some (.ofMat a) }
  q w := w.q.map fun q => q.leading n n
  setQ a w := { w with q := some (.ofMat a) }
  z w := w.z.map fun z => z.leading n n
  setZ a w := { w with z := some (.ofMat a) }

/-- Move the selected eigenvalues to the front. The selection then marks those that got there. -/
def reorder (tol : Tolerance α) : Work α (ReorderSummary α) := do
  let w ← get
  match w.t with
  | none => do
    let ⟨n, _⟩ ← StandardForm.ofTables w.s w.q
    let r ← (standardView n).reorder tol
    return r.withEigenvalues r.eigenvalues.toLists
  | some t => do
    let ⟨n, _⟩ ← PencilForm.ofTables w.s t w.q w.z
    let r ← (pencilView n).reorder tol
    return r.withEigenvalues r.eigenvalues.toLists

/-- Exchange the adjacent blocks of order `upper` and `lower` that start in the given row. All
matrices are taken to have the order of the first one. -/
def exchange (tol : Tolerance α) (row upper lower : Nat) : Work α Unit := do
  let w ← get
  match w.t with
  | none => (standardView w.s.rows).exchange tol row upper lower
  | some _ => (pencilView w.s.rows).exchange tol row upper lower

/-- The eigenvectors of the selected eigenvalues, multiplied by a factor if one is given: the factor
of a standard form, or the right factor of a pencil. -/
def eigenvectors (norm : Normalization) (factor : Option (Table α)) (w : Workspace α) :
    Except (FormError α) (EigenvectorTable α) :=
  match w.t with
  | none => do
    let ⟨_, form⟩ ← StandardForm.ofTables w.s factor
    let x ← form.eigenvectors norm w.selected
    return ⟨.ofMat x.matrix, x.failed⟩
  | some t => do
    let ⟨_, form⟩ ← PencilForm.ofRightTables w.s t factor
    let x ← form.eigenvectors norm w.selected
    return ⟨.ofMat x.matrix, x.failed⟩

/-- The blocks of the form. -/
def diagonalBlocks (w : Workspace α) : Except (FormError α) (List (Block α)) :=
  match w.t with
  | none => w.s.diagonalBlocks
  | some t => w.s.pencilBlocks t

/-- The factor that eigenvectors of the form are multiplied by. -/
def factor (w : Workspace α) : Option (Table α) :=
  match w.t with
  | none => w.q
  | some _ => w.z

end Workspace

end SchurForm
