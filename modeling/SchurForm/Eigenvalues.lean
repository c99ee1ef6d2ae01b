import SchurForm.Block
import SchurForm.Mat

/-!
# Eigenvalue lists

The eigenvalues of a classified form, one entry for every diagonal position. A conjugate pair takes
two positions, the eigenvalue with positive imaginary part first. The eigenvalues of a pencil are
kept as `(real + i * imag) / beta` with `beta ≥ 0`; an infinite eigenvalue has `beta = 0`.
-/

namespace SchurForm

/-- The eigenvalues of a standard form. -/
structure Eigenvalues (n : Nat) (α : Type) where
  real : Vec n α
  imag : Vec n α

/-- The eigenvalues of a pencil. -/
structure PencilEigenvalues (n : Nat) (α : Type) where
  real : Vec n α
  imag : Vec n α
  beta : Vec n α

variable {α : Type} [Scalar α]

open Scalar

namespace Block

/-- The eigenvalue of a standard form in a row that the block covers. -/
def eigenvalueAt {n : Nat} (s : Mat n n α) (row : Nat) : Block α → α × α
  | .real k => (s.get k k, 0)
  | .pair k re im => (re, if row = k then im else -im)

/-- The eigenvalue of a pencil in a row that the block covers, as numerator parts and `beta`. A
negative diagonal entry of `t` gives its sign to the numerator. -/
def pencilEigenvalueAt {n : Nat} (s t : Mat n n α) (row : Nat) : Block α → α × α × α
  | .real k =>
    let beta := t.get k k
    let unit : α := if beta < 0 then -1 else 1
    (unit * s.get k k, 0, unit * beta)
  | .pair k re im =>
    let beta := abs (t.get row row)
    let unit : α := if row = k then 1 else -1
    (re * beta, unit * im * beta, beta)

end Block

/-- The block that covers a row. -/
def blockAt (blocks : List (Block α)) (row : Nat) : Option (Block α) :=
  blocks.find? fun b => b.covers row

/-- The eigenvalues of a classified standard form. A row outside every block has eigenvalue zero. -/
def eigenvalues {n : Nat} (s : Mat n n α) (blocks : List (Block α)) : Eigenvalues n α :=
  let valueAt (row : Nat) : α × α :=
    match blockAt blocks row with
    | some b => b.eigenvalueAt s row
    | none => (0, 0)
  { real := Vec.ofFn fun row => (valueAt row).1
    imag := Vec.ofFn fun row => (valueAt row).2 }

/-- The eigenvalues of a classified pencil. A row that no block covers has eigenvalue zero over
zero. -/
def pencilEigenvalues {n : Nat} (s t : Mat n n α) (blocks : List (Block α)) :
    PencilEigenvalues n α :=
  let valueAt (row : Nat) : α × α × α :=
    match blockAt blocks row with
    | some b => b.pencilEigenvalueAt s t row
    | none => (0, 0, 0)
  { real := Vec.ofFn fun row => (valueAt row).1
    imag := Vec.ofFn fun row => (valueAt row).2.1
    beta := Vec.ofFn fun row => (valueAt row).2.2 }

end SchurForm
