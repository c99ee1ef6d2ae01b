import SchurForm.Mat

/-!
# Orthonormal completions

The columns of a tall matrix are completed to an orthonormal basis by one reflection for each
column. Each reflection makes the entries of its column below the diagonal zero; a column that
already has zero length there is skipped.
-/

namespace SchurForm

variable {α : Type} [Scalar α]

open Scalar

/-- The reflection `x ↦ x - factor * (w · x) * w`. -/
structure Reflection (m : Nat) (α : Type) where
  w : Vec m α
  factor : α

/-- The reflection that maps column `col` of a matrix, from row `col` on, to a multiple of a
coordinate vector; none if there is nothing to do. -/
def Reflection.ofColumn? {m k : Nat} (a : Mat m k α) (col : Nat) : Option (Reflection m α) :=
  let norm := sqrt (sumRange col m fun r => a.get r col * a.get r col)
  if norm == 0 then none
  else
    let diagonal := a.get col col
    let alpha := if 0 ≤ diagonal then -norm else norm
    let w : Vec m α := Vec.ofFn fun r =>
      if r < col then 0 else if r = col then diagonal - alpha else a.get r col
    let lengthSq := sumRange col m fun r => w.get r * w.get r
    if lengthSq == 0 then none
    else some { w, factor := two / lengthSq }

namespace Reflection

variable {m k : Nat} (h : Reflection m α)

/-- Reflect the columns of a matrix from column `col` on. Rows above `col` stay. -/
def reflectColumns (col : Nat) (a : Mat m k α) : Mat m k α :=
  let dots : Vec k α := Vec.ofFn fun j => sumRange col m fun r => h.w.get r * a.get r j
  Mat.ofFn fun r j =>
    if col ≤ r ∧ col ≤ j then a.get r j - h.factor * dots.get j * h.w.get r else a.get r j

/-- Reflect the rows of a square matrix. Columns left of `col` stay. -/
def reflectRows (col : Nat) (u : Mat m m α) : Mat m m α :=
  let dots : Vec m α := Vec.ofFn fun row => sumRange col m fun r => u.get row r * h.w.get r
  Mat.ofFn fun row r =>
    if col ≤ r then u.get row r - h.factor * dots.get row * h.w.get r else u.get row r

end Reflection

/-- A matrix on its way to triangular form, and the product of the reflections so far. -/
structure Completion (m k : Nat) (α : Type) where
  a : Mat m k α
  u : Mat m m α

/-- Treat one column. -/
def Completion.step {m k : Nat} (st : Completion m k α) (col : Nat) : Completion m k α :=
  match Reflection.ofColumn? st.a col with
  | none => st
  | some h => ⟨h.reflectColumns col st.a, h.reflectRows col st.u⟩

/-- An orthogonal matrix whose leading columns span the columns of `v`. -/
def completeBasis {m k : Nat} (v : Mat m k α) : Mat m m α :=
  ((List.range (min k m)).foldl Completion.step ⟨v, Mat.identity⟩).u

end SchurForm
