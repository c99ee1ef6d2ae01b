import SchurForm.Vec

/-!
# Matrices

A matrix carries its two dimensions in its type and a table of its entries. Entries are read by
plain row and column numbers, and a position outside the matrix reads as zero. Every operation is
given by its entries through `Mat.ofFn`; `get_ofFn` and `Mat.ext_get` say all about the table.

Products are plain left-to-right sums of products.
-/

namespace SchurForm

/-- A dense matrix with `m` rows and `n` columns. -/
structure Mat (m n : Nat) (α : Type) where
  rows : Vector (Vector α n) m

namespace Mat

variable {k l m n : Nat} {α : Type}

/-- The matrix whose entry in row `i` and column `j` is `f i j`. -/
def ofFn (f : Nat → Nat → α) : Mat m n α :=
  ⟨Vector.ofFn fun i => Vector.ofFn fun j => f i.val j.val⟩

/-- The entry in row `i` and column `j`, zero outside the matrix. -/
def get [Zero α] (a : Mat m n α) (i j : Nat) : α :=
  if hi : i < m then if hj : j < n then (a.rows[i])[j] else 0 else 0

/-- The rows in order, each as the list of its entries. -/
def toLists (a : Mat m n α) : List (List α) :=
  a.rows.toList.map Vector.toList

/-- An entry of a tabulated matrix; outside of the matrix it is zero. -/
@[simp] theorem get_ofFn [Zero α] (f : Nat → Nat → α) (i j : Nat) :
    (ofFn f : Mat m n α).get i j = if i < m ∧ j < n then f i j else 0 := by
  unfold get ofFn
  by_cases hi : i < m <;> by_cases hj : j < n <;> simp [hi, hj]

/-- There are only zeros below the last row. -/
theorem get_of_rows_le [Zero α] (a : Mat m n α) {i : Nat} (h : m ≤ i) (j : Nat) :
    a.get i j = 0 := by
  simp [get, Nat.not_lt.mpr h]

/-- There are only zeros behind the last column. -/
theorem get_of_cols_le [Zero α] (a : Mat m n α) (i : Nat) {j : Nat} (h : n ≤ j) :
    a.get i j = 0 := by
  simp [get, Nat.not_lt.mpr h]

/-- Matrices with the same entries are equal. -/
theorem ext_get [Zero α] {a b : Mat m n α} (h : ∀ i < m, ∀ j < n, a.get i j = b.get i j) :
    a = b := by
  cases a with
  | mk x =>
    cases b with
    | mk y =>
      congr 1
      ext i hi j hj
      simpa [get, hi, hj] using h i hi j hj

section Shape

variable [Zero α]

/-- The block of given size whose first entry stands in row `i` and column `j`. -/
def block (a : Mat m n α) (i j : Nat) : Mat k l α :=
  ofFn fun r c => a.get (i + r) (j + c)

/-- Rows become columns. -/
def transpose (a : Mat m n α) : Mat n m α :=
  ofFn fun i j => a.get j i

/-- Apply a function to every entry. -/
def map {β : Type} (f : α → β) (a : Mat m n α) : Mat m n β :=
  ofFn fun i j => f (a.get i j)

/-- The same matrix with zeros in the block whose rows are `i` to `i + k` and columns `j` to
`j + l`, upper ends excluded. -/
def clear (a : Mat m n α) (i k j l : Nat) : Mat m n α :=
  ofFn fun r c => if i ≤ r ∧ r < i + k ∧ j ≤ c ∧ c < j + l then 0 else a.get r c

/-- One column. -/
def column (a : Mat m n α) (j : Nat) : Vec m α :=
  Vec.ofFn fun i => a.get i j

end Shape

open Scalar

variable [Scalar α]

/-- The zero matrix. -/
def zero : Mat m n α :=
  ofFn fun _ _ => 0

/-- The identity matrix. -/
def identity : Mat n n α :=
  ofFn fun i j => if i = j then 1 else 0

/-- The matrix product. -/
def mul (a : Mat m k α) (b : Mat k n α) : Mat m n α :=
  ofFn fun i j => sumTo k fun r => a.get i r * b.get r j

/-- The difference, entry by entry. -/
def sub (a b : Mat m n α) : Mat m n α :=
  ofFn fun i j => a.get i j - b.get i j

/-- The largest magnitude of an entry. -/
def supNorm (a : Mat m n α) : α :=
  maxTo m fun i => maxTo n fun j => abs (a.get i j)

/-- The sum of the magnitudes in column `j` of the rows above `row`. -/
def columnSumAbove (a : Mat m n α) (row j : Nat) : α :=
  sumTo row fun i => abs (a.get i j)

/-- The two by two matrix with the given rows. -/
def ofRows2 (a b c d : α) : Mat 2 2 α :=
  ofFn fun i j => if i = 0 then (if j = 0 then a else b) else (if j = 0 then c else d)

end Mat

/-- A matrix whose dimensions are known only as values, as it comes from a file. -/
structure Table (α : Type) where
  rows : Nat
  cols : Nat
  mat : Mat rows cols α

namespace Table

variable {α : Type}

/-- The matrix of the given size whose entry in row `i` and column `j` is `f i j`. -/
def ofFn (rows cols : Nat) (f : Nat → Nat → α) : Table α :=
  ⟨rows, cols, Mat.ofFn f⟩

/-- A typed matrix with its dimensions forgotten. -/
def ofMat {m n : Nat} (a : Mat m n α) : Table α :=
  ⟨m, n, a⟩

/-- The leading part of the given size. -/
def leading [Zero α] (t : Table α) (m n : Nat) : Mat m n α :=
  Mat.ofFn t.mat.get

/-- The whole of a matrix, as a leading part of its table. -/
theorem leading_ofMat [Zero α] {m n : Nat} (a : Mat m n α) : (ofMat a).leading m n = a :=
  Mat.ext_get fun i hi j hj => by simp [leading, ofMat, hi, hj]

end Table

end SchurForm
