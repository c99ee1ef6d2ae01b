import SchurForm.Scalar

/-!
# Vectors

A vector is a table of its entries. Entries are read by a plain row number, and a row outside the
vector reads as zero, so that an index computed from block positions needs no proof to be used.
`get_ofFn` and `Vec.ext_get` are all that a user of the type has to know.
-/

namespace SchurForm

/-- A vector of fixed length. -/
structure Vec (n : Nat) (α : Type) where
  entries : Vector α n

namespace Vec

variable {n : Nat} {α : Type}

/-- The vector whose entry in row `i` is `f i`. -/
def ofFn (f : Nat → α) : Vec n α :=
  ⟨Vector.ofFn fun i => f i.val⟩

/-- The entry in row `i`, zero outside the vector. -/
def get [Zero α] (v : Vec n α) (i : Nat) : α :=
  if h : i < n then v.entries[i] else 0

/-- The entries in order. -/
def toList (v : Vec n α) : List α :=
  v.entries.toList

/-- The same vector with one entry replaced. -/
def set [Zero α] (v : Vec n α) (i : Nat) (x : α) : Vec n α :=
  ofFn fun j => if j = i then x else v.get j

/-- Apply a function to every entry. -/
def map [Zero α] {β : Type} (f : α → β) (v : Vec n α) : Vec n β :=
  ofFn fun i => f (v.get i)

/-- An entry of a tabulated vector; beyond its end it is zero. -/
@[simp] theorem get_ofFn [Zero α] (f : Nat → α) (i : Nat) :
    (ofFn f : Vec n α).get i = if i < n then f i else 0 := by
  unfold get ofFn
  split <;> simp_all

/-- There are only zeros beyond the end. -/
theorem get_of_le [Zero α] (v : Vec n α) {i : Nat} (h : n ≤ i) : v.get i = 0 := by
  simp [get, Nat.not_lt.mpr h]

/-- Vectors with the same entries are equal. -/
theorem ext_get [Zero α] {v w : Vec n α} (h : ∀ i < n, v.get i = w.get i) : v = w := by
  cases v with
  | mk a =>
    cases w with
    | mk b =>
      congr 1
      ext i hi
      simpa [get, hi] using h i hi

/-- Setting an entry changes this entry only. -/
@[simp] theorem get_set [Zero α] (v : Vec n α) (i j : Nat) (x : α) :
    (v.set i x).get j = if j < n then (if j = i then x else v.get j) else 0 := by
  simp [set]

/-- An entry of a mapped vector. -/
@[simp] theorem get_map [Zero α] {β : Type} [Zero β] (f : α → β) (v : Vec n α) (i : Nat) :
    (v.map f).get i = if i < n then f (v.get i) else 0 := by
  simp [map]

open Scalar

variable [Scalar α]

/-- The zero vector. -/
def zero : Vec n α :=
  ofFn fun _ => 0

/-- The inner product, from the first row to the last. -/
def dot (v w : Vec n α) : α :=
  sumTo n fun i => v.get i * w.get i

/-- The largest magnitude of an entry. -/
def supNorm (v : Vec n α) : α :=
  maxTo n fun i => abs (v.get i)

/-- Whether every entry is a finite number. -/
def allFinite (v : Vec n α) : Bool :=
  v.toList.all isFinite

end Vec

end SchurForm
