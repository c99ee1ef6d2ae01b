import SchurForm.Scalar

/-!
# Diagonal blocks

A quasi-triangular matrix has blocks of order one and two on its diagonal. A block of order one
holds a real eigenvalue; a block of order two holds a conjugate pair, of which the block keeps the
eigenvalue with positive imaginary part.
-/

namespace SchurForm

/-- A diagonal block with its first row. -/
inductive Block (α : Type) where
  | real (start : Nat)
  | pair (start : Nat) (re im : α)
  deriving DecidableEq, Repr

namespace Block

variable {α : Type}

/-- The first row of the block. -/
def start : Block α → Nat
  | .real start => start
  | .pair start _ _ => start

/-- The order of the block. -/
def size : Block α → Nat
  | .real _ => 1
  | .pair _ _ _ => 2

/-- The row behind the last row of the block. -/
def stop (b : Block α) : Nat :=
  b.start + b.size

/-- Whether a block holds a conjugate pair. -/
def isPair : Block α → Bool
  | .real _ => false
  | .pair _ _ _ => true

/-- The same block with another first row. -/
def moveTo (start : Nat) : Block α → Block α
  | .real _ => .real start
  | .pair _ re im => .pair start re im

/-- The block occupies the given row. -/
def covers (b : Block α) (row : Nat) : Bool :=
  decide (b.start ≤ row) && decide (row < b.stop)

/-- A moved block starts where it was moved to. -/
@[simp] theorem start_moveTo (b : Block α) (k : Nat) : (b.moveTo k).start = k := by
  cases b <;> rfl

/-- A moved block keeps its order. -/
@[simp] theorem size_moveTo (b : Block α) (k : Nat) : (b.moveTo k).size = b.size := by
  cases b <;> rfl

/-- The number of rows that a list of blocks occupies. -/
def totalSize (blocks : List (Block α)) : Nat :=
  blocks.foldr (fun b rows => b.size + rows) 0

/-- The blocks stand end to end and fill the rows from the first one up to the last one, which is
not among them. -/
def Tiles : Nat → List (Block α) → Nat → Prop
  | first, [], last => first = last
  | first, b :: rest, last => b.start = first ∧ Tiles b.stop rest last

/-- Blocks that stand end to end fill as many rows as they have. -/
theorem Tiles.last_eq {first last : Nat} {blocks : List (Block α)} (h : Tiles first blocks last) :
    last = first + totalSize blocks := by
  induction blocks generalizing first with
  | nil => exact h.symm
  | cons b rest ih =>
    obtain ⟨rfl, hrest⟩ := h
    rw [ih hrest, stop, Nat.add_assoc]
    rfl

end Block

end SchurForm
