import SchurForm.Block.Recognition
import SchurForm.Eigenvalues

/-!
# Selections

A selection marks eigenvalue positions, both positions of a conjugate pair alike. A predicate is
asked once for every block, from top to bottom: for a real eigenvalue with imaginary part zero, for
a pair with the eigenvalue that has the positive imaginary part. Predicates may have effects, so
that their calls can be observed.
-/

namespace SchurForm

/-- One flag for every eigenvalue position, and the number of flags that are set. -/
structure Selection where
  selected : List Bool
  count : Nat
  deriving DecidableEq, Repr

/-- The predicates that have a name. -/
inductive Selector where
  | all
  /-- Negative real part: stable in continuous time. -/
  | leftHalfPlane
  /-- Modulus below one: stable in discrete time. -/
  | insideUnitCircle
  | real
  | complex
  deriving DecidableEq, Repr

variable {α : Type} [Scalar α]

open Scalar

namespace Selector

/-- The name of a predicate. -/
def name : Selector → String
  | .all => "all"
  | .leftHalfPlane => "left-half-plane"
  | .insideUnitCircle => "inside-unit-circle"
  | .real => "real"
  | .complex => "complex"

/-- Every predicate that has a name. -/
def named : List Selector :=
  [.all, .leftHalfPlane, .insideUnitCircle, .real, .complex]

/-- The predicate of the given name. -/
def ofName? (text : String) : Option Selector :=
  named.find? fun s => s.name == text

/-- The test of an eigenvalue of a standard form. -/
def accepts : Selector → α → α → Bool
  | .all, _, _ => true
  | .leftHalfPlane, re, _ => decide (re < 0)
  | .insideUnitCircle, re, im => decide (hypot re im < 1)
  | .real, _, im => im == 0
  | .complex, _, im => im != 0

/-- The same test of the eigenvalue `(re + i * im) / beta` of a pencil. An infinite eigenvalue lies
neither in the left half-plane nor inside the unit circle. -/
def acceptsPencil : Selector → α → α → α → Bool
  | .leftHalfPlane, re, _, beta => !(beta == 0) && decide (re < 0)
  | .insideUnitCircle, re, im, beta => !(beta == 0) && decide (hypot re im < beta)
  | selector, re, im, _ => selector.accepts re im

end Selector

namespace Block

/-- The value of a standard form that is offered to a predicate for the block. -/
def offer {n : Nat} (s : Mat n n α) : Block α → α × α
  | .real k => (s.get k k, 0)
  | .pair _ re im => (re, im)

end Block

/-- Answers of a predicate to the offers of the blocks, from top to bottom. -/
def askEach {m : Type → Type} [Monad m] {β : Type} (ask : β → m Bool) :
    List (Block α × β) → m Selection
  | [] => pure ⟨[], 0⟩
  | (b, offer) :: rest => do
    let keep ← ask offer
    let tail ← askEach ask rest
    return ⟨List.replicate b.size keep ++ tail.selected,
      (if keep then b.size else 0) + tail.count⟩

/-- Offer every eigenvalue of a classified standard form to a predicate. -/
def selectBlocks {m : Type → Type} [Monad m] {n : Nat} (s : Mat n n α) (blocks : List (Block α))
    (predicate : α × α → m Bool) : m Selection :=
  askEach predicate (blocks.map fun b => (b, b.offer s))

/-- Offer every eigenvalue of a classified pencil to a predicate. -/
def selectPencilBlocks {m : Type → Type} [Monad m] {n : Nat} (s t : Mat n n α)
    (blocks : List (Block α)) (predicate : α × α × α → m Bool) : m Selection :=
  let eig := pencilEigenvalues s t blocks
  askEach predicate (blocks.map fun b =>
    (b, eig.real.get b.start, eig.imag.get b.start, eig.beta.get b.start))

/-- Select eigenvalues of a standard form. -/
def select {m : Type → Type} [Monad m] {n : Nat} (s : Mat n n α) (predicate : α × α → m Bool) :
    m (Except (FormError α) Selection) :=
  match diagonalBlocks s with
  | .error e => pure (.error e)
  | .ok blocks => Except.ok <$> selectBlocks s blocks predicate

/-- Select eigenvalues of a pencil. -/
def selectPencil {m : Type → Type} [Monad m] {n : Nat} (s t : Mat n n α)
    (predicate : α × α × α → m Bool) : m (Except (FormError α) Selection) :=
  match pencilBlocks s t with
  | .error e => pure (.error e)
  | .ok blocks => Except.ok <$> selectPencilBlocks s t blocks predicate

/-- Select eigenvalues of a standard form by a test. -/
def selectBy {n : Nat} (s : Mat n n α) (test : α × α → Bool) : Except (FormError α) Selection :=
  Id.run (select s fun v => pure (test v))

/-- Select eigenvalues of a pencil by a test. -/
def selectPencilBy {n : Nat} (s t : Mat n n α) (test : α × α × α → Bool) :
    Except (FormError α) Selection :=
  Id.run (selectPencil s t fun v => pure (test v))

/-- Select eigenvalues of a standard form of unknown dimensions. -/
def Table.select {m : Type → Type} [Monad m] (s : Table α) (predicate : α × α → m Bool) :
    m (Except (FormError α) Selection) :=
  match s.square "S" with
  | .error e => pure (.error e)
  | .ok ⟨_, s⟩ => SchurForm.select s predicate

/-- Select eigenvalues of a pencil of unknown dimensions. -/
def Table.selectPencil {m : Type → Type} [Monad m] (s t : Table α)
    (predicate : α × α × α → m Bool) : m (Except (FormError α) Selection) :=
  match s.square "S" with
  | .error e => pure (.error e)
  | .ok ⟨n, s⟩ =>
    match t.squareOf "T" n with
    | .error e => pure (.error e)
    | .ok t => SchurForm.selectPencil s t predicate

/-- The flag of a row; a row beyond the flags is not selected. -/
def flagAt (selected : List Bool) (row : Nat) : Bool :=
  selected.getD row false

/-- The row behind the last block. -/
def blocksEnd (blocks : List (Block α)) : Nat :=
  match blocks.getLast? with
  | some b => b.stop
  | none => 0

/-- The first conjugate pair whose two flags differ. -/
def firstHalfSelected (blocks : List (Block α)) (selected : List Bool) : Option (Block α) :=
  blocks.find? fun b => b.isPair && (flagAt selected b.start != flagAt selected (b.start + 1))

/-- The number of selected rows, block by block. -/
def selectedSize (blocks : List (Block α)) (selected : List Bool) : Nat :=
  Block.totalSize (blocks.filter fun b => flagAt selected b.start)

/-- Check that there is a flag for every position and that the two flags of every pair agree. The
result is the number of selected eigenvalues; `position` is the ordinal reported on failure. -/
def checkSelection (blocks : List (Block α)) (selected : List Bool) (position : Nat) :
    Except (FormError α) Nat :=
  if selected.length ≠ blocksEnd blocks then
    .error (.invalidArgument position "selected"
      (.selectionLength (blocksEnd blocks) selected.length))
  else
    match firstHalfSelected blocks selected with
    | some b => .error (.invalidArgument position "selected" (.halfSelected b.start))
    | none => .ok (selectedSize blocks selected)

end SchurForm
