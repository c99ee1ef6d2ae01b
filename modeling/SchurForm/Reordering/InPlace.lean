import SchurForm.Reordering

/-!
# Reordering in place

Callers keep the matrices of a form, its factors and the selection in a state of their own, and show
where they stand in it by a view. A reordering reads and writes through the view. All checks come
first. Then every exchange that is accepted is written at once, one matrix after the other, and
after the last one the selection is overwritten. A refused exchange ends the gathering; what was
written before it stays.
-/

namespace SchurForm

variable {α σ eig : Type}

/-- An operation that changes a state step by step and may fail on the way. What it has written by
then stays. -/
abbrev Operation (α σ : Type) := ExceptT (FormError α) (StateM σ)

/-- The exchange of blocks by an operation on the state; a failure refuses the exchange. -/
def Operation.toAction (exchange : (row upper lower : Nat) → Operation α σ Unit) :
    ExchangeAction σ (FormError α) :=
  fun state row upper lower =>
    match (exchange row upper lower).run state with
    | (.ok (), after) => (after, none)
    | (.error reason, after) => (after, some reason)

/-- Gather the selected blocks by an operation that exchanges two of them. -/
def gatherInPlace (exchange : (row upper lower : Nat) → Operation α σ Unit)
    (blocks : List (Block α)) (selected : List Bool) :
    Operation α σ (Gathering α σ (FormError α)) := do
  let g := gather (Operation.toAction exchange) blocks selected (← get)
  set g.state
  return g

/-- Where the selection stands in a state. -/
structure SelectionView (σ : Type) where
  selected : σ → List Bool
  setSelected : List Bool → σ → σ

/-- Where the matrices of a standard form stand in a state. The factor may be missing. -/
structure StandardView (n : Nat) (α σ : Type) extends SelectionView σ where
  s : σ → Mat n n α
  setS : Mat n n α → σ → σ
  q : σ → Option (Mat n n α)
  setQ : Mat n n α → σ → σ

/-- Where the matrices of a pencil stand in a state. The factors may be missing. -/
structure PencilView (n : Nat) (α σ : Type) extends SelectionView σ where
  s : σ → Mat n n α
  setS : Mat n n α → σ → σ
  t : σ → Mat n n α
  setT : Mat n n α → σ → σ
  q : σ → Option (Mat n n α)
  setQ : Mat n n α → σ → σ
  z : σ → Option (Mat n n α)
  setZ : Mat n n α → σ → σ

/-- Multiply the columns of a factor from `row` on, if there is a factor. -/
def turnFactor [Scalar α] {n m : Nat} (get : σ → Option (Mat n n α)) (set : Mat n n α → σ → σ)
    (row : Nat) (turn : Mat m m α) (state : σ) : σ :=
  match get state with
  | some factor => set (factor.transformColumns row turn) state
  | none => state

variable [Scalar α] {n : Nat}

/-- Move the selected eigenvalues of a form of order `n` to the front: classify the form, check the
selection, gather the blocks, and overwrite the selection with what got to the front. -/
def reorderInPlace (n : Nat) (view : SelectionView σ)
    (classify : σ → Except (FormError α) (List (Block α)))
    (exchange : (row upper lower : Nat) → Operation α σ Unit)
    (eigenvaluesOf : σ → List (Block α) → eig) :
    Operation α σ (ReorderReport eig (FormError α)) := do
  let before ← get
  let blocks ← classify before
  let selected := view.selected before
  let _ ← checkSelection blocks selected 2
  let g ← gatherInPlace exchange blocks selected
  let front := markFront n g.blocks g.gathered
  modify (view.setSelected front.1)
  let after ← get
  return {
    swaps := g.swaps, reordered := front.2, rejected := g.rejected
    eigenvalues := eigenvaluesOf after g.blocks }

namespace StandardView

variable (view : StandardView n α σ)

/-- The form in a state. -/
def form (state : σ) : StandardForm n α :=
  { s := view.s state, q := view.q state }

/-- Exchange the adjacent blocks of order `upper` and `lower` that start in the given row. -/
def exchange (tol : Tolerance α) (row upper lower : Nat) : Operation α σ Unit := do
  let (upper, lower) ← (exchangeOrders (upper + lower) upper row : Except (FormError α) _)
  let state ← get
  let e ← ((view.form state).attempt tol row upper lower).outcome
  modify fun state => view.setS ((view.s state).transformPatch row e.factor e.factor e.after) state
  modify (turnFactor view.q view.setQ row e.factor)

/-- Move the selected eigenvalues of the standard form to the front. -/
def reorder (tol : Tolerance α) :
    Operation α σ (ReorderReport (Eigenvalues n α) (FormError α)) :=
  reorderInPlace n view.toSelectionView (fun state => diagonalBlocks (view.s state))
    (view.exchange tol) fun state blocks =>
      let s := view.s state
      eigenvalues s (blocks.map (Block.reread (pairAt s)))

end StandardView

namespace PencilView

variable (view : PencilView n α σ)

/-- The pencil in a state. -/
def form (state : σ) : PencilForm n α :=
  { s := view.s state, t := view.t state, q := view.q state, z := view.z state }

/-- Exchange the adjacent block pairs of order `upper` and `lower` that start in the given row. -/
def exchange (tol : Tolerance α) (row upper lower : Nat) : Operation α σ Unit := do
  let (upper, lower) ← (exchangeOrders (upper + lower) upper row : Except (FormError α) _)
  let state ← get
  let e ← ((view.form state).attempt tol row upper lower).outcome
  modify fun state => view.setS ((view.s state).transformPatch row e.left e.right e.s) state
  modify fun state => view.setT ((view.t state).transformPatch row e.left e.right e.t) state
  modify (turnFactor view.q view.setQ row e.left)
  modify (turnFactor view.z view.setZ row e.right)

/-- Move the selected eigenvalues of the pencil to the front. -/
def reorder (tol : Tolerance α) :
    Operation α σ (ReorderReport (PencilEigenvalues n α) (FormError α)) :=
  reorderInPlace n view.toSelectionView (fun state => pencilBlocks (view.s state) (view.t state))
    (view.exchange tol) fun state blocks =>
      let s := view.s state
      let t := view.t state
      pencilEigenvalues s t (blocks.map (Block.reread (pencilPairAt s t)))

end PencilView

end SchurForm
