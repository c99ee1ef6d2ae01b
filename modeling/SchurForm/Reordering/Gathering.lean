import SchurForm.Block
import SchurForm.Selection

/-!
# Gathering the selected blocks

Selected blocks are carried to the front one after the other, each past all unselected blocks above
it by exchanges of adjacent blocks. The order among selected and among unselected blocks stays. The
gathering ends at the first exchange that is refused.

Gathering knows nothing about matrices: an exchange is an action on a state that is told the first
row of the upper block and the orders of both blocks, and that may refuse.
-/

namespace SchurForm

variable {α σ ε : Type}

/-- An exchange of adjacent blocks: the state, the first row of the upper block, the orders of the
upper and the lower block. The result is a state and possibly a refusal. -/
abbrev ExchangeAction (σ ε : Type) := σ → (row upper lower : Nat) → σ × Option ε

/-- The end of carrying one block up past unselected blocks. -/
inductive Climb (α σ ε : Type) where
  /-- The block stands above all of them; they follow from top to bottom. -/
  | arrived (state : σ) (moved : Block α) (passed : List (Block α)) (swaps : Nat)
  /-- An exchange was refused; all blocks from top to bottom. -/
  | refused (state : σ) (blocks : List (Block α)) (swaps : Nat) (reason : ε)

/-- Carry a block up past the blocks above it, of which the nearest comes first. -/
def climb (act : ExchangeAction σ ε) (b : Block α) : List (Block α) → σ → Climb α σ ε
  | [], state => .arrived state b [] 0
  | upper :: above, state =>
    match act state upper.start upper.size b.size with
    | (state, some reason) => .refused state (above.reverse ++ [upper, b]) 0 reason
    | (state, none) =>
      let passed := upper.moveTo (upper.start + b.size)
      match climb act (b.moveTo upper.start) above state with
      | .arrived state moved below swaps => .arrived state moved (below ++ [passed]) (swaps + 1)
      | .refused state blocks swaps reason => .refused state (blocks ++ [passed]) (swaps + 1) reason

/-- What came of gathering the selected blocks. -/
structure Gathering (α σ ε : Type) where
  state : σ
  /-- All blocks from top to bottom. -/
  blocks : List (Block α)
  /-- The number of exchanges that were carried out. -/
  swaps : Nat
  /-- The number of selected blocks at the front. -/
  gathered : Nat
  rejected : Option ε

/-- Go on gathering: the selected blocks at the front, the unselected blocks below them, and the
blocks that have not been looked at, each from top to bottom. -/
def gatherFrom (act : ExchangeAction σ ε) (selected : List Bool) :
    (front waiting rest : List (Block α)) → (swaps : Nat) → σ → Gathering α σ ε
  | front, waiting, [], swaps, state =>
    { state, blocks := front ++ waiting, swaps, gathered := front.length, rejected := none }
  | front, waiting, b :: rest, swaps, state =>
    if flagAt selected b.start then
      match climb act b waiting.reverse state with
      | .arrived state moved passed more =>
        gatherFrom act selected (front ++ [moved]) passed rest (swaps + more) state
      | .refused state blocks more reason =>
        { state, blocks := front ++ blocks ++ rest, swaps := swaps + more
          gathered := front.length, rejected := some reason }
    else gatherFrom act selected front (waiting ++ [b]) rest swaps state

/-- Carry the selected blocks to the front. -/
def gather (act : ExchangeAction σ ε) (blocks : List (Block α)) (selected : List Bool)
    (state : σ) : Gathering α σ ε :=
  gatherFrom act selected [] [] blocks 0 state

/-- The selection of the leading `gathered` blocks, and the number of rows that they cover. -/
def markFront (n : Nat) (blocks : List (Block α)) (gathered : Nat) : List Bool × Nat :=
  let front := blocks.take gathered
  ((List.range n).map fun row => front.any fun b => b.covers row, Block.totalSize front)

end SchurForm
