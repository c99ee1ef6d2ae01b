import SchurForm.Exchange
import SchurForm.Reflection
import SchurForm.SylvesterEquation
import SchurForm.TwoByTwo

/-!
# Exchanges in a standard form

Two blocks of order one are exchanged by one rotation, exactly. Otherwise the subspace of the lower
block is found from a Sylvester equation, completed to an orthogonal basis, and the patch is
transformed. The transformed patch is accepted if what it has below its first block is negligible
and if undoing the transformation gives the patch back. Its blocks of order two are then brought to
standard form.
-/

namespace SchurForm

variable {α : Type} [Scalar α] {p q : Nat}

/-- An accepted exchange: `after = factorᵀ * patch * factor`. -/
structure StandardExchange (m : Nat) (α : Type) where
  factor : Mat m m α
  after : Mat m m α

/-- The Sylvester equation of a patch. -/
def couplingSolution (tol : Tolerance α) (d : Mat (p + q) (p + q) α) : SylvesterUnknowns p q α :=
  solveSingleSylvester (d.block 0 0) (d.block p p) (d.block 0 p) tol.refinements

/-- The exchange of two blocks of order one. -/
def exchangeReal {m : Nat} (d : Mat m m α) : StandardExchange m α :=
  let a := d.get 0 0
  let b := d.get 0 1
  let c := d.get 1 1
  let rot := (GivensRotation.annihilating b (c - a)).1
  { factor := Mat.ofFn (Mat.ofRows2 rot.c (-rot.s) rot.s rot.c).get
    after := Mat.ofFn (Mat.ofRows2 c b 0 a).get }

/-- Bring the block of order two that starts in row `k` of the patch to standard form. -/
def StandardExchange.standardizeBlock {m : Nat} (row k : Nat) (e : StandardExchange m α) :
    Except (FormError α) (StandardExchange m α) :=
  let block := standardize (e.after.get k k) (e.after.get k (k + 1))
    (e.after.get (k + 1) k) (e.after.get (k + 1) (k + 1))
  if block.holdsPair then
    let turned :=
      block.rotation.rotateColumns k (k + 1) (block.rotation.rotateRows k (k + 1) e.after)
    .ok
      { factor := block.rotation.rotateColumns k (k + 1) e.factor
        after := Mat.ofFn fun i j =>
          if i = k ∧ j = k then block.a
          else if i = k ∧ j = k + 1 then block.b
          else if i = k + 1 ∧ j = k then block.c
          else if i = k + 1 ∧ j = k + 1 then block.d
          else turned.get i j }
  else .error (.pairSplit row)

/-- Standardize the block of order two in row `k`, if the block there has that order. -/
def StandardExchange.standardizeSize {m : Nat} (row k size : Nat) (e : StandardExchange m α) :
    Except (FormError α) (StandardExchange m α) :=
  if size = 2 then e.standardizeBlock row k else .ok e

/-- The exchange of two blocks of which at least one has order two. -/
def exchangeGeneral (tol : Tolerance α) (row : Nat) (d : Mat (p + q) (p + q) α) :
    Except (FormError α) (StandardExchange (p + q) α) := do
  let threshold := tol.threshold d.supNorm
  let solution := couplingSolution tol d
  let u := completeBasis (subspaceBasis solution.right solution.scale)
  let patch := transformed u d u
  refuseAbove row (lowerLeft patch p q).supNorm threshold
  let cleared := patch.clear q p 0 q
  refuseAbove row (d.sub (rebuilt u cleared u)).supNorm threshold
  let first ← StandardExchange.standardizeSize row 0 q ⟨u, cleared⟩
  first.standardizeSize row q p

/-- Exchange the leading block of order `p` of a patch with its trailing block of order `q`. The
patch starts in the given row of the full matrix. -/
def exchangeStandard (tol : Tolerance α) (row : Nat) (d : Mat (p + q) (p + q) α) :
    Except (FormError α) (StandardExchange (p + q) α) :=
  if p = 1 ∧ q = 1 then .ok (exchangeReal d) else exchangeGeneral tol row d

end SchurForm
