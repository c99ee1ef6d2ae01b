import SchurForm.Mat

/-!
# Plane rotations

A plane rotation `[c -s; s c]` acts on two rows or on two columns of a matrix. Rotating rows and
then columns by the same rotation is a similarity.
-/

namespace SchurForm

/-- The rotation `[c -s; s c]`. -/
structure GivensRotation (α : Type) where
  c : α
  s : α

namespace GivensRotation

variable {α : Type} [Scalar α]

open Scalar

/-- The rotation by no angle. -/
def identity : GivensRotation α := ⟨1, 0⟩

/-- The rotation with `[c s; -s c] [f; g] = [r; 0]`, together with `r`. -/
def annihilating (f g : α) : GivensRotation α × α :=
  if g == 0 then (⟨1, 0⟩, f)
  else if f == 0 then (⟨0, sign g⟩, abs g)
  else
    let scale := maxNum (abs f) (abs g)
    let fs := f / scale
    let gs := g / scale
    let r := scale * sqrt (fs * fs + gs * gs)
    (⟨f / r, g / r⟩, r)

/-- Multiply rows `i` and `k` from the left by the transposed rotation. -/
def rotateRows {m n : Nat} (rot : GivensRotation α) (i k : Nat) (a : Mat m n α) : Mat m n α :=
  Mat.ofFn fun r j =>
    if r = k then rot.c * a.get k j - rot.s * a.get i j
    else if r = i then rot.c * a.get i j + rot.s * a.get k j
    else a.get r j

/-- Multiply columns `i` and `k` from the right by the rotation. -/
def rotateColumns {m n : Nat} (rot : GivensRotation α) (i k : Nat) (a : Mat m n α) : Mat m n α :=
  Mat.ofFn fun r j =>
    if j = k then rot.c * a.get r k - rot.s * a.get r i
    else if j = i then rot.c * a.get r i + rot.s * a.get r k
    else a.get r j

end GivensRotation

end SchurForm
