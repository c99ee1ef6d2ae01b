/-!
# Powers of two and of ten

The two bases of number formats: binary64 numbers have powers of two, written numbers powers of ten.
-/

namespace SchurForm

/-- The power of two with the given exponent. -/
def twoPow (k : Nat) : Nat := Nat.pow 2 k

/-- The power of ten with the given exponent. -/
def tenPow (k : Nat) : Nat := Nat.pow 10 k

/-- Powers of ten are positive. -/
theorem tenPow_pos (k : Nat) : 0 < tenPow k := Nat.pow_pos (by decide)

end SchurForm
