import SchurForm.FormError

/-!
# Checked steps and what they fail with

Operations are sequences of checked steps that end at the first failure. Two kinds of failure are
told apart: one charges an argument of the operation, and its status has a negative code; the other
refuses an exchange of two blocks, and its status is a partial reordering. A sequence of steps that
only charge arguments only charges arguments.
-/

namespace SchurForm

variable {α β γ ε : Type}

/-- Two checked steps in a row succeed exactly if the first one does and the second one does with
its result. -/
theorem checked_bind_eq_ok {first : Except ε β} {next : β → Except ε γ} {result : γ} :
    (first >>= next) = .ok result ↔ ∃ x, first = .ok x ∧ next x = .ok result := by
  cases first with
  | error e => simp [Bind.bind, Except.bind]
  | ok x => simp [Bind.bind, Except.bind]

/-- Two checked steps in a row fail exactly if the first one does or the second one does with its
result. -/
theorem checked_bind_eq_error {first : Except ε β} {next : β → Except ε γ} {e : ε} :
    (first >>= next) = .error e ↔
      first = .error e ∨ ∃ x, first = .ok x ∧ next x = .error e := by
  cases first with
  | error e => simp [Bind.bind, Except.bind]
  | ok x => simp [Bind.bind, Except.bind]

/-- The one-based ordinal of a parameter; no operation on flat storage has more than 13 of them. -/
abbrev IsOrdinal (position : Nat) : Prop :=
  0 < position ∧ position ≤ 13

/-- The error charges an argument of an operation, by its ordinal or as the matrix that holds the
fault. -/
def FormError.ChargesArgument : FormError α → Prop
  | .invalidArgument position _ _ => IsOrdinal position
  | .inconsistentInput _ _ => True
  | .swapRejected _ _ _ => False
  | .pairSplit _ => False
  | .shape _ => True

/-- The error refuses an exchange of two blocks. -/
def FormError.RefusesExchange : FormError α → Prop
  | .swapRejected _ _ _ => True
  | .pairSplit _ => True
  | _ => False

/-- The code of an invalid argument is negative: the ordinals are far from the end of the 32-bit
numbers. -/
theorem Status.code_invalidArgument_neg {position : Nat} (h : IsOrdinal position) :
    (Status.invalidArgument position).code < 0 := by
  have hrange : ∀ p ≤ 13, 0 < p → (Status.invalidArgument p).code < 0 := by decide
  exact hrange position h.2 h.1

namespace FormError

variable {e : FormError α}

/-- An error that charges an argument has a negative code. -/
theorem ChargesArgument.code_neg (h : e.ChargesArgument) {matrixPosition : Nat}
    (hmatrix : IsOrdinal matrixPosition) : (e.status matrixPosition).code < 0 := by
  cases e with
  | invalidArgument position name fault => exact Status.code_invalidArgument_neg h
  | inconsistentInput row defect => exact Status.code_invalidArgument_neg hmatrix
  | swapRejected row residual threshold => exact h.elim
  | pairSplit row => exact h.elim
  | shape fault => exact Status.code_invalidArgument_neg hmatrix

/-- An error that charges an argument does not refuse an exchange. -/
theorem ChargesArgument.not_refusesExchange (h : e.ChargesArgument) : ¬e.RefusesExchange := by
  cases e <;> simp_all [ChargesArgument, RefusesExchange]

end FormError

/-- All failures of a checked step charge an argument. -/
def ChargesArguments (step : Except (FormError α) β) : Prop :=
  ∀ e, step = .error e → e.ChargesArgument

/-- A step that succeeds charges no argument. -/
theorem chargesArguments_ok (x : β) : ChargesArguments (.ok x : Except (FormError α) β) :=
  fun _ h => nomatch h

/-- A step that fails charges an argument if its error does. -/
theorem chargesArguments_error {e : FormError α} (h : e.ChargesArgument) :
    ChargesArguments (.error e : Except (FormError α) β) :=
  fun _ he => Except.error.inj he ▸ h

/-- Steps that charge arguments may follow each other. -/
theorem ChargesArguments.bind {first : Except (FormError α) β}
    {next : β → Except (FormError α) γ} (hfirst : ChargesArguments first)
    (hnext : ∀ x, ChargesArguments (next x)) : ChargesArguments (first >>= next) := by
  intro e h
  rcases checked_bind_eq_error.mp h with h | ⟨x, -, h⟩
  · exact hfirst e h
  · exact hnext x e h

end SchurForm
