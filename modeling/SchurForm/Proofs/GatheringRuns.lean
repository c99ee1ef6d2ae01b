import SchurForm.Proofs.StableGathering

/-!
# Invariants and images of gatherings

Two principles carry every statement about a whole reordering. A property of the state and the order
of the blocks that every exchange keeps, accepted or refused, holds at the end of a run. A relation
of states that every exchange keeps is kept by whole gatherings, so what stands beside a state
without being looked at does not influence a gathering.
-/

namespace SchurForm

open Block

variable {α σ τ ε : Type}

/-- What holds at the start and is kept by accepted and by refused exchanges holds at the end. The
property may speak about the number of exchanges so far. -/
theorem ExchangeRun.preserves {act : ExchangeAction σ ε} {chosen : Block α → Bool}
    {P : σ → List (Block α) → Nat → Option ε → Prop}
    (haccepted : ∀ (st next : σ) (above below : List (Block α)) (upper lower : Block α)
        (count : Nat),
      P st (above ++ upper :: lower :: below) count none →
      act st (totalSize above) upper.size lower.size = (next, none) →
      P next (above ++ lower :: upper :: below) (count + 1) none)
    (hrefused : ∀ (st next : σ) (above below : List (Block α)) (upper lower : Block α) (count : Nat)
        (reason : ε),
      P st (above ++ upper :: lower :: below) count none →
      act st (totalSize above) upper.size lower.size = (next, some reason) →
      P next (above ++ upper :: lower :: below) count (some reason))
    {state final : σ} {order result : List (Block α)} {swaps count : Nat} {rejected : Option ε}
    (h : ExchangeRun act chosen state order swaps final result rejected)
    (hstart : P state order count none) : P final result (count + swaps) rejected := by
  induction h generalizing count with
  | done => exact hstart
  | accepted _ _ exchanged _ ih =>
    rw [Nat.add_comm _ 1, ← Nat.add_assoc]
    exact ih (haccepted _ _ _ _ _ _ _ hstart exchanged)
  | refused _ _ refusal => exact hrefused _ _ _ _ _ _ _ _ hstart refusal

/-- What holds of the state at the start and is kept by every exchange, wherever it takes place,
holds at the end. -/
theorem ExchangeRun.preserves_state {act : ExchangeAction σ ε} {chosen : Block α → Bool}
    {P : σ → Option ε → Prop}
    (hact : ∀ st row upper lower, P st none →
      P (act st row upper lower).1 (act st row upper lower).2)
    {state final : σ} {order result : List (Block α)} {swaps : Nat} {rejected : Option ε}
    (h : ExchangeRun act chosen state order swaps final result rejected) (hstart : P state none) :
    P final rejected := by
  have hstep (st next : σ) (row upper lower : Nat) (reason : Option ε) (hst : P st none)
      (hnext : act st row upper lower = (next, reason)) : P next reason := by
    have hkept := hact st row upper lower hst
    rwa [hnext] at hkept
  induction h with
  | done => exact hstart
  | accepted _ _ exchanged _ ih => exact ih (hstep _ _ _ _ _ _ hstart exchanged)
  | refused _ _ refusal => exact hstep _ _ _ _ _ _ hstart refusal

/-- The end of carrying a block, with the state mapped. -/
def Climb.mapState (f : σ → τ) : Climb α σ ε → Climb α τ ε
  | .arrived state moved passed swaps => .arrived (f state) moved passed swaps
  | .refused state blocks swaps reason => .refused (f state) blocks swaps reason

/-- A gathering with its state mapped. -/
def Gathering.mapState (f : σ → τ) (g : Gathering α σ ε) : Gathering α τ ε :=
  { state := f g.state, blocks := g.blocks, swaps := g.swaps, gathered := g.gathered
    rejected := g.rejected }

/-- The state at the end of carrying a block. -/
def Climb.state : Climb α σ ε → σ
  | .arrived state _ _ _ => state
  | .refused state _ _ _ => state

section Simulation

variable {act : ExchangeAction σ ε} {act' : ExchangeAction τ ε} {R : σ → τ → Prop}
  (hact : ∀ s t row (upper lower : Block α), R s t →
    R (act s row upper.size lower.size).1 (act' t row upper.size lower.size).1 ∧
      (act' t row upper.size lower.size).2 = (act s row upper.size lower.size).2)

include hact

/-- Related states stay related while a block is carried, and nothing else differs. -/
theorem climb_simulates (b : Block α) (above : List (Block α)) {s : σ} {t : τ} (h : R s t) :
    ∃ final, R (climb act b above s).state final ∧
      climb act' b above t = (climb act b above s).mapState fun _ => final := by
  induction above generalizing b s t with
  | nil => exact ⟨t, h, rfl⟩
  | cons upper above ih =>
    obtain ⟨hnext, hrefusal⟩ := hact s t upper.start upper b h
    rw [climb, climb]
    generalize act s upper.start upper.size b.size = step at hnext hrefusal ⊢
    generalize act' t upper.start upper.size b.size = step' at hnext hrefusal ⊢
    obtain ⟨next, refusal⟩ := step
    obtain ⟨next', refusal'⟩ := step'
    obtain rfl : refusal' = refusal := hrefusal
    cases refusal' with
    | some reason => exact ⟨next', hnext, rfl⟩
    | none =>
      obtain ⟨final, hfinal, hclimb⟩ := ih (b.moveTo upper.start) hnext
      dsimp only
      rw [hclimb]
      generalize climb act (b.moveTo upper.start) above next = carried at hfinal ⊢
      cases carried with
      | arrived state moved passed more => exact ⟨final, hfinal, rfl⟩
      | refused state blocks more reason => exact ⟨final, hfinal, rfl⟩

/-- Related states stay related in a gathering, and nothing else differs. -/
theorem gatherFrom_simulates (selected : List Bool) (front waiting rest : List (Block α))
    (swaps : Nat) {s : σ} {t : τ} (h : R s t) :
    ∃ final, R (gatherFrom act selected front waiting rest swaps s).state final ∧
      gatherFrom act' selected front waiting rest swaps t =
        (gatherFrom act selected front waiting rest swaps s).mapState fun _ => final := by
  induction rest generalizing front waiting swaps s t with
  | nil => exact ⟨t, h, rfl⟩
  | cons b rest ih =>
    rw [gatherFrom, gatherFrom]
    split
    · obtain ⟨final, hfinal, hclimb⟩ := climb_simulates hact b waiting.reverse h
      rw [hclimb]
      generalize climb act b waiting.reverse s = carried at hfinal ⊢
      cases carried with
      | arrived next moved passed more => exact ih _ _ _ hfinal
      | refused next blocks more reason => exact ⟨final, hfinal, rfl⟩
    · exact ih _ _ _ h

/-- Gathering from related states makes the same exchanges and ends in related states. -/
theorem gather_simulates (blocks : List (Block α)) (selected : List Bool) {s : σ} {t : τ}
    (h : R s t) :
    ∃ final, R (gather act blocks selected s).state final ∧
      gather act' blocks selected t = (gather act blocks selected s).mapState fun _ => final :=
  gatherFrom_simulates hact selected [] [] blocks 0 h

end Simulation

/-- Gathering commutes with a map that the exchanges commute with. -/
theorem gather_mapState {act : ExchangeAction σ ε} {act' : ExchangeAction τ ε} {f : σ → τ}
    (hact : ∀ state row upper lower,
      act' (f state) row upper lower = (act state row upper lower).map f id)
    (blocks : List (Block α)) (selected : List Bool) (state : σ) :
    gather act' blocks selected (f state) = (gather act blocks selected state).mapState f := by
  have hsteps : ∀ s t row (upper lower : Block α), f s = t →
      f (act s row upper.size lower.size).1 = (act' t row upper.size lower.size).1 ∧
        (act' t row upper.size lower.size).2 = (act s row upper.size lower.size).2 := by
    rintro s _ row upper lower rfl
    simp [hact]
  obtain ⟨final, rfl, hgather⟩ := gather_simulates hsteps blocks selected rfl
  exact hgather

end SchurForm
