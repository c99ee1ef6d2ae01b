import SchurForm.Proofs.ReorderingOutcome
import SchurForm.Reordering.InPlace

/-!
# Reordering in place does what reordering a form does

A state that a form is written into holds it: the views read the form, and writing one of its
matrices gives the state that holds the changed form. An exchange in place then writes exactly what
the exchange of the form gives, or is refused before its first write. A reordering in place fails
with the error of the reordering of the form, and with the state as it was, since all checks come
before the first exchange; else it ends in the state that holds the reordered form and the selection
of what got to the front.
-/

namespace SchurForm

variable {α β δ σ eig : Type}

namespace Operation

/-- Reading the state hands it on. -/
theorem run_bind_get (next : σ → Operation α σ β) (state : σ) :
    (do let x ← get; next x : Operation α σ β).run state = (next state).run state :=
  rfl

/-- Writing changes the state for what follows. -/
theorem run_bind_modify (f : σ → σ) (next : PUnit → Operation α σ β) (state : σ) :
    (do let u ← modify f; next u : Operation α σ β).run state = (next ⟨⟩).run (f state) :=
  rfl

/-- A checked step that succeeds hands its result on. -/
theorem run_bind_ok {step : Except (FormError α) δ} {x : δ} (h : step = .ok x)
    (next : δ → Operation α σ β) (state : σ) :
    (do let x ← step; next x : Operation α σ β).run state = (next x).run state := by
  rw [h]
  rfl

/-- A checked step that fails ends the operation and leaves the state as it is. -/
theorem run_bind_error {step : Except (FormError α) δ} {e : FormError α} (h : step = .error e)
    (next : δ → Operation α σ β) (state : σ) :
    (do let x ← step; next x : Operation α σ β).run state = (.error e, state) := by
  rw [h]
  rfl

/-- Behind an operation, what follows goes on with its result and the state that it leaves. -/
theorem run_bind (step : Operation α σ δ) (next : δ → Operation α σ β) (state : σ) :
    (do let x ← step; next x : Operation α σ β).run state =
      (ExceptT.bindCont next (step.run state).1).run (step.run state).2 :=
  rfl

/-- An operation that succeeds hands its result and the state that it leaves on. -/
theorem run_bind_of_ok {step : Operation α σ δ} {x : δ} {state after : σ}
    (h : step.run state = (.ok x, after)) (next : δ → Operation α σ β) :
    (do let x ← step; next x : Operation α σ β).run state = (next x).run after := by
  rw [run_bind, h]
  rfl

/-- An operation that fails ends the whole one, with the state that it leaves. -/
theorem run_bind_of_error {step : Operation α σ δ} {e : FormError α} {state after : σ}
    (h : step.run state = (.error e, after)) (next : δ → Operation α σ β) :
    (do let x ← step; next x : Operation α σ β).run state = (.error e, after) := by
  rw [run_bind, h]
  rfl

/-- An exchange by an operation that succeeds is accepted. -/
theorem toAction_of_ok {exchange : Nat → Nat → Nat → Operation α σ Unit} {state after : σ}
    {row upper lower : Nat} (h : (exchange row upper lower).run state = (.ok (), after)) :
    toAction exchange state row upper lower = (after, none) := by
  rw [toAction, h]

/-- An exchange by an operation that fails is refused. -/
theorem toAction_of_error {exchange : Nat → Nat → Nat → Operation α σ Unit} {state after : σ}
    {row upper lower : Nat} {reason : FormError α}
    (h : (exchange row upper lower).run state = (.error reason, after)) :
    toAction exchange state row upper lower = (after, some reason) := by
  rw [toAction, h]

end Operation

open Operation

section Reordering

variable {n : Nat} {view : SelectionView σ}
  {classify : σ → Except (FormError α) (List (Block α))}
  {exchange : (row upper lower : Nat) → Operation α σ Unit}
  {eigenvaluesOf : σ → List (Block α) → eig}
  {state : σ} {blocks : List (Block α)} {e : FormError α} {count : Nat}

/-- A form that is not recognized is left as it is. -/
theorem run_reorderInPlace_of_unclassified (h : classify state = .error e) :
    (reorderInPlace n view classify exchange eigenvaluesOf).run state = (.error e, state) := by
  rw [reorderInPlace, run_bind_get, run_bind_error h]

/-- A form is left as it is by a selection that does not fit. -/
theorem run_reorderInPlace_of_unselected (hblocks : classify state = .ok blocks)
    (h : checkSelection blocks (view.selected state) 2 = .error e) :
    (reorderInPlace n view classify exchange eigenvaluesOf).run state = (.error e, state) := by
  rw [reorderInPlace, run_bind_get, run_bind_ok hblocks, run_bind_error h]

/-- After the checks there is a report, and the selection marks what got to the front. -/
theorem run_reorderInPlace {g : Gathering α σ (FormError α)} (hblocks : classify state = .ok blocks)
    (hselected : checkSelection blocks (view.selected state) 2 = .ok count)
    (hg : gather (toAction exchange) blocks (view.selected state) state = g) :
    let front := markFront n g.blocks g.gathered
    let after := view.setSelected front.1 g.state
    (reorderInPlace n view classify exchange eigenvaluesOf).run state =
      (.ok ⟨g.swaps, front.2, g.rejected, eigenvaluesOf after g.blocks⟩, after) := by
  subst hg
  rw [reorderInPlace, run_bind_get, run_bind_ok hblocks, run_bind_ok hselected]
  rfl

end Reordering

variable [Scalar α] {n : Nat} {tol : Tolerance α}

namespace StandardView

variable {view : StandardView n α σ} {factored : Bool} {put : StandardForm n α → σ}
  {form : StandardForm n α}

/-- States that differ in the form that they hold: `put form` holds `form`, and writing a matrix
through the view gives the state that holds the changed form. The forms all have a factor, or none
has one. -/
structure Holds (view : StandardView n α σ) (factored : Bool) (put : StandardForm n α → σ) :
    Prop where
  form_put : ∀ form, form.q.isSome = factored → view.form (put form) = form
  setS_put : ∀ form a, form.q.isSome = factored →
    view.setS a (put form) = put { form with s := a }
  setQ_put : ∀ form a, form.q.isSome = factored → form.q.isSome →
    view.setQ a (put form) = put { form with q := some a }
  s_setSelected : ∀ form flags, form.q.isSome = factored →
    view.s (view.setSelected flags (put form)) = form.s

/-- The factor of the form is turned, if there is one. -/
theorem Holds.turnFactor_put (h : view.Holds factored put) (hform : form.q.isSome = factored)
    (row : Nat) {m : Nat} (turn : Mat m m α) :
    turnFactor view.q view.setQ row turn (put form) =
      put { form with q := form.q.map fun q => q.transformColumns row turn } := by
  have hq : view.q (put form) = form.q := congrArg StandardForm.q (h.form_put form hform)
  obtain ⟨s, q⟩ := form
  rw [turnFactor, hq]
  cases q with
  | none => rfl
  | some q => exact h.setQ_put _ _ hform rfl

variable {row upper lower : Nat} (hupper : upper = 1 ∨ upper = 2) (hlower : lower = 1 ∨ lower = 2)

include hupper hlower

/-- An exchange that is accepted is written. -/
theorem Holds.run_exchange (h : view.Holds factored put) (hform : form.q.isSome = factored)
    {e : StandardExchange (upper + lower) α}
    (he : (form.attempt tol row upper lower).outcome = .ok e) :
    (view.exchange tol row upper lower).run (put form) = (.ok (), put (form.apply row e)) := by
  have hread : view.s (put form) = form.s := congrArg StandardForm.s (h.form_put form hform)
  rw [exchange, run_bind_ok (exchangeOrders_eq_ok hupper hlower row), run_bind_get,
    h.form_put form hform, run_bind_ok he, run_bind_modify, hread, h.setS_put _ _ hform]
  have hturned : ({ form with s := form.s.transformPatch row e.factor e.factor e.after } :
      StandardForm n α).q.isSome = factored := hform
  exact congrArg (Prod.mk _) (h.turnFactor_put hturned row e.factor)

/-- An exchange that is refused writes nothing. -/
theorem Holds.run_exchange_error (h : view.Holds factored put) (hform : form.q.isSome = factored)
    {reason : FormError α} (he : (form.attempt tol row upper lower).outcome = .error reason) :
    (view.exchange tol row upper lower).run (put form) = (.error reason, put form) := by
  rw [exchange, run_bind_ok (exchangeOrders_eq_ok hupper hlower row), run_bind_get,
    h.form_put form hform, run_bind_error he]

omit hupper hlower

/-- The state holds the form, and its factor is there as it is asked for. -/
structure HoldsForm (factored : Bool) (put : StandardForm n α → σ) (form : StandardForm n α)
    (state : σ) : Prop where
  factor : form.q.isSome = factored
  state_eq : state = put form

/-- An exchange in the state that holds a form is the exchange of the form. -/
theorem Holds.simulates (h : view.Holds factored put) (tol : Tolerance α)
    (st : Logged (StandardForm n α) (StandardAttempt α)) (state : σ) (row : Nat)
    (upper lower : Block α) (hstate : HoldsForm factored put st.form state) :
    HoldsForm factored put (standardAction tol st row upper.size lower.size).1.form
        (toAction (view.exchange tol) state row upper.size lower.size).1 ∧
      (toAction (view.exchange tol) state row upper.size lower.size).2 =
        (standardAction tol st row upper.size lower.size).2 := by
  obtain ⟨hform, rfl⟩ := hstate
  rcases standardAction_cases tol st row upper.size lower.size with ⟨e, he, hact⟩ | ⟨e, he, hact⟩
  · have hrun := h.run_exchange upper.size_cases lower.size_cases hform he
    rw [hact, toAction_of_ok hrun]
    exact ⟨⟨by simpa [StandardForm.apply] using hform, rfl⟩, rfl⟩
  · have hrun := h.run_exchange_error upper.size_cases lower.size_cases hform he
    rw [hact, toAction_of_error hrun]
    exact ⟨⟨hform, rfl⟩, rfl⟩

/-- A reordering in place fails where the reordering of the form does, before it writes anything. -/
theorem Holds.run_reorder_error (h : view.Holds factored put) (hform : form.q.isSome = factored)
    {e : FormError α} (he : form.reorder tol (view.selected (put form)) = .error e) :
    (view.reorder tol).run (put form) = (.error e, put form) := by
  have hs : view.s (put form) = form.s := congrArg StandardForm.s (h.form_put form hform)
  rcases StandardForm.reorder_eq_error.mp he with hblocks | ⟨blocks, hblocks, hselected⟩
  · exact run_reorderInPlace_of_unclassified (by rw [hs, hblocks])
  · exact run_reorderInPlace_of_unselected (by rw [hs, hblocks]) hselected

/-- A reordering in place reports what the reordering of the form does, and ends in the state that
holds the reordered form and the selection of what got to the front. -/
theorem Holds.run_reorder (h : view.Holds factored put) (hform : form.q.isSome = factored)
    {r : Reordering (StandardForm n α) (StandardAttempt α) (Eigenvalues n α) (FormError α)}
    (hr : form.reorder tol (view.selected (put form)) = .ok r) :
    (view.reorder tol).run (put form) =
      (.ok r.toReorderReport, view.setSelected r.selected (put r.form)) := by
  have hs : view.s (put form) = form.s := congrArg StandardForm.s (h.form_put form hform)
  obtain ⟨blocks, count, hblocks, hselected, rfl⟩ := StandardForm.reorder_eq_ok.mp hr
  obtain ⟨final, ⟨hfactor, rfl⟩, hgather⟩ := gather_simulates (h.simulates tol) blocks
    (view.selected (put form)) (⟨hform, rfl⟩ : HoldsForm factored put
      (⟨form, []⟩ : Logged (StandardForm n α) (StandardAttempt α)).form (put form))
  rw [reorder, run_reorderInPlace (by rw [hs, hblocks]) hselected hgather]
  simp only [Gathering.mapState, h.s_setSelected _ _ hfactor]
  rfl

end StandardView

namespace PencilView

variable {view : PencilView n α σ} {left right : Bool} {put : PencilForm n α → σ}
  {form : PencilForm n α}

/-- The factors of a pencil are there as it is asked for. -/
structure IsFactored (left right : Bool) (form : PencilForm n α) : Prop where
  q : form.q.isSome = left
  z : form.z.isSome = right

/-- States that differ in the pencil that they hold: `put form` holds `form`, and writing a matrix
through the view gives the state that holds the changed pencil. The same factors are there in all of
the pencils. -/
structure Holds (view : PencilView n α σ) (left right : Bool) (put : PencilForm n α → σ) :
    Prop where
  form_put : ∀ form, IsFactored left right form → view.form (put form) = form
  setS_put : ∀ form a, IsFactored left right form →
    view.setS a (put form) = put { form with s := a }
  setT_put : ∀ form a, IsFactored left right form →
    view.setT a (put form) = put { form with t := a }
  setQ_put : ∀ form a, IsFactored left right form → form.q.isSome →
    view.setQ a (put form) = put { form with q := some a }
  setZ_put : ∀ form a, IsFactored left right form → form.z.isSome →
    view.setZ a (put form) = put { form with z := some a }
  s_setSelected : ∀ form flags, IsFactored left right form →
    view.s (view.setSelected flags (put form)) = form.s
  t_setSelected : ∀ form flags, IsFactored left right form →
    view.t (view.setSelected flags (put form)) = form.t

omit [Scalar α] in
/-- The matrices that the views show. -/
theorem Holds.matrices_put (h : view.Holds left right put) (hform : IsFactored left right form) :
    view.s (put form) = form.s ∧ view.t (put form) = form.t :=
  ⟨congrArg PencilForm.s (h.form_put form hform), congrArg PencilForm.t (h.form_put form hform)⟩

/-- The left factor of the pencil is turned, if there is one. -/
theorem Holds.turnLeft_put (h : view.Holds left right put) (hform : IsFactored left right form)
    (row : Nat) {m : Nat} (turn : Mat m m α) :
    turnFactor view.q view.setQ row turn (put form) =
      put { form with q := form.q.map fun q => q.transformColumns row turn } := by
  have hq : view.q (put form) = form.q := congrArg PencilForm.q (h.form_put form hform)
  obtain ⟨s, t, q, z⟩ := form
  rw [turnFactor, hq]
  cases q with
  | none => rfl
  | some q => exact h.setQ_put _ _ hform rfl

/-- The right factor of the pencil is turned, if there is one. -/
theorem Holds.turnRight_put (h : view.Holds left right put) (hform : IsFactored left right form)
    (row : Nat) {m : Nat} (turn : Mat m m α) :
    turnFactor view.z view.setZ row turn (put form) =
      put { form with z := form.z.map fun z => z.transformColumns row turn } := by
  have hz : view.z (put form) = form.z := congrArg PencilForm.z (h.form_put form hform)
  obtain ⟨s, t, q, z⟩ := form
  rw [turnFactor, hz]
  cases z with
  | none => rfl
  | some z => exact h.setZ_put _ _ hform rfl

variable {row upper lower : Nat} (hupper : upper = 1 ∨ upper = 2) (hlower : lower = 1 ∨ lower = 2)

include hupper hlower

/-- An exchange that is accepted is written. -/
theorem Holds.run_exchange (h : view.Holds left right put) (hform : IsFactored left right form)
    {e : PencilExchange (upper + lower) α}
    (he : (form.attempt tol row upper lower).outcome = .ok e) :
    (view.exchange tol row upper lower).run (put form) = (.ok (), put (form.apply row e)) := by
  let s := form.s.transformPatch row e.left e.right e.s
  let t := form.t.transformPatch row e.left e.right e.t
  let q := form.q.map fun q => q.transformColumns row e.left
  have hs : IsFactored left right (⟨s, form.t, form.q, form.z⟩ : PencilForm n α) :=
    ⟨hform.q, hform.z⟩
  have ht : IsFactored left right (⟨s, t, form.q, form.z⟩ : PencilForm n α) := ⟨hform.q, hform.z⟩
  have hq : IsFactored left right (⟨s, t, q, form.z⟩ : PencilForm n α) :=
    ⟨by simpa [q] using hform.q, hform.z⟩
  rw [exchange, run_bind_ok (exchangeOrders_eq_ok hupper hlower row), run_bind_get,
    h.form_put form hform, run_bind_ok he, run_bind_modify, (h.matrices_put hform).1,
    h.setS_put _ _ hform]
  change (do
    modify fun state => view.setT ((view.t state).transformPatch row e.left e.right e.t) state
    modify (turnFactor view.q view.setQ row e.left)
    modify (turnFactor view.z view.setZ row e.right) : Operation α σ Unit).run
      (put ⟨s, form.t, form.q, form.z⟩) = _
  rw [run_bind_modify, (h.matrices_put hs).2, h.setT_put _ _ hs, run_bind_modify,
    h.turnLeft_put ht]
  exact congrArg (Prod.mk _) (h.turnRight_put hq row e.right)

/-- An exchange that is refused writes nothing. -/
theorem Holds.run_exchange_error (h : view.Holds left right put)
    (hform : IsFactored left right form) {reason : FormError α}
    (he : (form.attempt tol row upper lower).outcome = .error reason) :
    (view.exchange tol row upper lower).run (put form) = (.error reason, put form) := by
  rw [exchange, run_bind_ok (exchangeOrders_eq_ok hupper hlower row), run_bind_get,
    h.form_put form hform, run_bind_error he]

omit hupper hlower

/-- The state holds the pencil, and its factors are there as it is asked for. -/
structure HoldsForm (left right : Bool) (put : PencilForm n α → σ) (form : PencilForm n α)
    (state : σ) : Prop where
  factors : IsFactored left right form
  state_eq : state = put form

/-- An exchange in the state that holds a pencil is the exchange of the pencil. -/
theorem Holds.simulates (h : view.Holds left right put) (tol : Tolerance α)
    (st : Logged (PencilForm n α) (PencilAttempt α)) (state : σ) (row : Nat)
    (upper lower : Block α) (hstate : HoldsForm left right put st.form state) :
    HoldsForm left right put (pencilAction tol st row upper.size lower.size).1.form
        (toAction (view.exchange tol) state row upper.size lower.size).1 ∧
      (toAction (view.exchange tol) state row upper.size lower.size).2 =
        (pencilAction tol st row upper.size lower.size).2 := by
  obtain ⟨hform, rfl⟩ := hstate
  rcases pencilAction_cases tol st row upper.size lower.size with ⟨e, he, hact⟩ | ⟨e, he, hact⟩
  · have hrun := h.run_exchange upper.size_cases lower.size_cases hform he
    rw [hact, toAction_of_ok hrun]
    exact ⟨⟨⟨by simpa [PencilForm.apply] using hform.q, by simpa [PencilForm.apply] using hform.z⟩,
      rfl⟩, rfl⟩
  · have hrun := h.run_exchange_error upper.size_cases lower.size_cases hform he
    rw [hact, toAction_of_error hrun]
    exact ⟨⟨hform, rfl⟩, rfl⟩

/-- A reordering in place fails where the reordering of the pencil does, before it writes
anything. -/
theorem Holds.run_reorder_error (h : view.Holds left right put)
    (hform : IsFactored left right form) {e : FormError α}
    (he : form.reorder tol (view.selected (put form)) = .error e) :
    (view.reorder tol).run (put form) = (.error e, put form) := by
  obtain ⟨hs, ht⟩ := h.matrices_put hform
  rcases PencilForm.reorder_eq_error.mp he with hblocks | ⟨blocks, hblocks, hselected⟩
  · exact run_reorderInPlace_of_unclassified (by rw [hs, ht, hblocks])
  · exact run_reorderInPlace_of_unselected (by rw [hs, ht, hblocks]) hselected

/-- A reordering in place reports what the reordering of the pencil does, and ends in the state that
holds the reordered pencil and the selection of what got to the front. -/
theorem Holds.run_reorder (h : view.Holds left right put) (hform : IsFactored left right form)
    {r : Reordering (PencilForm n α) (PencilAttempt α) (PencilEigenvalues n α) (FormError α)}
    (hr : form.reorder tol (view.selected (put form)) = .ok r) :
    (view.reorder tol).run (put form) =
      (.ok r.toReorderReport, view.setSelected r.selected (put r.form)) := by
  obtain ⟨hs, ht⟩ := h.matrices_put hform
  obtain ⟨blocks, count, hblocks, hselected, rfl⟩ := PencilForm.reorder_eq_ok.mp hr
  obtain ⟨final, ⟨hfactors, rfl⟩, hgather⟩ := gather_simulates (h.simulates tol) blocks
    (view.selected (put form)) (⟨hform, rfl⟩ : HoldsForm left right put
      (⟨form, []⟩ : Logged (PencilForm n α) (PencilAttempt α)).form (put form))
  rw [reorder, run_reorderInPlace (by rw [hs, ht, hblocks]) hselected hgather]
  simp only [Gathering.mapState, h.s_setSelected _ _ hfactors, h.t_setSelected _ _ hfactors]
  rfl

end PencilView

end SchurForm
