import SchurForm.Exchange.Pencil
import SchurForm.Exchange.Standard
import SchurForm.Reordering.Gathering
import SchurForm.Reordering.Transform

/-!
# Reordering a Schur form

Selected eigenvalues are moved to the leading part of a standard form or of a pencil. Every exchange
is applied to the matrices and to the accumulated orthogonal factors, and every attempt is logged. A
refused exchange is not an error: it ends the gathering, and the selection then marks the
eigenvalues that did reach the front.
-/

namespace SchurForm

variable {α : Type} [Scalar α] {n : Nat}

/-- A standard form with the orthogonal factor accumulated so far, if it is wanted. -/
structure StandardForm (n : Nat) (α : Type) where
  s : Mat n n α
  q : Option (Mat n n α)

/-- A pencil with the left and right orthogonal factors accumulated so far, if they are wanted. -/
structure PencilForm (n : Nat) (α : Type) where
  s : Mat n n α
  t : Mat n n α
  q : Option (Mat n n α)
  z : Option (Mat n n α)

/-- An attempt to exchange two blocks of a standard form: the patch and what came of it. -/
structure StandardAttempt (α : Type) where
  row : Nat
  upper : Nat
  lower : Nat
  patch : Mat (upper + lower) (upper + lower) α
  outcome : Except (FormError α) (StandardExchange (upper + lower) α)

/-- An attempt to exchange two blocks of a pencil: the patches and what came of it. -/
structure PencilAttempt (α : Type) where
  row : Nat
  upper : Nat
  lower : Nat
  patchS : Mat (upper + lower) (upper + lower) α
  patchT : Mat (upper + lower) (upper + lower) α
  outcome : Except (FormError α) (PencilExchange (upper + lower) α)

/-- A form with the attempts made on it so far. -/
structure Logged (form attempt : Type) where
  form : form
  log : List attempt

/-- What a reordering answers. -/
structure ReorderReport (eig ε : Type) where
  /-- The number of exchanges that were carried out. -/
  swaps : Nat
  /-- The number of eigenvalues at the front. -/
  reordered : Nat
  rejected : Option ε
  eigenvalues : eig

namespace ReorderReport

variable {eig eig' ε : Type}

/-- No exchange was refused. -/
def isComplete (r : ReorderReport eig ε) : Bool :=
  r.rejected.isNone

/-- A refused exchange leaves a partial reordering behind. -/
def status (r : ReorderReport eig ε) : Status :=
  if r.isComplete then .success else .partialReordering

/-- The report with the eigenvalues in another form. -/
def withEigenvalues (r : ReorderReport eig ε) (eigenvalues : eig') : ReorderReport eig' ε :=
  { r with eigenvalues }

end ReorderReport

/-- What a reordering did. -/
structure Reordering (form attempt eig ε : Type) extends ReorderReport eig ε where
  form : form
  /-- The attempts in order; the last one is the refused one, if there is one. -/
  log : List attempt
  /-- The selection of the eigenvalues at the front. -/
  selected : List Bool

/-- Apply an exchange at the given row to the form and its factor. -/
def StandardForm.apply {m : Nat} (form : StandardForm n α) (row : Nat)
    (e : StandardExchange m α) : StandardForm n α :=
  { s := form.s.transformPatch row e.factor e.factor e.after
    q := form.q.map fun q => q.transformColumns row e.factor }

/-- Apply an exchange at the given row to the pencil and its factors. -/
def PencilForm.apply {m : Nat} (form : PencilForm n α) (row : Nat)
    (e : PencilExchange m α) : PencilForm n α :=
  { s := form.s.transformPatch row e.left e.right e.s
    t := form.t.transformPatch row e.left e.right e.t
    q := form.q.map fun q => q.transformColumns row e.left
    z := form.z.map fun z => z.transformColumns row e.right }

/-- Try to exchange the blocks of order `upper` and `lower` that start in the given row. -/
def StandardForm.attempt (tol : Tolerance α) (form : StandardForm n α) (row upper lower : Nat) :
    StandardAttempt α :=
  let patch : Mat (upper + lower) (upper + lower) α := form.s.block row row
  { row, upper, lower, patch, outcome := exchangeStandard tol row patch }

/-- Try to exchange the block pairs of order `upper` and `lower` that start in the given row. -/
def PencilForm.attempt (tol : Tolerance α) (form : PencilForm n α) (row upper lower : Nat) :
    PencilAttempt α :=
  let patchS : Mat (upper + lower) (upper + lower) α := form.s.block row row
  let patchT : Mat (upper + lower) (upper + lower) α := form.t.block row row
  { row, upper, lower, patchS, patchT, outcome := exchangePencil tol row patchS patchT }

/-- The exchange of adjacent blocks of a standard form. -/
def standardAction (tol : Tolerance α) :
    ExchangeAction (Logged (StandardForm n α) (StandardAttempt α)) (FormError α) :=
  fun st row upper lower =>
    let attempt := st.form.attempt tol row upper lower
    let log := st.log ++ [attempt]
    match attempt.outcome with
    | .ok e => (⟨st.form.apply row e, log⟩, none)
    | .error reason => (⟨st.form, log⟩, some reason)

/-- The exchange of adjacent block pairs of a pencil. -/
def pencilAction (tol : Tolerance α) :
    ExchangeAction (Logged (PencilForm n α) (PencilAttempt α)) (FormError α) :=
  fun st row upper lower =>
    let attempt := st.form.attempt tol row upper lower
    let log := st.log ++ [attempt]
    match attempt.outcome with
    | .ok e => (⟨st.form.apply row e, log⟩, none)
    | .error reason => (⟨st.form, log⟩, some reason)

/-- A block with the eigenvalue that its entries have now; an eigenvalue that cannot be found stays
as it was. -/
def Block.reread (find : Nat → Option (α × α)) : Block α → Block α
  | .real k => .real k
  | .pair k re im =>
    let eigenvalue := (find k).getD (re, im)
    .pair k eigenvalue.1 eigenvalue.2

/-- The report of a finished gathering in a standard form. -/
def StandardForm.report
    (g : Gathering α (Logged (StandardForm n α) (StandardAttempt α)) (FormError α)) :
    Reordering (StandardForm n α) (StandardAttempt α) (Eigenvalues n α) (FormError α) :=
  let form := g.state.form
  let front := markFront n g.blocks g.gathered
  { form, log := g.state.log, swaps := g.swaps, reordered := front.2
    rejected := g.rejected, selected := front.1
    eigenvalues := SchurForm.eigenvalues form.s (g.blocks.map (Block.reread (pairAt form.s))) }

/-- The report of a finished gathering in a pencil. -/
def PencilForm.report
    (g : Gathering α (Logged (PencilForm n α) (PencilAttempt α)) (FormError α)) :
    Reordering (PencilForm n α) (PencilAttempt α) (PencilEigenvalues n α) (FormError α) :=
  let form := g.state.form
  let front := markFront n g.blocks g.gathered
  { form, log := g.state.log, swaps := g.swaps, reordered := front.2
    rejected := g.rejected, selected := front.1
    eigenvalues := pencilEigenvalues form.s form.t
      (g.blocks.map (Block.reread (pencilPairAt form.s form.t))) }

/-- Move the selected eigenvalues of a standard form to the front. -/
def StandardForm.reorder (tol : Tolerance α) (form : StandardForm n α) (selected : List Bool) :
    Except (FormError α)
      (Reordering (StandardForm n α) (StandardAttempt α) (Eigenvalues n α) (FormError α)) := do
  let blocks ← diagonalBlocks form.s
  let _ ← checkSelection blocks selected 2
  return StandardForm.report (gather (standardAction tol) blocks selected ⟨form, []⟩)

/-- Move the selected eigenvalues of a pencil to the front. -/
def PencilForm.reorder (tol : Tolerance α) (form : PencilForm n α) (selected : List Bool) :
    Except (FormError α)
      (Reordering (PencilForm n α) (PencilAttempt α) (PencilEigenvalues n α) (FormError α)) := do
  let blocks ← pencilBlocks form.s form.t
  let _ ← checkSelection blocks selected 2
  return PencilForm.report (gather (pencilAction tol) blocks selected ⟨form, []⟩)

/-- An optional factor of unknown dimensions as a square matrix of order `n`. -/
def Table.factorOf? (n position : Nat) (name : String) :
    Option (Table α) → Except (FormError α) (Option (Mat n n α))
  | none => .ok none
  | some a =>
    if a.rows = n ∧ a.cols = n then .ok (some (a.leading n n))
    else .error (.invalidArgument position name (.wrongDimensions n a.rows a.cols))

/-- A standard form from matrices of unknown dimensions. -/
def StandardForm.ofTables (s : Table α) (q : Option (Table α)) :
    Except (FormError α) ((n : Nat) × StandardForm n α) := do
  let ⟨n, s⟩ ← s.square "S"
  let q ← Table.factorOf? n 5 "Q" q
  return ⟨n, { s, q }⟩

/-- A pencil from matrices of unknown dimensions. -/
def PencilForm.ofTables (s t : Table α) (q z : Option (Table α)) :
    Except (FormError α) ((n : Nat) × PencilForm n α) := do
  let ⟨n, s⟩ ← s.square "S"
  let q ← Table.factorOf? n 7 "Q" q
  let z ← Table.factorOf? n 9 "Z" z
  let t ← t.squareOf "T" n
  return ⟨n, { s, t, q, z }⟩

end SchurForm
