import SchurForm.Proofs.InPlaceReordering
import SchurForm.Proofs.PackedColumns
import SchurForm.Proofs.StorageViews
import SchurForm.Storage.Pencil

/-!
# What operations on storage leave in the buffers

Every operation on flat storage checks its arguments before it writes. If the operation on the
matrices in the buffers fails, nothing has been written yet; else the writes, taken together, leave
its result in the buffers. `Computes` says this once, and it is shown by following each operation
step by step. With a negative status the buffers are as they were, since no operation on matrices
fails with an error whose status is not negative.
-/

namespace SchurForm

namespace Storage

open Operation

variable {α β δ buffers : Type}

/-- Run on some buffers, an operation leaves them with the result of a computation and answers with
its status; if there is no result, it fails and leaves the buffers as they are. -/
structure Answers (operation : Operation α buffers Status) (before : buffers)
    (outcome : Except (FormError α) β) (write : β → buffers) (status : β → Status) : Prop where
  ok : ∀ {r}, outcome = .ok r → operation.run before = (.ok (status r), write r)
  error : ∀ {e}, outcome = .error e → operation.run before = (.error e, before)

/-- An operation leaves the result of a computation from the buffers in them. -/
def Computes (operation : Operation α buffers Status)
    (compute : buffers → Except (FormError α) β) (write : buffers → β → buffers)
    (status : β → Status) : Prop :=
  ∀ b, Answers operation b (compute b) (write b) status

section Runs

variable {before : buffers} {write : β → buffers} {status : β → Status}

/-- Reading the buffers changes nothing. -/
theorem Answers.reading {next : buffers → Operation α buffers Status}
    {outcome : Except (FormError α) β} (h : Answers (next before) before outcome write status) :
    Answers (do let b ← get; next b : Operation α buffers Status) before outcome write status :=
  ⟨h.ok, h.error⟩

/-- A checked step comes before anything is written. -/
theorem Answers.check {step : Except (FormError α) δ} {next : δ → Operation α buffers Status}
    {compute : δ → Except (FormError α) β}
    (h : ∀ x, step = .ok x → Answers (next x) before (compute x) write status) :
    Answers (do let x ← step; next x : Operation α buffers Status) before (step >>= compute) write
      status := by
  cases step with
  | ok x => exact ⟨fun hr => (h x rfl).ok hr, fun he => (h x rfl).error he⟩
  | error e => exact ⟨nofun, fun he => by rw [run_bind_error rfl, Except.error.inj he]⟩

/-- What is written after the last step that may fail is the result of this step. -/
theorem Answers.writing {step : Except (FormError α) β} {next : β → Operation α buffers Status}
    (h : ∀ r, (next r).run before = (.ok (status r), write r)) :
    Answers (do let r ← step; next r : Operation α buffers Status) before step write status := by
  constructor
  · intro r hr
    rw [run_bind_ok hr, h]
  · intro e he
    rw [run_bind_error he]

end Runs

section Settling

variable {operation : Operation α buffers Status} {compute : buffers → Except (FormError α) β}
  {write : buffers → β → buffers} {status : β → Status} {matrixPosition : Nat}

/-- With a negative status nothing was stored: results have no negative status. -/
theorem Computes.settle_of_neg (h : Computes operation compute write status)
    (hstatus : ∀ r, 0 ≤ (status r).code) {b : buffers}
    (hneg : (settle matrixPosition operation b).1.code < 0) :
    (settle matrixPosition operation b).2 = b := by
  cases hcompute : compute b with
  | ok r =>
    rw [settle, (h b).ok hcompute] at hneg
    exact absurd hneg (Int.not_lt.mpr (hstatus r))
  | error e => rw [settle, (h b).error hcompute]

/-- With a status that is not negative there is a result, and it was stored. -/
theorem Computes.settle_of_nonneg (h : Computes operation compute write status)
    (hcharges : ∀ b, ChargesArguments (compute b)) (hmatrix : IsOrdinal matrixPosition)
    {b : buffers} (hnonneg : 0 ≤ (settle matrixPosition operation b).1.code) :
    ∃ r, compute b = .ok r ∧ settle matrixPosition operation b = (status r, write b r) := by
  cases hcompute : compute b with
  | ok r => exact ⟨r, rfl, by rw [settle, (h b).ok hcompute]⟩
  | error e =>
    rw [settle, (h b).error hcompute] at hnonneg
    exact absurd hnonneg (Int.not_le.mpr ((hcharges b e hcompute).code_neg hmatrix))

end Settling

end Storage

section Selections

variable [Scalar α] {n : Nat}

omit [Scalar α] in
/-- There are as many flags as the blocks have rows. -/
theorem length_askEach (ask : β → Bool) (offers : List (Block α × β)) :
    (Id.run (askEach (fun v => pure (ask v)) offers)).selected.length =
      Block.totalSize (offers.map Prod.fst) := by
  induction offers with
  | nil => rfl
  | cons offer rest ih => simp [askEach, ih]

/-- A selection classifies the form and asks the predicate. -/
theorem selectBy_eq_ok {s : Mat n n α} {test : α × α → Bool} {selection : Selection} :
    selectBy s test = .ok selection ↔ ∃ blocks, diagonalBlocks s = .ok blocks ∧
      Id.run (selectBlocks s blocks fun v => pure (test v)) = selection := by
  rw [selectBy, select]
  cases diagonalBlocks s <;> simp

/-- A selection by a test fails exactly if the form is not recognized. -/
theorem selectBy_eq_error {s : Mat n n α} {test : α × α → Bool} {e : FormError α} :
    selectBy s test = .error e ↔ diagonalBlocks s = .error e := by
  rw [selectBy, select]
  cases diagonalBlocks s <;> simp

/-- A selection classifies the pencil and asks the predicate. -/
theorem selectPencilBy_eq_ok {s t : Mat n n α} {test : α × α × α → Bool} {selection : Selection} :
    selectPencilBy s t test = .ok selection ↔ ∃ blocks, pencilBlocks s t = .ok blocks ∧
      Id.run (selectPencilBlocks s t blocks fun v => pure (test v)) = selection := by
  rw [selectPencilBy, selectPencil]
  cases pencilBlocks s t <;> simp

/-- A selection in a pencil fails exactly if the pencil is not recognized. -/
theorem selectPencilBy_eq_error {s t : Mat n n α} {test : α × α × α → Bool} {e : FormError α} :
    selectPencilBy s t test = .error e ↔ pencilBlocks s t = .error e := by
  rw [selectPencilBy, selectPencil]
  cases pencilBlocks s t <;> simp

/-- A selection that fails charges an argument. -/
theorem chargesArguments_selectBy (s : Mat n n α) (test : α × α → Bool) :
    ChargesArguments (selectBy s test) :=
  fun e h => chargesArguments_diagonalBlocks s e (selectBy_eq_error.mp h)

/-- A selection in a pencil that fails charges an argument. -/
theorem chargesArguments_selectPencilBy (s t : Mat n n α) (test : α × α × α → Bool) :
    ChargesArguments (selectPencilBy s t test) :=
  fun e h => chargesArguments_pencilBlocks s t e (selectPencilBy_eq_error.mp h)

/-- A selection has a flag for every row. -/
theorem length_selectBy {s : Mat n n α} {test : α × α → Bool} {selection : Selection}
    (h : selectBy s test = .ok selection) : selection.selected.length = n := by
  obtain ⟨blocks, hblocks, rfl⟩ := selectBy_eq_ok.mp h
  have hrows := (tiles_of_diagonalBlocks hblocks).last_eq
  rw [selectBlocks, length_askEach]
  simpa [Function.comp_def] using hrows.symm

/-- A selection has a flag for every row. -/
theorem length_selectPencilBy {s t : Mat n n α} {test : α × α × α → Bool} {selection : Selection}
    (h : selectPencilBy s t test = .ok selection) : selection.selected.length = n := by
  obtain ⟨blocks, hblocks, rfl⟩ := selectPencilBy_eq_ok.mp h
  have hrows := (tiles_of_pencilBlocks hblocks).last_eq
  rw [selectPencilBlocks, length_askEach]
  simpa [Function.comp_def] using hrows.symm

end Selections

section Vectors

variable [Scalar α] {n : Nat} {norm : Normalization} {selected : List Bool}

/-- Eigenvectors that cannot be computed are charged to an argument. -/
theorem StandardForm.chargesArguments_eigenvectors (form : StandardForm n α) :
    ChargesArguments (form.eigenvectors norm selected) :=
  (chargesArguments_diagonalBlocks form.s).bind fun blocks =>
    (chargesArguments_checkSelection blocks selected (by decide)).bind fun _ =>
      chargesArguments_ok _

/-- Eigenvectors of a pencil that cannot be computed are charged to an argument. -/
theorem PencilForm.chargesArguments_eigenvectors (form : PencilForm n α) :
    ChargesArguments (form.eigenvectors norm selected) :=
  (chargesArguments_pencilBlocks form.s form.t).bind fun blocks =>
    (chargesArguments_checkSelection blocks selected (by decide)).bind fun _ =>
      chargesArguments_ok _

end Vectors

/-- The status of a report is not negative. -/
theorem ReorderReport.code_status_nonneg {eig ε : Type} (r : ReorderReport eig ε) :
    0 ≤ r.status.code := by
  rw [status]
  split <;> decide

/-- The status of eigenvectors is not negative. -/
theorem Eigenvectors.code_status_nonneg {n : Nat} [Scalar α] (r : Eigenvectors n α) :
    0 ≤ (if r.isComplete then Status.success else Status.partialEigenvectors).code := by
  split <;> decide

namespace Storage

open Operation

variable [Scalar α] {n : Nat}

section Standard

/-- What a selection on storage computes. -/
def SelectBuffers.compute (n : Nat) (predicate : α × α → Bool) (b : SelectBuffers α) :
    Except (FormError α) Selection :=
  b.matrix n >>= fun s => selectBy s predicate

/-- A selection computes everything before it writes the flags and the count. -/
theorem SelectBuffers.computes_select (n : Nat) (predicate : α × α → Bool) :
    Computes (SelectBuffers.select n predicate) (SelectBuffers.compute n predicate)
      (fun b r => { b with selected := storeFlags b.selected r.selected, count := r.count })
      (fun _ => .success) :=
  fun _ => .reading (.check fun _ _ => .writing fun _ => rfl)

/-- A selection that fails charges an argument. -/
theorem SelectBuffers.chargesArguments_compute (n : Nat) (predicate : α × α → Bool)
    (b : SelectBuffers α) : ChargesArguments (b.compute n predicate) :=
  ChargesArguments.bind
    (.bind (chargesArguments_requireLeadingDimension (by decide)) fun _ =>
      .bind (chargesArguments_requireView (by decide)) fun _ =>
      .bind (chargesArguments_requireLength (by decide)) fun _ =>
        chargesArguments_ok _)
    fun s => chargesArguments_selectBy s predicate

/-- What a reordering on storage computes. -/
def ReorderBuffers.compute (tol : Tolerance α) (n : Nat) (b : ReorderBuffers α) :
    Except (FormError α)
      (Reordering (StandardForm n α) (StandardAttempt α) (Eigenvalues n α) (FormError α)) :=
  b.form n >>= fun form => form.reorder tol (frontFlags b.selected n)

/-- Buffers that pass the checks of a reordering, and the form in them. -/
theorem ReorderBuffers.form_eq_ok {b : ReorderBuffers α} {form : StandardForm n α}
    (h : b.form n = .ok form) :
    (Fits b.s.size n n b.lds ∧ Fits b.q.size n n b.ldq) ∧
      (n ≤ b.selected.size ∧ n ≤ b.real.size ∧ n ≤ b.imag.size) ∧
      form = ⟨load b.s b.lds n n, some (load b.q b.ldq n n)⟩ := by
  simp only [ReorderBuffers.form, checked_bind_eq_ok, requireLeadingDimension_eq_ok,
    requireView_eq_ok, requireLength_eq_ok, pure, Except.pure, Except.ok.injEq] at h
  obtain ⟨-, hselected, -, hlds, -, hldq, -, hreal, -, himag, -, ⟨hs, -⟩, -, ⟨hq, -⟩, rfl⟩ := h
  exact ⟨⟨⟨hlds, hs⟩, ⟨hldq, hq⟩⟩, ⟨hselected, hreal, himag⟩, rfl⟩

/-- The buffers with a form stored over the one in them. -/
def ReorderBuffers.put (b : ReorderBuffers α) (form : StandardForm n α) : ReorderBuffers α :=
  { b with s := store b.s b.lds form.s, q := (form.q.map (store b.q b.ldq)).getD b.q }

/-- Buffers hold the forms that are stored in them. -/
theorem ReorderBuffers.holds_put {b : ReorderBuffers α} (hs : Fits b.s.size n n b.lds)
    (hq : Fits b.q.size n n b.ldq) : (ReorderBuffers.view n).Holds true b.put := by
  refine ⟨fun form hform => ?_, fun form a _ => ?_, fun form a hform _ => ?_, fun form _ _ => ?_⟩
  · obtain ⟨s, q | q⟩ := form
    · nomatch hform
    · simp [StandardView.form, view, put, load_store hs, load_store hq]
  · simp [view, put, store_store]
  · obtain ⟨s, q | q⟩ := form
    · nomatch hform
    · simp [view, put, store_store]
  · simp [view, put, load_store hs]

/-- A reordering fails before it writes anything, or writes the reordered form, the flags and the
eigenvalues. -/
theorem ReorderBuffers.computes_reorder (tol : Tolerance α) (n : Nat) :
    Computes (ReorderBuffers.reorder tol n) (ReorderBuffers.compute tol n)
      (fun b r => { b with
        selected := storeFlags b.selected r.selected
        s := store b.s b.lds r.form.s
        q := (r.form.q.map (store b.q b.ldq)).getD b.q
        real := storeFront b.real r.eigenvalues.real
        imag := storeFront b.imag r.eigenvalues.imag })
      fun r => r.status := by
  refine fun b => .reading (.check fun form hform => ?_)
  obtain ⟨⟨hs, hq⟩, -, heq⟩ := ReorderBuffers.form_eq_ok hform
  have hput : b.put form = b := by simp [ReorderBuffers.put, heq, store_load]
  have hsome : form.q.isSome = true := by rw [heq]; rfl
  have hholds := ReorderBuffers.holds_put hs hq
  constructor
  · intro r hr
    have hrun := hholds.run_reorder hsome (hput.symm ▸ hr)
    rw [hput] at hrun
    rw [run_bind_of_ok hrun]
    rfl
  · intro e he
    have hrun := hholds.run_reorder_error hsome (hput.symm ▸ he)
    rw [hput] at hrun
    rw [run_bind_of_error hrun]

/-- A reordering in storage that fails charges an argument. -/
theorem ReorderBuffers.chargesArguments_compute (tol : Tolerance α) (n : Nat)
    (b : ReorderBuffers α) : ChargesArguments (b.compute tol n) :=
  ChargesArguments.bind
    (.bind (chargesArguments_requireLength (by decide)) fun _ =>
      .bind (chargesArguments_requireLeadingDimension (by decide)) fun _ =>
      .bind (chargesArguments_requireLeadingDimension (by decide)) fun _ =>
      .bind (chargesArguments_requireLength (by decide)) fun _ =>
      .bind (chargesArguments_requireLength (by decide)) fun _ =>
      .bind (chargesArguments_requireView (by decide)) fun _ =>
      .bind (chargesArguments_requireView (by decide)) fun _ =>
        chargesArguments_ok _)
    fun form => form.chargesArguments_reorder _

/-- What the eigenvectors of a form in storage are. -/
def EigenvectorBuffers.compute (n : Nat) (b : EigenvectorBuffers α) :
    Except (FormError α) (Eigenvectors n α) :=
  b.form n >>= fun form => form.eigenvectors .maxAbs (frontFlags b.selected n)

/-- Eigenvectors are computed before any of them is written. -/
theorem EigenvectorBuffers.computes_eigenvectors (n : Nat) :
    Computes (EigenvectorBuffers.eigenvectors (α := α) n) (EigenvectorBuffers.compute n)
      (fun b r => { b with x := store b.x b.ldx r.matrix })
      (fun r => if r.isComplete then .success else .partialEigenvectors) :=
  fun _ => .reading (.check fun _ _ => .writing fun _ => rfl)

/-- Eigenvectors that cannot be computed are charged to an argument. -/
theorem EigenvectorBuffers.chargesArguments_compute (n : Nat) (b : EigenvectorBuffers α) :
    ChargesArguments (b.compute n) :=
  ChargesArguments.bind
    (.bind (chargesArguments_requireLength (by decide)) fun _ =>
      .bind (chargesArguments_requireLeadingDimension (by decide)) fun _ =>
      .bind (chargesArguments_requireLeadingDimension (by decide)) fun _ =>
      .bind (chargesArguments_requireLeadingDimension (by decide)) fun _ =>
      .bind (chargesArguments_requireView (by decide)) fun _ =>
      .bind (chargesArguments_requireView (by decide)) fun _ =>
      .bind (chargesArguments_requireView (by decide)) fun _ =>
        chargesArguments_ok _)
    fun form => form.chargesArguments_eigenvectors

end Standard

section Pencil

/-- What a selection on storage computes. -/
def PencilSelectBuffers.compute (n : Nat) (predicate : α × α × α → Bool)
    (b : PencilSelectBuffers α) : Except (FormError α) Selection :=
  b.matrices n >>= fun a => selectPencilBy a.1 a.2 predicate

/-- A selection in a pencil computes everything before it writes the flags and the count. -/
theorem PencilSelectBuffers.computes_select (n : Nat) (predicate : α × α × α → Bool) :
    Computes (PencilSelectBuffers.select n predicate) (PencilSelectBuffers.compute n predicate)
      (fun b r => { b with selected := storeFlags b.selected r.selected, count := r.count })
      (fun _ => .success) :=
  fun _ => .reading (.check fun _ _ => .writing fun _ => rfl)

/-- A selection in a pencil that fails charges an argument. -/
theorem PencilSelectBuffers.chargesArguments_compute (n : Nat) (predicate : α × α × α → Bool)
    (b : PencilSelectBuffers α) : ChargesArguments (b.compute n predicate) :=
  ChargesArguments.bind
    (.bind (chargesArguments_requireLeadingDimension (by decide)) fun _ =>
      .bind (chargesArguments_requireLeadingDimension (by decide)) fun _ =>
      .bind (chargesArguments_requireView (by decide)) fun _ =>
      .bind (chargesArguments_requireView (by decide)) fun _ =>
      .bind (chargesArguments_requireLength (by decide)) fun _ =>
        chargesArguments_ok _)
    fun a => chargesArguments_selectPencilBy a.1 a.2 predicate

/-- What a reordering on storage computes. -/
def PencilReorderBuffers.compute (tol : Tolerance α) (n : Nat) (b : PencilReorderBuffers α) :
    Except (FormError α)
      (Reordering (PencilForm n α) (PencilAttempt α) (PencilEigenvalues n α) (FormError α)) :=
  b.form n >>= fun form => form.reorder tol (frontFlags b.selected n)

/-- Buffers that pass the checks of a reordering, and the pencil in them. -/
theorem PencilReorderBuffers.form_eq_ok {b : PencilReorderBuffers α} {form : PencilForm n α}
    (h : b.form n = .ok form) :
    (Fits b.s.size n n b.lds ∧ Fits b.t.size n n b.ldt ∧ Fits b.q.size n n b.ldq ∧
      Fits b.z.size n n b.ldz) ∧
      (n ≤ b.selected.size ∧ n ≤ b.real.size ∧ n ≤ b.imag.size ∧ n ≤ b.beta.size) ∧
      form = ⟨load b.s b.lds n n, load b.t b.ldt n n, some (load b.q b.ldq n n),
        some (load b.z b.ldz n n)⟩ := by
  simp only [PencilReorderBuffers.form, checked_bind_eq_ok, requireLeadingDimension_eq_ok,
    requireView_eq_ok, requireLength_eq_ok, pure, Except.pure, Except.ok.injEq] at h
  obtain ⟨-, hselected, -, hlds, -, hldt, -, hldq, -, hldz, -, hreal, -, himag, -, hbeta, -,
    ⟨hs, -⟩, -, ⟨ht, -⟩, -, ⟨hq, -⟩, -, ⟨hz, -⟩, rfl⟩ := h
  exact ⟨⟨⟨hlds, hs⟩, ⟨hldt, ht⟩, ⟨hldq, hq⟩, ⟨hldz, hz⟩⟩, ⟨hselected, hreal, himag, hbeta⟩, rfl⟩

/-- The buffers with a pencil stored over the one in them. -/
def PencilReorderBuffers.put (b : PencilReorderBuffers α) (form : PencilForm n α) :
    PencilReorderBuffers α :=
  { b with
    s := store b.s b.lds form.s
    t := store b.t b.ldt form.t
    q := (form.q.map (store b.q b.ldq)).getD b.q
    z := (form.z.map (store b.z b.ldz)).getD b.z }

/-- Buffers hold the pencils that are stored in them. -/
theorem PencilReorderBuffers.holds_put {b : PencilReorderBuffers α} (hs : Fits b.s.size n n b.lds)
    (ht : Fits b.t.size n n b.ldt) (hq : Fits b.q.size n n b.ldq) (hz : Fits b.z.size n n b.ldz) :
    (PencilReorderBuffers.view n).Holds true true b.put := by
  refine ⟨fun form hform => ?_, fun form a _ => ?_, fun form a _ => ?_, fun form a hform _ => ?_,
    fun form a hform _ => ?_, fun form _ _ => ?_, fun form _ _ => ?_⟩
  · obtain ⟨s, t, q | q, z | z⟩ := form
    · nomatch hform.q
    · nomatch hform.q
    · nomatch hform.z
    · simp [PencilView.form, view, put, load_store hs, load_store ht, load_store hq, load_store hz]
  · simp [view, put, store_store]
  · simp [view, put, store_store]
  · obtain ⟨s, t, q | q, z⟩ := form
    · nomatch hform.q
    · simp [view, put, store_store]
  · obtain ⟨s, t, q, z | z⟩ := form
    · nomatch hform.z
    · simp [view, put, store_store]
  · simp [view, put, load_store hs]
  · simp [view, put, load_store ht]

/-- A reordering of a pencil fails before it writes anything, or writes the reordered pencil, the
flags and the eigenvalues. -/
theorem PencilReorderBuffers.computes_reorder (tol : Tolerance α) (n : Nat) :
    Computes (PencilReorderBuffers.reorder tol n) (PencilReorderBuffers.compute tol n)
      (fun b r => { b with
        selected := storeFlags b.selected r.selected
        s := store b.s b.lds r.form.s
        t := store b.t b.ldt r.form.t
        q := (r.form.q.map (store b.q b.ldq)).getD b.q
        z := (r.form.z.map (store b.z b.ldz)).getD b.z
        real := storeFront b.real r.eigenvalues.real
        imag := storeFront b.imag r.eigenvalues.imag
        beta := storeFront b.beta r.eigenvalues.beta })
      fun r => r.status := by
  refine fun b => .reading (.check fun form hform => ?_)
  obtain ⟨⟨hs, ht, hq, hz⟩, -, heq⟩ := PencilReorderBuffers.form_eq_ok hform
  have hput : b.put form = b := by simp [PencilReorderBuffers.put, heq, store_load]
  have hsome : PencilView.IsFactored true true form := by rw [heq]; exact ⟨rfl, rfl⟩
  have hholds := PencilReorderBuffers.holds_put hs ht hq hz
  constructor
  · intro r hr
    have hrun := hholds.run_reorder hsome (hput.symm ▸ hr)
    rw [hput] at hrun
    rw [run_bind_of_ok hrun]
    rfl
  · intro e he
    have hrun := hholds.run_reorder_error hsome (hput.symm ▸ he)
    rw [hput] at hrun
    rw [run_bind_of_error hrun]

/-- A reordering of a pencil in storage that fails charges an argument. -/
theorem PencilReorderBuffers.chargesArguments_compute (tol : Tolerance α) (n : Nat)
    (b : PencilReorderBuffers α) : ChargesArguments (b.compute tol n) :=
  ChargesArguments.bind
    (.bind (chargesArguments_requireLength (by decide)) fun _ =>
      .bind (chargesArguments_requireLeadingDimension (by decide)) fun _ =>
      .bind (chargesArguments_requireLeadingDimension (by decide)) fun _ =>
      .bind (chargesArguments_requireLeadingDimension (by decide)) fun _ =>
      .bind (chargesArguments_requireLeadingDimension (by decide)) fun _ =>
      .bind (chargesArguments_requireLength (by decide)) fun _ =>
      .bind (chargesArguments_requireLength (by decide)) fun _ =>
      .bind (chargesArguments_requireLength (by decide)) fun _ =>
      .bind (chargesArguments_requireView (by decide)) fun _ =>
      .bind (chargesArguments_requireView (by decide)) fun _ =>
      .bind (chargesArguments_requireView (by decide)) fun _ =>
      .bind (chargesArguments_requireView (by decide)) fun _ =>
        chargesArguments_ok _)
    fun form => form.chargesArguments_reorder _

/-- What the eigenvectors of a pencil in storage are. -/
def PencilEigenvectorBuffers.compute (n : Nat) (b : PencilEigenvectorBuffers α) :
    Except (FormError α) (Eigenvectors n α) :=
  b.form n >>= fun form => form.eigenvectors .maxAbs (frontFlags b.selected n)

/-- Eigenvectors of a pencil are computed before any of them is written. -/
theorem PencilEigenvectorBuffers.computes_eigenvectors (n : Nat) :
    Computes (PencilEigenvectorBuffers.eigenvectors (α := α) n)
      (PencilEigenvectorBuffers.compute n)
      (fun b r => { b with x := store b.x b.ldx r.matrix })
      (fun r => if r.isComplete then .success else .partialEigenvectors) :=
  fun _ => .reading (.check fun _ _ => .writing fun _ => rfl)

/-- Eigenvectors of a pencil that cannot be computed are charged to an argument. -/
theorem PencilEigenvectorBuffers.chargesArguments_compute (n : Nat)
    (b : PencilEigenvectorBuffers α) : ChargesArguments (b.compute n) :=
  ChargesArguments.bind
    (.bind (chargesArguments_requireLength (by decide)) fun _ =>
      .bind (chargesArguments_requireLeadingDimension (by decide)) fun _ =>
      .bind (chargesArguments_requireLeadingDimension (by decide)) fun _ =>
      .bind (chargesArguments_requireLeadingDimension (by decide)) fun _ =>
      .bind (chargesArguments_requireLeadingDimension (by decide)) fun _ =>
      .bind (chargesArguments_requireView (by decide)) fun _ =>
      .bind (chargesArguments_requireView (by decide)) fun _ =>
      .bind (chargesArguments_requireView (by decide)) fun _ =>
      .bind (chargesArguments_requireView (by decide)) fun _ =>
        chargesArguments_ok _)
    fun form => form.chargesArguments_eigenvectors

end Pencil

end Storage

end SchurForm
