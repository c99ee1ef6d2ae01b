import Mathlib.Order.Bounds.Basic
import SchurForm.Binary64
import SchurForm.Proofs.StorageOperations

/-!
# Which invalid argument a status names

The arguments of an operation on flat storage are checked one after the other, so the status names
the first failing one in the order of the checks. That order is not the order of the parameters:
arrays and leading dimensions are checked in a first round, the slices that hold matrices in a
second one. A failing slice is therefore named only if nothing fails in the first round, also where
it stands before the argument that does.
-/

namespace SchurForm

namespace Storage

variable {α β δ : Type}

section Order

variable {fails : Nat → Prop} {i : Nat}

/-- The first of some arguments that fails. -/
def FirstFails (fails : Nat → Prop) : List Nat → Nat → Prop
  | [], _ => False
  | j :: rest, i => fails j ∧ i = j ∨ ¬fails j ∧ FirstFails fails rest i

/-- If anything in a list fails, something fails first. -/
theorem exists_firstFails {order : List Nat} (h : ∃ j ∈ order, fails j) :
    ∃ i, FirstFails fails order i := by
  induction order with
  | nil => simp at h
  | cons j rest ih =>
    by_cases hj : fails j
    · exact ⟨j, .inl ⟨hj, rfl⟩⟩
    · have hrest : ∃ k ∈ rest, fails k := by simpa [hj] using h
      obtain ⟨i, hi⟩ := ih hrest
      exact ⟨i, .inr ⟨hj, hi⟩⟩

/-- If nothing fails in a first round of checks, the first failure is that of the second round. -/
theorem firstFails_append {early late : List Nat} (h : FirstFails fails (early ++ late) i) :
    FirstFails fails early i ∨ (∀ j ∈ early, ¬fails j) ∧ FirstFails fails late i := by
  induction early with
  | nil => exact .inr ⟨by simp, h⟩
  | cons j early ih =>
    rcases h with hj | ⟨hj, hrest⟩
    · exact .inl (.inl hj)
    · rcases ih hrest with hearly | ⟨hnone, hlate⟩
      · exact .inl (.inr ⟨hj, hearly⟩)
      · exact .inr ⟨by simpa [hj] using hnone, hlate⟩

/-- Where arguments are checked in their order, the first failing one is the smallest. -/
theorem FirstFails.isLeast {order : List Nat} (horder : order.Pairwise (· < ·))
    (h : FirstFails fails order i) : IsLeast {j | fails j ∧ j ∈ order} i := by
  induction order with
  | nil => exact h.elim
  | cons j rest ih =>
    obtain ⟨hbefore, hrest⟩ := List.pairwise_cons.mp horder
    rcases h with ⟨hj, rfl⟩ | ⟨hj, h⟩
    · refine ⟨⟨hj, List.mem_cons_self⟩, fun k ⟨_, hk⟩ => ?_⟩
      rcases List.mem_cons.mp hk with rfl | hk
      · exact le_rfl
      · exact (hbefore k hk).le
    · obtain ⟨⟨hi, hmem⟩, hleast⟩ := ih hrest h
      refine ⟨⟨hi, List.mem_cons_of_mem j hmem⟩, fun k ⟨hfails, hk⟩ => ?_⟩
      rcases List.mem_cons.mp hk with rfl | hk
      · exact absurd hfails hj
      · exact hleast ⟨hfails, hk⟩

/-- The failing argument that is found by two rounds of checks: the smallest one of the first round,
or the smallest one of the second round if nothing fails in the first. -/
def Charged (fails : Nat → Prop) (late : List Nat) (i : Nat) : Prop :=
  IsLeast {j | fails j ∧ j ∉ late} i ∨ (∀ j, fails j → j ∈ late) ∧ IsLeast {j | fails j} i

/-- The charged argument is the smallest failing one unless a smaller one of the second round fails
beside an argument of the first round. -/
theorem Charged.isLeast {late : List Nat} (h : Charged fails late i)
    (hlate : ∀ j ∈ late, fails j → ∀ k ∉ late, fails k → k ≤ j) : IsLeast {j | fails j} i := by
  rcases h with ⟨⟨hi, hmem⟩, hleast⟩ | ⟨-, h⟩
  · refine ⟨hi, fun j hj => ?_⟩
    by_cases hround : j ∈ late
    · exact hlate j hround hj i hmem hi
    · exact hleast ⟨hj, hround⟩
  · exact h

/-- A slice is too short for a matrix with a valid leading dimension. -/
def SliceTooShort (size rows cols ld : Nat) : Prop :=
  max rows 1 ≤ ld ∧ size < span rows cols ld

instance (size rows cols ld : Nat) : Decidable (SliceTooShort size rows cols ld) :=
  inferInstanceAs (Decidable (_ ∧ _))

/-- What an argument has to be long enough for. -/
inductive SizeCheck where
  /-- A leading dimension for a matrix with that many rows. -/
  | leading (ld rows : Nat)
  /-- An array of flags or of eigenvalues. -/
  | array (size n : Nat)
  /-- A slice that holds a matrix. -/
  | slice (size rows cols ld : Nat)

/-- The argument is not long enough. -/
def SizeCheck.Fails : SizeCheck → Prop
  | .leading ld rows => ld < max rows 1
  | .array size n => size < n
  | .slice size rows cols ld => SliceTooShort size rows cols ld

/-- The argument holds a matrix whose span is no machine word. -/
def SizeCheck.Wraps : SizeCheck → Prop
  | .leading _ _ => False
  | .array _ _ => False
  | .slice _ rows cols ld => wordCount ≤ span rows cols ld

/-- The arguments that are checked, by ordinal. -/
abbrev Checks := List (Nat × SizeCheck)

/-- The argument with the given ordinal fails its check. -/
def Checks.Fails (checks : Checks) (j : Nat) : Prop :=
  (checks.lookup j).elim False SizeCheck.Fails

/-- The argument with the given ordinal holds a matrix whose span is no machine word. -/
def Checks.Wraps (checks : Checks) (j : Nat) : Prop :=
  (checks.lookup j).elim False SizeCheck.Wraps

/-- Only what is checked fails. -/
theorem Checks.mem_of_fails {checks : Checks} {j : Nat} (h : checks.Fails j) :
    j ∈ checks.map Prod.fst := by
  induction checks with
  | nil => exact h.elim
  | cons check checks ih =>
    rw [List.map_cons, List.mem_cons]
    by_cases hj : j = check.1
    · exact .inl hj
    · have hother : (j == check.1) = false := beq_false_of_ne hj
      rw [Fails, List.lookup_cons, hother] at h
      exact .inr (ih h)

/-- Two rounds of checks of the arguments with the given ordinals, each round in their order. -/
structure TwoRounds (ordinals early late : List Nat) : Prop where
  early_sorted : early.Pairwise (· < ·)
  late_sorted : late.Pairwise (· < ·)
  disjoint : ∀ j ∈ early, j ∉ late
  ordinal : ∀ j ∈ early ++ late, IsOrdinal j
  complete : ∀ j ∈ ordinals, j ∈ early ++ late

instance (ordinals early late : List Nat) : Decidable (TwoRounds ordinals early late) :=
  decidable_of_iff
    (early.Pairwise (· < ·) ∧ late.Pairwise (· < ·) ∧ (∀ j ∈ early, j ∉ late) ∧
      (∀ j ∈ early ++ late, IsOrdinal j) ∧ ∀ j ∈ ordinals, j ∈ early ++ late)
    ⟨fun ⟨h₁, h₂, h₃, h₄, h₅⟩ => ⟨h₁, h₂, h₃, h₄, h₅⟩, fun ⟨h₁, h₂, h₃, h₄, h₅⟩ =>
      ⟨h₁, h₂, h₃, h₄, h₅⟩⟩

/-- What fails is checked in one of the two rounds. -/
theorem TwoRounds.mem_of_fails {checks : Checks} {early late : List Nat} {j : Nat}
    (h : TwoRounds (checks.map Prod.fst) early late) (hj : checks.Fails j) : j ∈ early ++ late :=
  h.complete j (Checks.mem_of_fails hj)

/-- What fails first in the order of the rounds is charged. -/
theorem TwoRounds.charged {checks : Checks} {early late : List Nat}
    (h : TwoRounds (checks.map Prod.fst) early late)
    (hfirst : FirstFails checks.Fails (early ++ late) i) :
    Charged checks.Fails late i := by
  have hmem : ∀ j, checks.Fails j → j ∈ early ∨ j ∈ late := fun j hj =>
    List.mem_append.mp (h.mem_of_fails hj)
  rcases firstFails_append hfirst with hearly | ⟨hnone, hlate⟩
  · obtain ⟨⟨hi, hround⟩, hleast⟩ := hearly.isLeast h.early_sorted
    exact .inl ⟨⟨hi, h.disjoint i hround⟩, fun j ⟨hj, hearly⟩ =>
      hleast ⟨hj, (hmem j hj).resolve_right hearly⟩⟩
  · have hround : ∀ j, checks.Fails j → j ∈ late := fun j hj =>
      (hmem j hj).resolve_left fun hearly => hnone j hearly hj
    obtain ⟨⟨hi, -⟩, hleast⟩ := hlate.isLeast h.late_sorted
    exact .inr ⟨hround, hi, fun j hj => hleast ⟨hj, hround j hj⟩⟩

end Order

section Checks

/-- The step fails and names the given argument. -/
def Names (step : Except (FormError α) β) (i : Nat) : Prop :=
  ∃ name fault, step = .error (.invalidArgument i name fault)

/-- The step fails since there is no view over some storage. -/
def Unviewable (step : Except (FormError α) β) : Prop :=
  ∃ fault, step = .error (.shape fault)

/-- The step fails because of the given argument: it names the argument, or finds no view over it if
the span of its matrix is no machine word. -/
def Charges (wraps : Nat → Prop) (step : Except (FormError α) β) (i : Nat) : Prop :=
  Names step i ∨ wraps i ∧ Unviewable step

/-- Whenever one of the arguments fails, the step fails because of the first one that does, in the
given order. -/
def NamesFirst (checks : Checks) (order : List Nat) (step : Except (FormError α) β) : Prop :=
  ∀ i, FirstFails checks.Fails order i → Charges checks.Wraps step i

variable {checks : Checks} {wraps : Nat → Prop} {i : Nat} {order : List Nat}
  {step : Except (FormError α) β}

/-- What fails first ends the whole step. -/
theorem Charges.bind (h : Charges wraps step i) (next : β → Except (FormError α) δ) :
    Charges wraps (step >>= next) i := by
  rcases h with ⟨name, fault, rfl⟩ | ⟨hwraps, fault, rfl⟩
  · exact .inl ⟨name, fault, rfl⟩
  · exact .inr ⟨hwraps, fault, rfl⟩

/-- What is checked first decides. -/
theorem NamesFirst.bind (h : NamesFirst checks order step) (next : β → Except (FormError α) δ) :
    NamesFirst checks order (step >>= next) :=
  fun i hi => (h i hi).bind next

/-- A check before further ones, which are made if it passes. -/
theorem NamesFirst.cons {check : Except (FormError α) Unit} {next : Unit → Except (FormError α) β}
    (hfails : checks.Fails i → Charges checks.Wraps check i)
    (hpasses : ¬checks.Fails i → check = .ok ())
    (hnext : ¬checks.Fails i → NamesFirst checks order (next ())) :
    NamesFirst checks (i :: order) (check >>= next) := by
  rintro j (⟨hi, rfl⟩ | ⟨hi, hj⟩)
  · exact (hfails hi).bind next
  · rw [hpasses hi]
    exact hnext hi j hj

/-- Where nothing is checked, nothing is named. -/
theorem NamesFirst.nil : NamesFirst checks [] step :=
  fun _ h => h.elim

/-- The bytes of an array of numbers can be addressed, as they can for every array in memory. -/
def Addressable (data : Array α) : Prop :=
  8 * data.size ≤ addressLimit

variable {length n rows cols ld position : Nat} {name : String} {writable : Bool}

/-- A square matrix that fits into addressable storage has a view there. -/
theorem viewFault?_eq_none (h : Fits length n n ld) (haddress : 8 * length ≤ addressLimit) :
    viewFault? n n ld writable = none := by
  have hleading := h.leading
  have hlong := h.long
  have hextent : extent n n ld = span n n ld := extent_eq_span (by
    rw [addressLimit_eq] at haddress
    rw [wordCount_eq]
    omega)
  rcases Nat.eq_zero_or_pos n with rfl | hn
  · have hlimit : ¬addressLimit < 1 := by decide
    simp [viewFault?, largestOffset, hlimit]
  · have hspan : span n n ld = ld * (n - 1) + n := if_neg (by omega)
    have hoffset : largestOffset n n ld = (n - 1) + ld * (n - 1) := by
      rw [largestOffset, Nat.mul_comm ld]
      congr 1
      -- with more than one column the leading dimension is at most the length
      rcases Nat.eq_zero_or_pos (n - 1) with hone | hmore
      · rw [hone, Nat.zero_mul, Nat.zero_mul]
      · have hcolumns : ld * 1 ≤ ld * (n - 1) := Nat.mul_le_mul_left _ hmore
        rw [stepSize, h.stride_eq, if_neg (by omega)]
    have hsquare : n * n = n * (n - 1) + n := by
      rw [← Nat.mul_succ, Nat.succ_eq_add_one, Nat.sub_add_cancel hn]
    have hcolumns : n * (n - 1) ≤ ld * (n - 1) := Nat.mul_le_mul_right _ (by omega)
    have hstep : ¬(writable ∧ 1 < n ∧ 1 < n ∧ stepSize ld < n) := by
      rintro ⟨-, hmore, -, hstep⟩
      have hcolumns : ld * 1 ≤ ld * (n - 1) := Nat.mul_le_mul_left _ (by omega)
      rw [stepSize, h.stride_eq, if_neg (by omega)] at hstep
      omega
    have hmax : max n 1 = n := by omega
    rw [viewFault?, hmax, hoffset, hextent, hspan, if_neg (by omega), if_neg (by omega),
      if_neg (by omega), if_neg hstep]

/-- An array that is too short is named. -/
theorem charges_requireLength (h : length < n) :
    Charges wraps (requireLength length n position name : Except (FormError α) Unit) position :=
  .inl ⟨_, _, if_pos h⟩

/-- A slice that is too short is named, or its matrix has a span that is no machine word and there
is no view over the slice. -/
theorem charges_requireView (h : SliceTooShort length rows cols ld)
    (hwraps : wordCount ≤ span rows cols ld → wraps position) :
    Charges wraps
      (requireView length rows cols ld position name writable : Except (FormError α) Unit)
      position := by
  by_cases hshort : length < extent rows cols ld
  · have hstorage : Charges wraps (requireStorage length rows cols ld position name :
        Except (FormError α) Unit) position :=
      .inl ⟨_, _, if_pos hshort⟩
    exact hstorage.bind _
  · have hstorage : (requireStorage length rows cols ld position name :
        Except (FormError α) Unit) = .ok () :=
      requireStorage_eq_ok.mpr (Nat.not_lt.mp hshort)
    refine .inr ⟨hwraps (Nat.not_lt.mp fun hspan => ?_), ?_⟩
    · exact hshort ((extent_eq_span hspan).symm ▸ h.2)
    · rw [requireView, hstorage]
      cases hview : viewFault? rows cols ld writable with
      | none => exact absurd ((extent_eq_span_of_view hview).symm ▸ h.2) hshort
      | some fault => exact ⟨fault, rfl⟩

section Steps

variable {next : Unit → Except (FormError α) β}

/-- The last slice: nothing is checked after its length. -/
theorem NamesFirst.requireLastView
    (hcheck : checks.lookup i = some (.slice length rows cols ld)) :
    NamesFirst checks [i] (requireView length rows cols ld i name writable >>= next) := by
  have hfails : checks.Fails i = SliceTooShort length rows cols ld := by
    rw [Checks.Fails, hcheck]
    rfl
  have hwraps : checks.Wraps i = (wordCount ≤ span rows cols ld) := by
    rw [Checks.Wraps, hcheck]
    rfl
  rintro j (⟨hi, rfl⟩ | ⟨-, hj⟩)
  · exact (charges_requireView (hfails ▸ hi) hwraps.mpr).bind next
  · exact hj.elim

/-- The length of an array is checked. -/
theorem NamesFirst.requireLength (hnext : NamesFirst checks order (next ()))
    (hcheck : checks.lookup i = some (.array length n)) :
    NamesFirst checks (i :: order) (requireLength length n i name >>= next) := by
  have hfails : checks.Fails i = (length < n) := by
    rw [Checks.Fails, hcheck]
    rfl
  refine .cons (fun h => charges_requireLength (hfails ▸ h)) (fun h => ?_) fun _ => hnext
  rw [hfails] at h
  exact requireLength_eq_ok.mpr (Nat.not_lt.mp h)

/-- A leading dimension is checked. -/
theorem NamesFirst.requireLeadingDimension
    (hnext : max n 1 ≤ ld → NamesFirst checks order (next ()))
    (hcheck : checks.lookup i = some (.leading ld n)) :
    NamesFirst checks (i :: order) (requireLeadingDimension n ld i name >>= next) := by
  have hfails : checks.Fails i = (ld < max n 1) := by
    rw [Checks.Fails, hcheck]
    rfl
  refine .cons (fun h => .inl ⟨_, _, if_pos (hfails ▸ h)⟩) (fun h => ?_) fun h => ?_
  · rw [hfails] at h
    exact requireLeadingDimension_eq_ok.mpr (Nat.not_lt.mp h)
  · rw [hfails] at h
    exact hnext (Nat.not_lt.mp h)

/-- A slice in memory that is long enough for a square matrix passes its check. -/
theorem NamesFirst.requireView {data : Array α} (hleading : max n 1 ≤ ld)
    (haddress : Addressable data) (hnext : NamesFirst checks order (next ()))
    (hcheck : checks.lookup i = some (.slice data.size n n ld)) :
    NamesFirst checks (i :: order) (requireView data.size n n ld i name writable >>= next) := by
  have hfails : checks.Fails i = SliceTooShort data.size n n ld := by
    rw [Checks.Fails, hcheck]
    rfl
  have hwraps : checks.Wraps i = (wordCount ≤ span n n ld) := by
    rw [Checks.Wraps, hcheck]
    rfl
  refine .cons (fun h => charges_requireView (hfails ▸ h) hwraps.mpr) (fun h => ?_) fun _ => hnext
  rw [hfails] at h
  have hfits : Fits data.size n n ld :=
    ⟨hleading, Nat.not_lt.mp fun hshort => h ⟨hleading, hshort⟩⟩
  exact requireView_eq_ok.mpr ⟨hfits.long, viewFault?_eq_none hfits haddress⟩

end Steps

end Checks

section Settling

/-- A call in which arguments fail answers with the charged one, and with minus its ordinal as the
code. Only if the charged one is a slice for a matrix whose span is no machine word, it may answer
with the ordinal that faults in matrices are charged to. -/
def ChargesFirst (checks : Checks) (late : List Nat) (matrixPosition : Nat) (status : Status) :
    Prop :=
  (∃ j, checks.Fails j) →
    ∃ i named : Nat, Charged checks.Fails late i ∧
      (named = i ∨ checks.Wraps i ∧ named = matrixPosition) ∧
      status = .invalidArgument named ∧ status.code = -(named : Int)

/-- The charged argument fails. -/
theorem Charged.fails {fails : Nat → Prop} {late : List Nat} {i : Nat}
    (h : Charged fails late i) : fails i := by
  rcases h with ⟨⟨hi, -⟩, -⟩ | ⟨-, hi, -⟩ <;> exact hi

/-- The code of an invalid argument is minus its ordinal. -/
theorem code_invalidArgument {position : Nat} (h : IsOrdinal position) :
    (Status.invalidArgument position).code = -(position : Int) := by
  have hrange : ∀ p ≤ 13, (Status.invalidArgument p).code = -(p : Int) := by decide
  exact hrange position h.2

variable {buffers : Type} {operation : Operation α buffers Status}
  {compute : buffers → Except (FormError α) β} {write : buffers → β → buffers}
  {status : β → Status} {matrixPosition : Nat} {checks : Checks} {early late : List Nat}

/-- A call that computes with checks in two rounds charges the first failing argument. -/
theorem Computes.chargesFirst (h : Computes operation compute write status)
    (hrounds : TwoRounds (checks.map Prod.fst) early late) (hmatrix : IsOrdinal matrixPosition)
    {b : buffers} (hchecks : NamesFirst checks (early ++ late) (compute b)) :
    ChargesFirst checks late matrixPosition (settle matrixPosition operation b).1 := by
  rintro ⟨j, hj⟩
  obtain ⟨i, hi⟩ := exists_firstFails ⟨j, hrounds.mem_of_fails hj, hj⟩
  have hcharged := hrounds.charged hi
  rcases hchecks i hi with ⟨name, fault, herror⟩ | ⟨hwraps, fault, herror⟩
  · have hstatus : (settle matrixPosition operation b).1 = .invalidArgument i := by
      rw [settle, (h b).error herror]
      rfl
    refine ⟨i, i, hcharged, .inl rfl, hstatus, ?_⟩
    rw [hstatus]
    exact code_invalidArgument (hrounds.ordinal i (hrounds.mem_of_fails hcharged.fails))
  · have hstatus : (settle matrixPosition operation b).1 = .invalidArgument matrixPosition := by
      rw [settle, (h b).error herror]
      rfl
    refine ⟨i, matrixPosition, hcharged, .inr ⟨hwraps, rfl⟩, hstatus, ?_⟩
    rw [hstatus]
    exact code_invalidArgument hmatrix

end Settling

section Standard

variable {n : Nat}

/-- The arguments of a selection and when they fail. -/
def SelectBuffers.checks (n : Nat) (b : SelectBuffers α) : Checks :=
  [(2, .slice b.s.size n n b.lds),
    (3, .leading b.lds n),
    (5, .array b.selected.size n)]

/-- The arguments of a reordering and when they fail. -/
def ReorderBuffers.checks (n : Nat) (b : ReorderBuffers α) : Checks :=
  [(2, .array b.selected.size n),
    (3, .slice b.s.size n n b.lds),
    (4, .leading b.lds n),
    (5, .slice b.q.size n n b.ldq),
    (6, .leading b.ldq n),
    (7, .array b.real.size n),
    (8, .array b.imag.size n)]

/-- The arguments for eigenvectors and when they fail. -/
def EigenvectorBuffers.checks (n : Nat) (b : EigenvectorBuffers α) : Checks :=
  [(2, .array b.selected.size n),
    (3, .slice b.s.size n n b.lds),
    (4, .leading b.lds n),
    (5, .slice b.q.size n n b.ldq),
    (6, .leading b.ldq n),
    (7, .slice b.x.size n ((frontFlags b.selected n).count true) b.ldx),
    (8, .leading b.ldx n)]

/-- The leading dimension is checked before the storage and the array. -/
theorem SelectBuffers.twoRounds (b : SelectBuffers α) :
    TwoRounds ((b.checks n).map Prod.fst) [3] [2, 5] :=
  (by decide : TwoRounds [2, 3, 5] [3] [2, 5])

/-- Arrays and leading dimensions are checked before the storage. -/
theorem ReorderBuffers.twoRounds (b : ReorderBuffers α) :
    TwoRounds ((b.checks n).map Prod.fst) [2, 4, 6, 7, 8] [3, 5] :=
  (by decide : TwoRounds [2, 3, 4, 5, 6, 7, 8] [2, 4, 6, 7, 8] [3, 5])

/-- The array and the leading dimensions are checked before the storage. -/
theorem EigenvectorBuffers.twoRounds (b : EigenvectorBuffers α) :
    TwoRounds ((b.checks n).map Prod.fst) [2, 4, 6, 8] [3, 5, 7] :=
  (by decide : TwoRounds [2, 3, 4, 5, 6, 7, 8] [2, 4, 6, 8] [3, 5, 7])

/-- The only slice of a selection is the second argument. -/
theorem SelectBuffers.eq_two_of_wraps {b : SelectBuffers α} {i : Nat} (h : (b.checks n).Fails i)
    (hwraps : (b.checks n).Wraps i) : i = 2 := by
  have hmem : i ∈ [3] ++ [2, 5] := b.twoRounds.mem_of_fails h
  simp only [List.cons_append, List.nil_append, List.mem_cons, List.not_mem_nil, or_false] at hmem
  rcases hmem with rfl | rfl | rfl
  · exact hwraps.elim
  · rfl
  · exact hwraps.elim

/-- Of the two arguments about the matrix of a selection at most one fails, so that the charged
argument is the smallest one that fails. -/
theorem SelectBuffers.isLeast_of_charged {b : SelectBuffers α} {i : Nat}
    (h : Charged (b.checks n).Fails [2, 5] i) : IsLeast {j | (b.checks n).Fails j} i := by
  refine h.isLeast fun j hj hfails k hk hleading => ?_
  have hthree : k = 3 := by simpa [hk] using b.twoRounds.mem_of_fails hleading
  subst hthree
  rcases List.mem_pair.mp hj with rfl | rfl
  · exact absurd hleading (Nat.not_lt.mpr hfails.1)
  · decide

variable [Scalar α]

/-- A selection names the first check that fails. -/
theorem SelectBuffers.namesFirst (predicate : α × α → Bool) {b : SelectBuffers α}
    (hs : Addressable b.s) :
    NamesFirst (b.checks n) ([3] ++ [2, 5]) (b.compute n predicate) := by
  refine NamesFirst.bind ?_ _
  refine .requireLeadingDimension (fun hlds => ?_) rfl
  refine .requireView hlds hs ?_ rfl
  exact .requireLength .nil rfl

/-- A reordering names the first check that fails. -/
theorem ReorderBuffers.namesFirst (tol : Tolerance α) {b : ReorderBuffers α}
    (hs : Addressable b.s) :
    NamesFirst (b.checks n) ([2, 4, 6, 7, 8] ++ [3, 5]) (b.compute tol n) := by
  refine NamesFirst.bind ?_ _
  refine .requireLength ?_ rfl
  refine .requireLeadingDimension (fun hlds => ?_) rfl
  refine .requireLeadingDimension (fun _ => ?_) rfl
  refine .requireLength ?_ rfl
  refine .requireLength ?_ rfl
  refine .requireView hlds hs ?_ rfl
  exact .requireLastView rfl

/-- Computing eigenvectors names the first check that fails. -/
theorem EigenvectorBuffers.namesFirst {b : EigenvectorBuffers α}
    (hs : Addressable b.s) (hq : Addressable b.q) :
    NamesFirst (b.checks n) ([2, 4, 6, 8] ++ [3, 5, 7]) (b.compute n) := by
  refine NamesFirst.bind ?_ _
  refine .requireLength ?_ rfl
  refine .requireLeadingDimension (fun hlds => ?_) rfl
  refine .requireLeadingDimension (fun hldq => ?_) rfl
  refine .requireLeadingDimension (fun _ => ?_) rfl
  refine .requireView hlds hs ?_ rfl
  refine .requireView hldq hq ?_ rfl
  exact .requireLastView rfl

end Standard

section Pencil

variable {n : Nat}

/-- The arguments of a selection and when they fail. -/
def PencilSelectBuffers.checks (n : Nat) (b : PencilSelectBuffers α) : Checks :=
  [(2, .slice b.s.size n n b.lds),
    (3, .leading b.lds n),
    (4, .slice b.t.size n n b.ldt),
    (5, .leading b.ldt n),
    (7, .array b.selected.size n)]

/-- The arguments of a reordering and when they fail. -/
def PencilReorderBuffers.checks (n : Nat) (b : PencilReorderBuffers α) : Checks :=
  [(2, .array b.selected.size n),
    (3, .slice b.s.size n n b.lds),
    (4, .leading b.lds n),
    (5, .slice b.t.size n n b.ldt),
    (6, .leading b.ldt n),
    (7, .slice b.q.size n n b.ldq),
    (8, .leading b.ldq n),
    (9, .slice b.z.size n n b.ldz),
    (10, .leading b.ldz n),
    (11, .array b.real.size n),
    (12, .array b.imag.size n),
    (13, .array b.beta.size n)]

/-- The arguments for eigenvectors and when they fail. -/
def PencilEigenvectorBuffers.checks (n : Nat) (b : PencilEigenvectorBuffers α) : Checks :=
  [(2, .array b.selected.size n),
    (3, .slice b.s.size n n b.lds),
    (4, .leading b.lds n),
    (5, .slice b.t.size n n b.ldt),
    (6, .leading b.ldt n),
    (7, .slice b.z.size n n b.ldz),
    (8, .leading b.ldz n),
    (9, .slice b.x.size n ((frontFlags b.selected n).count true) b.ldx),
    (10, .leading b.ldx n)]

/-- The leading dimensions are checked before the storage and the array. -/
theorem PencilSelectBuffers.twoRounds (b : PencilSelectBuffers α) :
    TwoRounds ((b.checks n).map Prod.fst) [3, 5] [2, 4, 7] :=
  (by decide : TwoRounds [2, 3, 4, 5, 7] [3, 5] [2, 4, 7])

/-- Arrays and leading dimensions of a pencil are checked before the storage. -/
theorem PencilReorderBuffers.twoRounds (b : PencilReorderBuffers α) :
    TwoRounds ((b.checks n).map Prod.fst) [2, 4, 6, 8, 10, 11, 12, 13] [3, 5, 7, 9] :=
  (by decide : TwoRounds [2, 3, 4, 5, 6, 7, 8, 9, 10, 11, 12, 13]
    [2, 4, 6, 8, 10, 11, 12, 13] [3, 5, 7, 9])

/-- The array and the leading dimensions of a pencil are checked before the storage. -/
theorem PencilEigenvectorBuffers.twoRounds (b : PencilEigenvectorBuffers α) :
    TwoRounds ((b.checks n).map Prod.fst) [2, 4, 6, 8, 10] [3, 5, 7, 9] :=
  (by decide : TwoRounds [2, 3, 4, 5, 6, 7, 8, 9, 10] [2, 4, 6, 8, 10] [3, 5, 7, 9])

variable [Scalar α]

/-- A selection in a pencil names the first check that fails. -/
theorem PencilSelectBuffers.namesFirst (predicate : α × α × α → Bool) {b : PencilSelectBuffers α}
    (hs : Addressable b.s) (ht : Addressable b.t) :
    NamesFirst (b.checks n) ([3, 5] ++ [2, 4, 7]) (b.compute n predicate) := by
  refine NamesFirst.bind ?_ _
  refine .requireLeadingDimension (fun hlds => ?_) rfl
  refine .requireLeadingDimension (fun hldt => ?_) rfl
  refine .requireView hlds hs ?_ rfl
  refine .requireView hldt ht ?_ rfl
  exact .requireLength .nil rfl

/-- A reordering of a pencil names the first check that fails. -/
theorem PencilReorderBuffers.namesFirst (tol : Tolerance α) {b : PencilReorderBuffers α}
    (hs : Addressable b.s) (ht : Addressable b.t) (hq : Addressable b.q) :
    NamesFirst (b.checks n) ([2, 4, 6, 8, 10, 11, 12, 13] ++ [3, 5, 7, 9])
      (b.compute tol n) := by
  refine NamesFirst.bind ?_ _
  refine .requireLength ?_ rfl
  refine .requireLeadingDimension (fun hlds => ?_) rfl
  refine .requireLeadingDimension (fun hldt => ?_) rfl
  refine .requireLeadingDimension (fun hldq => ?_) rfl
  refine .requireLeadingDimension (fun _ => ?_) rfl
  refine .requireLength ?_ rfl
  refine .requireLength ?_ rfl
  refine .requireLength ?_ rfl
  refine .requireView hlds hs ?_ rfl
  refine .requireView hldt ht ?_ rfl
  refine .requireView hldq hq ?_ rfl
  exact .requireLastView rfl

/-- Computing eigenvectors of a pencil names the first check that fails. -/
theorem PencilEigenvectorBuffers.namesFirst {b : PencilEigenvectorBuffers α}
    (hs : Addressable b.s) (ht : Addressable b.t) (hz : Addressable b.z) :
    NamesFirst (b.checks n) ([2, 4, 6, 8, 10] ++ [3, 5, 7, 9]) (b.compute n) := by
  refine NamesFirst.bind ?_ _
  refine .requireLength ?_ rfl
  refine .requireLeadingDimension (fun hlds => ?_) rfl
  refine .requireLeadingDimension (fun hldt => ?_) rfl
  refine .requireLeadingDimension (fun hldz => ?_) rfl
  refine .requireLeadingDimension (fun _ => ?_) rfl
  refine .requireView hlds hs ?_ rfl
  refine .requireView hldt ht ?_ rfl
  refine .requireView hldz hz ?_ rfl
  exact .requireLastView rfl

end Pencil

/-- The status of a call in which arguments fail their checks. A selection in a standard form names
the smallest failing ordinal. The other operations do so only within two rounds: an array or a
leading dimension is named before any slice that holds a matrix, and of several failing ones in the
same round the smallest one is named. If that is a slice for a matrix whose span is no machine word,
the matrix that comes first can be named in its place. -/
theorem status_names_invalidArgument [Scalar α] (tol : Tolerance α) (n : Nat) (test : α × α → Bool)
    (pencilTest : α × α × α → Bool) :
    (∀ b : SelectBuffers α, Addressable b.s → (∃ j, (b.checks n).Fails j) →
      ∃ i : Nat, IsLeast {j | (b.checks n).Fails j} i ∧
        (selectStandard n test b).1 = .invalidArgument i ∧
        (selectStandard n test b).1.code = -(i : Int)) ∧
    (∀ b : ReorderBuffers α, Addressable b.s →
      ChargesFirst (b.checks n) [3, 5] 3 (reorderStandard tol n b).1) ∧
    (∀ b : EigenvectorBuffers α, Addressable b.s → Addressable b.q →
      ChargesFirst (b.checks n) [3, 5, 7] 3 (eigenvectorsStandard n b).1) ∧
    (∀ b : PencilSelectBuffers α, Addressable b.s → Addressable b.t →
      ChargesFirst (b.checks n) [2, 4, 7] 2 (Storage.selectPencil n pencilTest b).1) ∧
    (∀ b : PencilReorderBuffers α, Addressable b.s → Addressable b.t → Addressable b.q →
      ChargesFirst (b.checks n) [3, 5, 7, 9] 3 (reorderPencil tol n b).1) ∧
    (∀ b : PencilEigenvectorBuffers α, Addressable b.s → Addressable b.t → Addressable b.z →
      ChargesFirst (b.checks n) [3, 5, 7, 9] 3 (eigenvectorsPencil n b).1) := by
  refine ⟨fun b hs hfails => ?_, fun b hs => ?_, fun b hs hq => ?_, fun b hs ht => ?_,
    fun b hs ht hq => ?_, fun b hs ht hz => ?_⟩
  · have hcharges : ChargesFirst (b.checks n) [2, 5] 2 (selectStandard n test b).1 :=
      (SelectBuffers.computes_select n test).chargesFirst b.twoRounds (by decide)
        (SelectBuffers.namesFirst test hs)
    obtain ⟨i, named, hcharged, hnamed, hstatus⟩ := hcharges hfails
    obtain rfl : named = i := by
      rcases hnamed with rfl | ⟨hwraps, rfl⟩
      · rfl
      · exact (SelectBuffers.eq_two_of_wraps hcharged.fails hwraps).symm
    exact ⟨named, SelectBuffers.isLeast_of_charged hcharged, hstatus⟩
  · exact (ReorderBuffers.computes_reorder tol n).chargesFirst b.twoRounds (by decide)
      (ReorderBuffers.namesFirst tol hs)
  · exact (EigenvectorBuffers.computes_eigenvectors n).chargesFirst b.twoRounds (by decide)
      (EigenvectorBuffers.namesFirst hs hq)
  · exact (PencilSelectBuffers.computes_select n pencilTest).chargesFirst b.twoRounds (by decide)
      (PencilSelectBuffers.namesFirst pencilTest hs ht)
  · exact (PencilReorderBuffers.computes_reorder tol n).chargesFirst b.twoRounds (by decide)
      (PencilReorderBuffers.namesFirst tol hs ht hq)
  · exact (PencilEigenvectorBuffers.computes_eigenvectors n).chargesFirst b.twoRounds (by decide)
      (PencilEigenvectorBuffers.namesFirst hs ht hz)

/-- Buffers without any entries for forms of order 1. -/
theorem status_names_invalidArgument_empty :
    let select : SelectBuffers Float := ⟨#[], 1, #[], 0⟩
    let reorder : ReorderBuffers Float := ⟨#[], #[], 1, #[], 1, #[], #[]⟩
    let vectors : EigenvectorBuffers Float := ⟨#[true], #[], 1, #[], 1, #[], 1⟩
    let selectPencil : PencilSelectBuffers Float := ⟨#[], 1, #[], 0, #[], 0⟩
    let reorderPencil : PencilReorderBuffers Float :=
      ⟨#[false], #[], 1, #[], 1, #[], 1, #[], 1, #[], #[], #[]⟩
    let vectorsPencil : PencilEigenvectorBuffers Float := ⟨#[true], #[], 1, #[], 1, #[], 1, #[], 0⟩
    (∃ i : Nat, IsLeast {j | (select.checks 1).Fails j} i ∧
      (selectStandard 1 (fun _ => true) select).1.code = -(i : Int)) ∧
    (∃ i named : Nat, Charged (reorder.checks 1).Fails [3, 5] i ∧
      (named = i ∨ (reorder.checks 1).Wraps i ∧ named = 3) ∧
      (reorderStandard .standard 1 reorder).1.code = -(named : Int)) ∧
    (∃ i named : Nat, Charged (vectors.checks 1).Fails [3, 5, 7] i ∧
      (named = i ∨ (vectors.checks 1).Wraps i ∧ named = 3) ∧
      (eigenvectorsStandard 1 vectors).1.code = -(named : Int)) ∧
    (∃ i named : Nat, Charged (selectPencil.checks 1).Fails [2, 4, 7] i ∧
      (named = i ∨ (selectPencil.checks 1).Wraps i ∧ named = 2) ∧
      (Storage.selectPencil 1 (fun _ => true) selectPencil).1.code = -(named : Int)) ∧
    (∃ i named : Nat, Charged (reorderPencil.checks 1).Fails [3, 5, 7, 9] i ∧
      (named = i ∨ (reorderPencil.checks 1).Wraps i ∧ named = 3) ∧
      (Storage.reorderPencil .standard 1 reorderPencil).1.code = -(named : Int)) ∧
    ∃ i named : Nat, Charged (vectorsPencil.checks 1).Fails [3, 5, 7, 9] i ∧
      (named = i ∨ (vectorsPencil.checks 1).Wraps i ∧ named = 3) ∧
      (eigenvectorsPencil 1 vectorsPencil).1.code = -(named : Int) := by
  intro select reorder vectors selectPencil reorderPencil vectorsPencil
  have hempty : Addressable (#[] : Array Float) := Nat.zero_le _
  have hshort : SliceTooShort 0 1 1 1 := by decide
  obtain ⟨hselect, hreorder, hvectors, hselectPencil, hreorderPencil, hvectorsPencil⟩ :=
    status_names_invalidArgument (α := Float) .standard 1 (fun _ => true) (fun _ => true)
  obtain ⟨i₁, h₁, -, hcode₁⟩ := hselect select hempty ⟨2, hshort⟩
  obtain ⟨i₂, named₂, h₂, hnamed₂, -, hcode₂⟩ := hreorder reorder hempty ⟨3, hshort⟩
  obtain ⟨i₃, named₃, h₃, hnamed₃, -, hcode₃⟩ := hvectors vectors hempty hempty ⟨3, hshort⟩
  obtain ⟨i₄, named₄, h₄, hnamed₄, -, hcode₄⟩ :=
    hselectPencil selectPencil hempty hempty ⟨2, hshort⟩
  obtain ⟨i₅, named₅, h₅, hnamed₅, -, hcode₅⟩ :=
    hreorderPencil reorderPencil hempty hempty hempty ⟨3, hshort⟩
  obtain ⟨i₆, named₆, h₆, hnamed₆, -, hcode₆⟩ :=
    hvectorsPencil vectorsPencil hempty hempty hempty ⟨3, hshort⟩
  exact ⟨⟨i₁, h₁, hcode₁⟩, ⟨i₂, named₂, h₂, hnamed₂, hcode₂⟩, ⟨i₃, named₃, h₃, hnamed₃, hcode₃⟩,
    ⟨i₄, named₄, h₄, hnamed₄, hcode₄⟩, ⟨i₅, named₅, h₅, hnamed₅, hcode₅⟩,
    i₆, named₆, h₆, hnamed₆, hcode₆⟩

/-- The largest leading dimension makes the slice for `Q`, the fifth argument, too short; its length
is counted as one, and the third argument is named. -/
example :
    let b : ReorderBuffers Float :=
      ⟨#[false, false], #[1, 0, 0, 1], 2, #[1, 0, 0, 1], wordCount - 1, #[0, 0], #[0, 0]⟩
    (reorderStandard .standard 2 b).1 = .invalidArgument 3 := by
  decide +kernel

/-- A reordering of a pencil whose first failing argument is the storage of `S`, the third one,
names the eleventh. -/
theorem reorderPencil_code_not_least :
    let b : PencilReorderBuffers Float :=
      ⟨#[false], #[], 1, #[1], 1, #[1], 1, #[1], 1, #[], #[0], #[0]⟩
    IsLeast {j | (b.checks 1).Fails j} 3 ∧ (reorderPencil .standard 1 b).1.code = -11 := by
  intro b
  have hflags : ¬(b.checks 1).Fails 2 := by
    change ¬1 < 1
    decide
  have hslice : (b.checks 1).Fails 3 := by
    change SliceTooShort 0 1 1 1
    decide
  refine ⟨⟨hslice, fun j hj => ?_⟩, by rfl⟩
  match j, hj with
  | 2, hj => exact absurd hj hflags
  | j + 3, _ => exact Nat.le_add_left 3 j

end Storage

end SchurForm
