import Mathlib.Data.List.TakeWhile
import SchurForm.Proofs.BlockCuts
import SchurForm.Proofs.ReorderingOutcome

/-!
# What a reordering leaves alone

Blocks that are in front already never move, and neither do the blocks behind the last selected one.
An exchange changes the rows of its patch to the right of it and the columns of its patch above it,
so whatever exchanges take place, and whatever the arithmetic makes of them, the entries outside the
rows and columns between the two ends stay what they were. The columns of the factors outside these
ends stay as well.

The log says the rest: every attempt was made on the form that the accepted attempts before it left,
and a refused attempt left no trace.
-/

namespace SchurForm

open Block

section Runs

variable {α σ ε : Type}

/-- A sequence in which an unchosen block stands directly above a chosen one, as a front of chosen
blocks, a middle and a rear of unchosen blocks: both blocks stand in the middle. -/
theorem exists_middle_of_append_eq {chosen : Block α → Bool}
    {front middle rear above below : List (Block α)} {upper lower : Block α}
    (hfront : ∀ b ∈ front, chosen b = true) (hrear : ∀ b ∈ rear, chosen b = false)
    (hupper : chosen upper = false) (hlower : chosen lower = true)
    (h : above ++ upper :: lower :: below = front ++ middle ++ rear) :
    ∃ before behind, above = front ++ before ∧ below = behind ++ rear ∧
      middle = before ++ upper :: lower :: behind := by
  have hreach : ∃ before, above = front ++ before := by
    rw [List.append_assoc] at h
    rcases List.append_eq_append_iff.mp h with ⟨tail, hfronts, htail⟩ | ⟨before, habove, -⟩
    · cases tail with
      | nil => exact ⟨[], by simpa using hfronts.symm⟩
      | cons b tail =>
        obtain rfl := (List.cons.inj htail).1
        exact absurd (hfront upper (by simp [hfronts])) (by simp [hupper])
    · exact ⟨before, habove⟩
  obtain ⟨before, rfl⟩ := hreach
  have hmiddle : (before ++ [upper, lower]) ++ below = middle ++ rear := by
    simpa using h
  rcases List.append_eq_append_iff.mp hmiddle with ⟨behind, rfl, rfl⟩ | ⟨tail, htail, rfl⟩
  · exact ⟨before, behind, rfl, rfl, by simp⟩
  · rcases List.eq_nil_or_concat' tail with rfl | ⟨tail, b, rfl⟩
    · exact ⟨before, [], rfl, by simp, by simpa using htail.symm⟩
    · have hlast : lower = b := by
        have := congrArg List.getLast? htail
        simpa using this
      subst hlast
      exact absurd (hrear lower (by simp)) (by simp [hlower])

/-- What every exchange between two rows keeps holds at the end of a run, if the blocks above the
one row are chosen and those from the other row on are not. -/
theorem ExchangeRun.preserves_between {act : ExchangeAction σ ε} {chosen : Block α → Bool}
    {P : σ → Prop} {first last : Nat}
    (hact : ∀ st row upper lower, first ≤ row → row + (upper + lower) ≤ last → P st →
      P (act st row upper lower).1)
    {state final : σ} {order result : List (Block α)} {swaps : Nat} {rejected : Option ε}
    (h : ExchangeRun act chosen state order swaps final result rejected)
    {front middle rear : List (Block α)} (horder : order = front ++ middle ++ rear)
    (hfront : ∀ b ∈ front, chosen b = true) (hrear : ∀ b ∈ rear, chosen b = false)
    (hfirst : totalSize front = first) (hlast : totalSize (front ++ middle) = last)
    (hstart : P state) : P final := by
  have hstep (st next : σ) (before behind : List (Block α)) (upper lower : Block α)
      (reason : Option ε)
      (hsize : totalSize (front ++ (before ++ upper :: lower :: behind)) = last) (hst : P st)
      (hnext : act st (totalSize (front ++ before)) upper.size lower.size = (next, reason)) :
      P next := by
    have hkept := hact st (totalSize (front ++ before)) upper.size lower.size
      (by simp [hfirst]) (by simp at hsize ⊢; omega) hst
    rwa [hnext] at hkept
  induction h generalizing middle with
  | done => exact hstart
  | @accepted _ _ _ above below _ upper lower _ _ unchosen wanted exchanged _ ih =>
    obtain ⟨before, behind, rfl, rfl, rfl⟩ :=
      exists_middle_of_append_eq hfront hrear unchosen wanted horder
    have hexchanged : front ++ before ++ lower :: upper :: (behind ++ rear) =
        front ++ (before ++ lower :: upper :: behind) ++ rear := by simp
    refine ih hexchanged ?_ (hstep _ _ _ _ _ _ _ hlast hstart exchanged)
    simp only [totalSize_append, totalSize_cons] at hlast ⊢
    omega
  | @refused _ _ above below upper lower _ unchosen wanted refusal =>
    obtain ⟨before, behind, rfl, rfl, rfl⟩ :=
      exists_middle_of_append_eq hfront hrear unchosen wanted horder
    exact hstep _ _ _ _ _ _ _ hlast hstart refusal

/-- The row behind leading blocks of a tiling. -/
theorem Block.Tiles.blocksEnd_append {front back : List (Block α)} {last : Nat}
    (h : Tiles 0 (front ++ back) last) : blocksEnd front = totalSize front := by
  simpa using h.append.1.blocksEnd_eq fun _ => rfl

/-- The row behind the last chosen block of a tiling: the blocks above this row contain all chosen
ones. -/
theorem exists_chosen_rows {last : Nat} {blocks : List (Block α)} (chosen : Block α → Bool)
    (htiles : Tiles 0 blocks last) : ∃ leading rear, blocks = leading ++ rear ∧
      (∀ b ∈ rear, chosen b = false) ∧ totalSize leading = blocksEnd (blocks.filter chosen) := by
  induction blocks using List.reverseRecOn generalizing last with
  | nil => exact ⟨[], [], rfl, by simp, rfl⟩
  | append_singleton blocks b ih =>
    cases hb : chosen b with
    | false =>
      obtain ⟨leading, rear, rfl, hrear, hsize⟩ := ih htiles.append.1
      refine ⟨leading, rear ++ [b], by simp, ?_, ?_⟩
      · simpa [or_imp, forall_and, hb] using hrear
      · rw [hsize, List.filter_append]
        simp [hb]
    | true =>
      refine ⟨blocks ++ [b], [], by simp, by simp, ?_⟩
      have hstart : b.start = totalSize blocks := by simpa using htiles.append.2.start_head
      simp [List.filter_append, hb, blocksEnd, stop, hstart]

/-- A tiling as the leading chosen blocks, the others down to the last chosen one, and the unchosen
blocks behind it. -/
theorem exists_front_middle_rear {last : Nat} {blocks : List (Block α)} (chosen : Block α → Bool)
    (htiles : Tiles 0 blocks last) : ∃ front middle rear, blocks = front ++ middle ++ rear ∧
      (∀ b ∈ front, chosen b = true) ∧ (∀ b ∈ rear, chosen b = false) ∧
      totalSize front = blocksEnd (blocks.takeWhile chosen) ∧
      totalSize (front ++ middle) = blocksEnd (blocks.filter chosen) := by
  obtain ⟨leading, rear, hblocks, hrear, hsize⟩ := exists_chosen_rows chosen htiles
  have hnone : rear.takeWhile chosen = [] := by
    cases rear with
    | nil => rfl
    | cons b rear => simp [hrear b List.mem_cons_self]
  have hfront : blocks.takeWhile chosen = leading.takeWhile chosen := by
    rw [hblocks, List.takeWhile_append, hnone]
    split
    · rw [List.append_nil, (List.takeWhile_prefix chosen).eq_of_length ‹_›]
    · rfl
  refine ⟨leading.takeWhile chosen, leading.dropWhile chosen, rear, ?_,
    fun b hb => List.mem_takeWhile_imp hb, hrear, ?_, ?_⟩
  · rw [List.takeWhile_append_dropWhile, hblocks]
  · rw [← List.takeWhile_append_dropWhile (p := chosen) (l := blocks)] at htiles
    rw [htiles.blocksEnd_append, hfront]
  · rw [List.takeWhile_append_dropWhile, hsize]

/-- What every exchange between the leading chosen blocks and the end of the last chosen one keeps
holds at the end of a gathering. -/
theorem gather_preserves_between {act : ExchangeAction σ ε} {blocks : List (Block α)}
    {selected : List Bool} {n : Nat} (htiles : Tiles 0 blocks n) {P : σ → Prop}
    (hact : ∀ st row upper lower,
      blocksEnd (blocks.takeWhile fun b => flagAt selected b.start) ≤ row →
      row + (upper + lower) ≤ blocksEnd (blocks.filter fun b => flagAt selected b.start) → P st →
      P (act st row upper lower).1) {start : σ} (hstart : P start) :
    P (gather act blocks selected start).state := by
  obtain ⟨order, -, hrun, -, -⟩ := gather_exchangeRun act blocks selected n start htiles
  obtain ⟨front, middle, rear, hblocks, hfront, hrear, hfirst, hlast⟩ :=
    exists_front_middle_rear (fun b => flagAt selected b.start) htiles
  exact hrun.preserves_between hact hblocks hfront hrear hfirst hlast hstart

end Runs

section Frames

variable {α : Type} [Scalar α] {m n first last : Nat}

namespace Mat

/-- The entries that exchanges between the rows `first` and `last` do not touch are the same: the
columns before the first row, the rows from the last row on, and what stands both above and to the
right of these rows. -/
def AgreesOutside (first last : Nat) (a b : Mat n n α) : Prop :=
  ∀ i j, j < first ∨ last ≤ i ∨ (i < first ∧ last ≤ j) → b.get i j = a.get i j

/-- The columns before `first` and from `last` on are the same. -/
def SameColumnsOutside (first last : Nat) (a b : Mat n n α) : Prop :=
  ∀ i j, j < first ∨ last ≤ j → b.get i j = a.get i j

/-- An entry that is computed as the one of another matrix. -/
theorem get_ofFn_eq_get {k l : Nat} (a : Mat k l α) {f : Nat → Nat → α} {i j : Nat}
    (h : f i j = a.get i j) : (ofFn f : Mat k l α).get i j = a.get i j := by
  rw [get_ofFn]
  split
  · exact h
  · rcases Nat.lt_or_ge i k with hi | hi
    · rw [a.get_of_cols_le i (by omega)]
    · rw [a.get_of_rows_le hi]

/-- A patch transformation reaches the rows of the patch from its first column on, and the columns
of the patch above it. -/
theorem get_transformPatch_of_outside (a : Mat n n α) (left right patch : Mat m m α) {row i j : Nat}
    (h : j < row ∨ row + m ≤ i ∨ (i < row ∧ row + m ≤ j)) :
    (a.transformPatch row left right patch).get i j = a.get i j := by
  refine get_ofFn_eq_get a ?_
  split_ifs <;> first | rfl | omega

/-- Columns outside of a patch are not transformed. -/
theorem get_transformColumns_of_outside (a : Mat n n α) (factor : Mat m m α) {row i j : Nat}
    (h : j < row ∨ row + m ≤ j) : (a.transformColumns row factor).get i j = a.get i j :=
  get_ofFn_eq_get a (if_neg (by omega))

variable {row : Nat} (hfirst : first ≤ row) (hlast : row + m ≤ last)

include hfirst hlast

/-- Transforming a patch inside a range keeps the agreement outside of it. -/
theorem AgreesOutside.transformPatch {a b : Mat n n α} (h : a.AgreesOutside first last b)
    (left right patch : Mat m m α) :
    a.AgreesOutside first last (b.transformPatch row left right patch) := fun i j hij => by
  rw [get_transformPatch_of_outside b left right patch (by omega), h i j hij]

/-- Transforming columns inside a range keeps the columns outside of it. -/
theorem SameColumnsOutside.transformColumns {a b : Option (Mat n n α)}
    (h : Option.Rel (SameColumnsOutside first last) a b) (factor : Mat m m α) :
    Option.Rel (SameColumnsOutside first last) a
      (b.map fun b => b.transformColumns row factor) := by
  cases h with
  | none => exact .none
  | some h =>
    refine .some fun i j hij => ?_
    rw [get_transformColumns_of_outside _ factor (by omega), h i j hij]

end Mat

/-- What a standard form has outside the rows and columns between `first` and `last` is the same. -/
structure StandardForm.SameOutside (first last : Nat) (form after : StandardForm n α) : Prop where
  s : form.s.AgreesOutside first last after.s
  q : Option.Rel (Mat.SameColumnsOutside first last) form.q after.q

/-- What a pencil has outside the rows and columns between `first` and `last` is the same. -/
structure PencilForm.SameOutside (first last : Nat) (form after : PencilForm n α) : Prop where
  s : form.s.AgreesOutside first last after.s
  t : form.t.AgreesOutside first last after.t
  q : Option.Rel (Mat.SameColumnsOutside first last) form.q after.q
  z : Option.Rel (Mat.SameColumnsOutside first last) form.z after.z

/-- A factor has the same columns as itself. -/
theorem sameColumnsOutside_refl (q : Option (Mat n n α)) :
    Option.Rel (Mat.SameColumnsOutside first last) q q := by
  cases q with
  | none => exact .none
  | some q => exact .some fun _ _ _ => rfl

/-- A standard form agrees with itself. -/
theorem StandardForm.SameOutside.refl (form : StandardForm n α) :
    form.SameOutside first last form :=
  ⟨fun _ _ _ => rfl, sameColumnsOutside_refl _⟩

/-- A pencil agrees with itself. -/
theorem PencilForm.SameOutside.refl (form : PencilForm n α) : form.SameOutside first last form :=
  ⟨fun _ _ _ => rfl, fun _ _ _ => rfl, sameColumnsOutside_refl _, sameColumnsOutside_refl _⟩

/-- An exchange between two rows keeps what is outside them. -/
theorem standardAction_sameOutside (tol : Tolerance α) (form : StandardForm n α)
    {st : Logged (StandardForm n α) (StandardAttempt α)} {row upper lower : Nat}
    (hfirst : first ≤ row) (hlast : row + (upper + lower) ≤ last)
    (h : form.SameOutside first last st.form) :
    form.SameOutside first last (standardAction tol st row upper lower).1.form := by
  rcases standardAction_cases tol st row upper lower with ⟨e, -, hact⟩ | ⟨reason, -, hact⟩
  · rw [hact]
    exact ⟨h.s.transformPatch hfirst hlast _ _ _,
      Mat.SameColumnsOutside.transformColumns hfirst hlast h.q _⟩
  · rwa [hact]

/-- An exchange of block pairs between two rows keeps what is outside them. -/
theorem pencilAction_sameOutside (tol : Tolerance α) (form : PencilForm n α)
    {st : Logged (PencilForm n α) (PencilAttempt α)} {row upper lower : Nat}
    (hfirst : first ≤ row) (hlast : row + (upper + lower) ≤ last)
    (h : form.SameOutside first last st.form) :
    form.SameOutside first last (pencilAction tol st row upper lower).1.form := by
  rcases pencilAction_cases tol st row upper lower with ⟨e, -, hact⟩ | ⟨reason, -, hact⟩
  · rw [hact]
    exact ⟨h.s.transformPatch hfirst hlast _ _ _, h.t.transformPatch hfirst hlast _ _ _,
      Mat.SameColumnsOutside.transformColumns hfirst hlast h.q _,
      Mat.SameColumnsOutside.transformColumns hfirst hlast h.z _⟩
  · rwa [hact]

end Frames

section Replays

variable {form attempt ε : Type}

/-- How attempts are made on a form, what an attempt leaves of it, and why it was refused, if it
was. -/
structure Attempts (form attempt ε : Type) where
  make : form → (row upper lower : Nat) → attempt
  after : form → attempt → form
  refusal? : attempt → Option ε

/-- The log explains the form that was reached: every attempt was made on what the attempts before
it left, as many as were counted were accepted, and only a refused one follows. The form is what the
accepted attempts made of it. -/
structure Logged.Replays (attempts : Attempts form attempt ε) (start : form)
    (st : Logged form attempt) (swaps : Nat) (rejected : Option ε) : Prop where
  attempted : ∀ k (hk : k < st.log.length), ∃ row upper lower,
    st.log[k] = attempts.make ((st.log.take k).foldl attempts.after start) row upper lower
  outcomes : st.log.map attempts.refusal? =
    List.replicate swaps none ++ rejected.toList.map some
  form : st.form = (st.log.take swaps).foldl attempts.after start

/-- The action makes one attempt, keeps what it leaves of the form and logs it; a refused attempt
leaves the form as it was. -/
structure Attempts.Drive (attempts : Attempts form attempt ε)
    (act : ExchangeAction (Logged form attempt) ε) : Prop where
  act : ∀ st row upper lower, act st row upper lower =
    (⟨attempts.after st.form (attempts.make st.form row upper lower),
        st.log ++ [attempts.make st.form row upper lower]⟩,
      attempts.refusal? (attempts.make st.form row upper lower))
  refused : ∀ (f : form) (a : attempt) (reason : ε), attempts.refusal? a = some reason →
    attempts.after f a = f

variable {attempts : Attempts form attempt ε} {act : ExchangeAction (Logged form attempt) ε}
  {start : form}

/-- Nothing has become of the form if no exchange was accepted. -/
theorem Logged.Replays.untouched {st : Logged form attempt} {swaps : Nat} {rejected : Option ε}
    (h : st.Replays attempts start swaps rejected) (hnone : swaps = 0) : st.form = start := by
  rw [h.form, hnone]
  rfl

/-- One more attempt is explained, whether it was accepted or not. -/
theorem Attempts.Drive.step (hdrive : attempts.Drive act) {st : Logged form attempt} {swaps : Nat}
    (h : st.Replays attempts start swaps none) (row upper lower : Nat) :
    let result := act st row upper lower
    result.1.Replays attempts start (if result.2.isNone then swaps + 1 else swaps) result.2 := by
  have hlength : st.log.length = swaps := by
    simpa using congrArg List.length h.outcomes
  have hform : st.form = st.log.foldl attempts.after start := by
    rw [h.form, List.take_of_length_le hlength.le]
  have houtcomes := h.outcomes
  intro result
  simp only [result, hdrive.act]
  set a := attempts.make st.form row upper lower with ha
  refine ⟨fun k hk => ?_, ?_, ?_⟩
  · simp only [List.length_append, List.length_singleton] at hk
    rcases Nat.lt_or_ge k st.log.length with hlt | hge
    · obtain ⟨row, upper, lower, hmade⟩ := h.attempted k hlt
      refine ⟨row, upper, lower, ?_⟩
      simpa only [List.getElem_append_left hlt, List.take_append_of_le_length hlt.le] using hmade
    · obtain rfl : k = st.log.length := by omega
      refine ⟨row, upper, lower, ?_⟩
      simp only [List.getElem_concat_length, List.take_left, ← hform, ha]
  · cases hcase : attempts.refusal? a with
    | none => simp [houtcomes, hcase, List.replicate_succ']
    | some reason => simp [houtcomes, hcase]
  · cases hcase : attempts.refusal? a with
    | none => simp [hform, List.take_of_length_le, hlength]
    | some reason => simp [hform, hdrive.refused _ _ _ hcase, ← hlength]

/-- The log of a gathering explains the form that it ends with. -/
theorem Attempts.Drive.gather {α : Type} (hdrive : attempts.Drive act) {blocks : List (Block α)}
    {n : Nat} (htiles : Tiles 0 blocks n) (selected : List Bool) (start : form) :
    let g := gather act blocks selected ⟨start, []⟩
    g.state.Replays attempts start g.swaps g.rejected := by
  obtain ⟨order, -, hrun, -, -⟩ := gather_exchangeRun act blocks selected n ⟨start, []⟩ htiles
  have hnothing : Logged.Replays attempts start ⟨start, []⟩ 0 none :=
    ⟨fun k hk => absurd hk (Nat.not_lt_zero k), rfl, rfl⟩
  have hend := hrun.preserves
    (P := fun st _ count rejected => st.Replays attempts start count rejected)
    (fun st next above below upper lower count hst hnext => by
      simpa [hnext] using hdrive.step hst (totalSize above) upper.size lower.size)
    (fun st next above below upper lower count reason hst hnext => by
      simpa [hnext] using hdrive.step hst (totalSize above) upper.size lower.size) hnothing
  rwa [Nat.zero_add] at hend

end Replays

section Reorderings

variable {α : Type} [Scalar α] {n : Nat}

/-- The attempts of a standard reordering: an accepted exchange is applied where it was found. -/
def standardAttempts (n : Nat) (tol : Tolerance α) :
    Attempts (StandardForm n α) (StandardAttempt α) (FormError α) where
  make form row upper lower := form.attempt tol row upper lower
  after form a :=
    match a.outcome with
    | .ok e => form.apply a.row e
    | .error _ => form
  refusal? a := refusal? a.outcome

/-- The attempts of a reordering of a pencil: an accepted exchange is applied where it was found. -/
def pencilAttempts (n : Nat) (tol : Tolerance α) :
    Attempts (PencilForm n α) (PencilAttempt α) (FormError α) where
  make form row upper lower := form.attempt tol row upper lower
  after form a :=
    match a.outcome with
    | .ok e => form.apply a.row e
    | .error _ => form
  refusal? a := refusal? a.outcome

/-- The action on standard forms makes attempts and keeps what they leave. -/
theorem drive_standardAction (tol : Tolerance α) :
    (standardAttempts n tol).Drive (standardAction tol) where
  act st row upper lower := by
    rcases houtcome : (st.form.attempt tol row upper lower).outcome with reason | e <;>
      simp only [standardAction, standardAttempts, houtcome, refusal?]
    rfl
  refused f a reason h := by
    simp only [standardAttempts, refusal?_eq_some] at h ⊢
    rw [h]

/-- The action on pencils makes attempts and keeps what they leave. -/
theorem drive_pencilAction (tol : Tolerance α) :
    (pencilAttempts n tol).Drive (pencilAction tol) where
  act st row upper lower := by
    rcases houtcome : (st.form.attempt tol row upper lower).outcome with reason | e <;>
      simp only [pencilAction, pencilAttempts, houtcome, refusal?]
    rfl
  refused f a reason h := by
    simp only [pencilAttempts, refusal?_eq_some] at h ⊢
    rw [h]

/-- A complete or refused reordering in any arithmetic changes nothing outside the rows and columns
from the end of the leading selected blocks to the end of the last selected block, and its form is
the result of the exchanges that it counts. -/
theorem reorder_frame {count : Nat} (tol : Tolerance α) (blocks : List (Block α))
    (selected : List Bool) (hselected : checkSelection blocks selected 2 = .ok count) :
    let first := blocksEnd (blocks.takeWhile fun b => flagAt selected b.start)
    let last := blocksEnd (blocks.filter fun b => flagAt selected b.start)
    (∀ form : StandardForm n α, diagonalBlocks form.s = .ok blocks →
      ∃ r, form.reorder tol selected = .ok r ∧ form.SameOutside first last r.form ∧
        Logged.Replays (standardAttempts n tol) form ⟨r.form, r.log⟩ r.swaps r.rejected ∧
        (r.swaps = 0 → r.form = form)) ∧
    (∀ form : PencilForm n α, pencilBlocks form.s form.t = .ok blocks →
      ∃ r, form.reorder tol selected = .ok r ∧ form.SameOutside first last r.form ∧
        Logged.Replays (pencilAttempts n tol) form ⟨r.form, r.log⟩ r.swaps r.rejected ∧
        (r.swaps = 0 → r.form = form)) := by
  intro first last
  refine ⟨fun form hblocks => ?_, fun form hblocks => ?_⟩
  · have htiles := tiles_of_diagonalBlocks hblocks
    have hreplays := (drive_standardAction tol).gather htiles selected form
    refine ⟨_, StandardForm.reorder_eq_ok.mpr ⟨blocks, count, hblocks, hselected, rfl⟩, ?_,
      hreplays, fun hnone => ?_⟩
    · exact gather_preserves_between htiles
        (P := fun st : Logged _ _ => form.SameOutside first last st.form)
        (fun st row upper lower => standardAction_sameOutside tol form) (.refl form)
    · exact hreplays.untouched hnone
  · have htiles := tiles_of_pencilBlocks hblocks
    have hreplays := (drive_pencilAction tol).gather htiles selected form
    refine ⟨_, PencilForm.reorder_eq_ok.mpr ⟨blocks, count, hblocks, hselected, rfl⟩, ?_,
      hreplays, fun hnone => ?_⟩
    · exact gather_preserves_between htiles
        (P := fun st : Logged _ _ => form.SameOutside first last st.form)
        (fun st row upper lower => pencilAction_sameOutside tol form) (.refl form)
    · exact hreplays.untouched hnone

/-- A triangular matrix of order three. -/
def triangularThree : Mat 3 3 ℝ :=
  Mat.ofFn fun i j => if i ≤ j then j else 0

/-- Three real eigenvalues are recognized in the example. -/
theorem diagonalBlocks_triangularThree :
    diagonalBlocks triangularThree = .ok [.real 0, .real 1, .real 2] := by
  simp [diagonalBlocks, checkSubdiagonal, firstNonzeroBelow, positionsBelow, scanBlocks,
    triangularThree, List.range_succ, Bind.bind, Except.bind, pure, Except.pure]

/-- Three real eigenvalues are recognized in the pencil of the example. -/
theorem pencilBlocks_triangularThree :
    pencilBlocks triangularThree Mat.identity = .ok [.real 0, .real 1, .real 2] := by
  simp [pencilBlocks, checkSubdiagonal, checkTriangular, firstNonzeroBelow, positionsBelow,
    scanBlocks, triangularThree, Mat.identity, List.range_succ, Bind.bind, Except.bind, pure,
    Except.pure]

/-- The last of three eigenvalues is wanted besides the first, so the first column stays. -/
theorem reorder_frame_three :
    (∃ r, StandardForm.reorder Tolerance.standard ⟨triangularThree, some Mat.identity⟩
        [true, false, true] = .ok r ∧ ∀ i, r.form.s.get i 0 = triangularThree.get i 0) ∧
    ∃ r, PencilForm.reorder Tolerance.standard
        ⟨triangularThree, Mat.identity, none, some Mat.identity⟩ [true, false, true] = .ok r ∧
      ∀ i, r.form.s.get i 0 = triangularThree.get i 0 ∧
        r.form.t.get i 0 = (Mat.identity : Mat 3 3 ℝ).get i 0 := by
  have hselected : checkSelection ([.real 0, .real 1, .real 2] : List (Block ℝ))
      [true, false, true] 2 = .ok 2 := by
    simp [checkSelection, blocksEnd, stop, start, size, firstHalfSelected, isPair, flagAt,
      selectedSize]
  obtain ⟨hstandard, hpencil⟩ :=
    reorder_frame (n := 3) Tolerance.standard _ [true, false, true] hselected
  have hleading : 0 < blocksEnd (([.real 0, .real 1, .real 2] : List (Block ℝ)).takeWhile
      fun b => flagAt [true, false, true] b.start) := by
    simp [flagAt, blocksEnd, stop, start, size]
  obtain ⟨r, hr, houtside, -, -⟩ :=
    hstandard ⟨triangularThree, some Mat.identity⟩ diagonalBlocks_triangularThree
  obtain ⟨r', hr', houtside', -, -⟩ := hpencil
    ⟨triangularThree, Mat.identity, none, some Mat.identity⟩ pencilBlocks_triangularThree
  exact ⟨⟨r, hr, fun i => houtside.s i 0 (Or.inl hleading)⟩, r', hr',
    fun i => ⟨houtside'.s i 0 (Or.inl hleading), houtside'.t i 0 (Or.inl hleading)⟩⟩

end Reorderings

end SchurForm
