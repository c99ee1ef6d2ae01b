import SchurForm.Proofs.EigenvalueLayout
import SchurForm.Proofs.PackedColumns
import SchurForm.Proofs.ReorderingOutcome

/-!
# Selections made by a predicate fit

A predicate is asked once for every block, from top to bottom. What it does besides answering is
kept: the predicates are arbitrary effectful functions, and selecting is one traversal of the offers
followed by writing each answer into the rows of its block. Such a selection passes the check that
reordering and eigenvectors begin with, and the check counts what the selection counted. For any
blocks that fill the rows, the check accepts exactly the flag lists of the right length that agree
on every pair.

Nothing here depends on the arithmetic.
-/

namespace SchurForm

open Block

variable {α : Type} {n : Nat}

section Answers

/-- The selection that gives all rows of each block the answer for the block. -/
def selectionOf (blocks : List (Block α)) (answers : List Bool) : Selection :=
  { selected := (List.zipWith (fun b keep => List.replicate b.size keep) blocks answers).flatten
    count := (List.zipWith (fun b keep => if keep then b.size else 0) blocks answers).sum }

/-- Without blocks nothing is selected. -/
@[simp] theorem selectionOf_nil : selectionOf ([] : List (Block α)) [] = ⟨[], 0⟩ := rfl

/-- The answer for a block is written into all of its rows, and counts with its order. -/
@[simp] theorem selectionOf_cons (b : Block α) (blocks : List (Block α)) (keep : Bool)
    (answers : List Bool) : selectionOf (b :: blocks) (keep :: answers) =
      ⟨List.replicate b.size keep ++ (selectionOf blocks answers).selected,
        (if keep then b.size else 0) + (selectionOf blocks answers).count⟩ := by
  simp [selectionOf]

/-- Asking for each block is asking for every offer, from first to last, and writing the answers
into the rows of the blocks. -/
theorem askEach_eq_mapM {β : Type} {M : Type → Type} [Monad M] [LawfulMonad M] (ask : β → M Bool)
    (offers : List (Block α × β)) : askEach ask offers =
      selectionOf (offers.map Prod.fst) <$> (offers.map Prod.snd).mapM ask := by
  induction offers with
  | nil => simp [askEach]
  | cons entry offers ih =>
    obtain ⟨b, offer⟩ := entry
    simp [askEach, ih, List.mapM_cons]

/-- A selection follows the answers for the blocks of `n` rows: there is a flag for every row, all
rows of a block have its answer, and the flags that are set are counted. -/
structure Selection.Follows (selection : Selection) (blocks : List (Block α)) (answers : List Bool)
    (n : Nat) : Prop where
  length : selection.selected.length = n
  flags : List.Forall₂
    (fun b keep => ∀ row, b.covers row = true → flagAt selection.selected row = keep) blocks answers
  count : selection.count = selection.selected.count true

/-- The rows of each block of a tiling have its answer. -/
theorem flags_selectionOf {first last : Nat} {blocks : List (Block α)} {answers : List Bool}
    (htiles : Tiles first blocks last) (hlength : answers.length = blocks.length) :
    List.Forall₂ (fun b keep => ∀ row, b.covers row = true →
      first ≤ row ∧ flagAt (selectionOf blocks answers).selected (row - first) = keep)
      blocks answers := by
  induction blocks generalizing first answers with
  | nil => simpa using hlength
  | cons b blocks ih =>
    obtain ⟨keep, answers, rfl⟩ := List.exists_cons_of_length_eq_add_one hlength
    refine List.Forall₂.cons (fun row hrow => ?_) ?_
    · obtain rfl := htiles.start_head
      rw [covers, Bool.and_eq_true, decide_eq_true_eq, decide_eq_true_eq, stop] at hrow
      have hinside : row - b.start < b.size := by omega
      refine ⟨hrow.1, ?_⟩
      simp [flagAt, List.getElem?_append, hinside]
    · refine (ih htiles.tail (Nat.succ.inj hlength)).imp fun c kept h row hrow => ?_
      obtain ⟨hfirst, hflag⟩ := h row hrow
      have hbehind : ¬row - first < b.size := by omega
      refine ⟨by omega, ?_⟩
      simpa [flagAt, List.getElem?_append, hbehind, Nat.sub_sub] using hflag

/-- The selection of some answers follows them. -/
theorem follows_selectionOf {blocks : List (Block α)} {answers : List Bool}
    (htiles : Tiles 0 blocks n) (hlength : answers.length = blocks.length) :
    (selectionOf blocks answers).Follows blocks answers n := by
  have hcounts (blocks : List (Block α)) (answers : List Bool)
      (hlength : answers.length = blocks.length) :
      (selectionOf blocks answers).selected.length = totalSize blocks ∧
        (selectionOf blocks answers).count = (selectionOf blocks answers).selected.count true := by
    induction blocks generalizing answers with
    | nil => simp [List.eq_nil_of_length_eq_zero hlength]
    | cons b blocks ih =>
      obtain ⟨keep, answers, rfl⟩ := List.exists_cons_of_length_eq_add_one hlength
      obtain ⟨hrows, hcount⟩ := ih answers (Nat.succ.inj hlength)
      rw [selectionOf_cons, List.length_append, List.count_append, hrows, hcount]
      cases keep <;> simp [List.count_replicate]
  obtain ⟨hrows, hcount⟩ := hcounts blocks answers hlength
  refine ⟨?_, ?_, hcount⟩
  · rw [hrows]
    simpa using htiles.last_eq.symm
  · exact (flags_selectionOf htiles hlength).imp fun b keep h row hrow => (h row hrow).2

end Answers

section Check

variable {blocks : List (Block α)} {selected : List Bool} {position count : Nat}

/-- A flag for every row, the same one in both rows of a pair, passes the check. -/
theorem checkSelection_of_fits (htiles : Tiles 0 blocks n) (hlength : selected.length = n)
    (hpairs : ∀ b ∈ blocks, b.isPair = true →
      flagAt selected b.start = flagAt selected (b.start + 1)) (position : Nat) :
    checkSelection blocks selected position = .ok (selected.count true) := by
  have hend : blocksEnd blocks = n := htiles.blocksEnd_eq fun _ => rfl
  have hnone : firstHalfSelected blocks selected = none := by
    refine List.find?_eq_none.mpr fun b hb => ?_
    cases hpair : b.isPair with
    | false => simp
    | true => simp [hpairs b hb hpair]
  have hok : checkSelection blocks selected position = .ok (selectedSize blocks selected) := by
    rw [checkSelection, hend, if_neg (not_not.mpr hlength), hnone]
  rw [hok, ← totalSize_selected htiles hok]
  rfl

/-- The check of a selection accepts a flag for every row if the two flags of every pair agree, and
nothing else. It counts the flags that are set. -/
theorem checkSelection_eq_ok_iff (htiles : Tiles 0 blocks n) :
    checkSelection blocks selected position = .ok count ↔
      selected.length = n ∧ (∀ b ∈ blocks, b.isPair = true →
        flagAt selected b.start = flagAt selected (b.start + 1)) ∧
      count = selected.count true := by
  constructor
  · intro h
    obtain ⟨hlength, hpairs⟩ := checkSelection_fits htiles h
    rw [checkSelection_of_fits htiles hlength hpairs] at h
    exact ⟨hlength, hpairs, (Except.ok.inj h).symm⟩
  · rintro ⟨hlength, hpairs, rfl⟩
    exact checkSelection_of_fits htiles hlength hpairs position

/-- The check of a selection rejects a list of another length as such. -/
theorem checkSelection_of_length_ne (htiles : Tiles 0 blocks n) (hlength : selected.length ≠ n) :
    checkSelection blocks selected position = .error (.invalidArgument position "selected"
      (.selectionLength n selected.length)) := by
  have hend : blocksEnd blocks = n := htiles.blocksEnd_eq fun _ => rfl
  rw [checkSelection, hend, if_pos hlength]

/-- A selection that follows answers passes the check with the count that it has. -/
theorem Selection.Follows.checkSelection {selection : Selection} {answers : List Bool}
    (h : selection.Follows blocks answers n) (htiles : Tiles 0 blocks n) (position : Nat) :
    checkSelection blocks selection.selected position = .ok selection.count := by
  rw [h.count]
  refine checkSelection_of_fits htiles h.length (fun b hb hpair => ?_) position
  obtain ⟨i, hi, rfl⟩ := List.getElem_of_mem hb
  have hflag := h.flags.get hi (h.flags.length_eq ▸ hi)
  have hsize : blocks[i].size = 2 := by
    cases hcase : blocks[i] with
    | real k => simp [hcase, isPair] at hpair
    | pair k re im => rfl
  have hcovers (r : Nat) (hr : r < 2) : blocks[i].covers (blocks[i].start + r) = true := by
    simp [covers, stop, hsize, hr]
  exact (hflag _ (hcovers 0 two_pos)).trans (hflag _ (hcovers 1 one_lt_two)).symm

end Check

variable [Scalar α]

section Consumers

variable {norm : Normalization} {tol : Tolerance α} {selected : List Bool} {count : Nat}
  {blocks : List (Block α)}

/-- A selection that passes the check is refused neither by reordering nor by the eigenvectors. -/
theorem StandardForm.accepts_selection {form : StandardForm n α}
    (hblocks : diagonalBlocks form.s = .ok blocks)
    (hselected : checkSelection blocks selected 2 = .ok count) :
    (∃ r, form.reorder tol selected = .ok r) ∧ ∃ r, form.eigenvectors norm selected = .ok r :=
  ⟨⟨_, reorder_eq_ok.mpr ⟨blocks, count, hblocks, hselected, rfl⟩⟩,
    ⟨_, eigenvectors_eq_ok hblocks hselected⟩⟩

/-- A selection that passes the check is refused neither by reordering nor by the eigenvectors. -/
theorem PencilForm.accepts_selection {form : PencilForm n α}
    (hblocks : pencilBlocks form.s form.t = .ok blocks)
    (hselected : checkSelection blocks selected 2 = .ok count) :
    (∃ r, form.reorder tol selected = .ok r) ∧ ∃ r, form.eigenvectors norm selected = .ok r :=
  ⟨⟨_, reorder_eq_ok.mpr ⟨blocks, count, hblocks, hselected, rfl⟩⟩,
    ⟨_, eigenvectors_eq_ok hblocks hselected⟩⟩

end Consumers

section Predicates

variable {M : Type → Type} [Monad M] [LawfulMonad M] {blocks : List (Block α)}

/-- Selecting in a recognized standard form offers the value of every block. -/
theorem select_eq_mapM {s : Mat n n α} (hblocks : diagonalBlocks s = .ok blocks)
    (predicate : α × α → M Bool) : select s predicate =
      (fun answers => .ok (selectionOf blocks answers)) <$>
        (blocks.map (offer s)).mapM predicate := by
  simp only [select, hblocks, selectBlocks, askEach_eq_mapM, List.map_map, Function.comp_def,
    List.map_id', Functor.map_map]

/-- Selecting in a recognized pencil offers for every block what stands in the eigenvalue lists at
its first row. -/
theorem selectPencil_eq_mapM {s t : Mat n n α} (hblocks : pencilBlocks s t = .ok blocks)
    (predicate : α × α × α → M Bool) : selectPencil s t predicate =
      (fun answers => .ok (selectionOf blocks answers)) <$>
        (blocks.map fun b => (pencilEigenvalues s t blocks).at b.start).mapM predicate := by
  simp only [selectPencil, hblocks, selectPencilBlocks, askEach_eq_mapM, List.map_map,
    Function.comp_def, List.map_id', Functor.map_map]
  rfl

/-- A test without effects is answered for every offer. -/
theorem selectBy_eq_selectionOf {s : Mat n n α} (hblocks : diagonalBlocks s = .ok blocks)
    (test : α × α → Bool) :
    selectBy s test = .ok (selectionOf blocks (blocks.map fun b => test (b.offer s))) := by
  rw [selectBy, select_eq_mapM hblocks, List.mapM_pure, List.map_map]
  rfl

/-- A test without effects is answered for every offer. -/
theorem selectPencilBy_eq_selectionOf {s t : Mat n n α} (hblocks : pencilBlocks s t = .ok blocks)
    (test : α × α × α → Bool) : selectPencilBy s t test = .ok (selectionOf blocks
      (blocks.map fun b => test ((pencilEigenvalues s t blocks).at b.start))) := by
  rw [selectPencilBy, selectPencil_eq_mapM hblocks, List.mapM_pure, List.map_map]
  rfl

end Predicates

/-- Selecting in a form that is recognized asks the predicate exactly once for every block, from top
to bottom: for the diagonal entry with imaginary part zero, for the eigenvalue of a pair, in a
pencil for the entry of the eigenvalue lists in the first row. Whatever the answers are, the
selection gives them to all rows of their blocks and counts the flags that are set, it passes the
check with that count, and neither reordering nor the eigenvectors refuse it. For all blocks that
fill `n` rows the check accepts a list of flags exactly if it has length `n` and agrees on every
pair, and then it counts the flags that are set; a list of another length is rejected for its
length. -/
theorem select_fits {M : Type → Type} [Monad M] [LawfulMonad M] (tol : Tolerance α)
    (norm : Normalization) :
    (∀ (s : Mat n n α) (blocks : List (Block α)), diagonalBlocks s = .ok blocks →
      (∀ predicate : α × α → M Bool, select s predicate =
        (fun answers => .ok (selectionOf blocks answers)) <$>
          (blocks.map fun b => b.offer s).mapM predicate) ∧
      (∀ test : α × α → Bool, selectBy s test =
        .ok (selectionOf blocks (blocks.map fun b => test (b.offer s)))) ∧
      ∀ answers : List Bool, answers.length = blocks.length →
        let selection := selectionOf blocks answers
        selection.Follows blocks answers n ∧
        (∀ position, checkSelection blocks selection.selected position = .ok selection.count) ∧
        ∀ q, (∃ r, StandardForm.reorder tol ⟨s, q⟩ selection.selected = .ok r) ∧
          ∃ r, StandardForm.eigenvectors norm ⟨s, q⟩ selection.selected = .ok r) ∧
    (∀ (s t : Mat n n α) (blocks : List (Block α)), pencilBlocks s t = .ok blocks →
      let eig := pencilEigenvalues s t blocks
      (∀ predicate : α × α × α → M Bool, selectPencil s t predicate =
        (fun answers => .ok (selectionOf blocks answers)) <$>
          (blocks.map fun b => eig.at b.start).mapM predicate) ∧
      (∀ test : α × α × α → Bool, selectPencilBy s t test =
        .ok (selectionOf blocks (blocks.map fun b => test (eig.at b.start)))) ∧
      ∀ answers : List Bool, answers.length = blocks.length →
        let selection := selectionOf blocks answers
        selection.Follows blocks answers n ∧
        (∀ position, checkSelection blocks selection.selected position = .ok selection.count) ∧
        ∀ q z, (∃ r, PencilForm.reorder tol ⟨s, t, q, z⟩ selection.selected = .ok r) ∧
          ∃ r, PencilForm.eigenvectors norm ⟨s, t, q, z⟩ selection.selected = .ok r) ∧
    ∀ blocks : List (Block α), Tiles 0 blocks n → ∀ selected position,
      (∀ count, checkSelection blocks selected position = .ok count ↔
        selected.length = n ∧ (∀ b ∈ blocks, b.isPair = true →
          flagAt selected b.start = flagAt selected (b.start + 1)) ∧
        count = selected.count true) ∧
      (selected.length ≠ n → checkSelection blocks selected position =
        .error (.invalidArgument position "selected" (.selectionLength n selected.length))) := by
  refine ⟨fun s blocks hblocks =>
      ⟨select_eq_mapM hblocks, selectBy_eq_selectionOf hblocks, fun answers hlength => ?_⟩,
    fun s t blocks hblocks =>
      ⟨selectPencil_eq_mapM hblocks, selectPencilBy_eq_selectionOf hblocks,
        fun answers hlength => ?_⟩,
    fun blocks htiles selected position =>
      ⟨fun count => checkSelection_eq_ok_iff htiles, checkSelection_of_length_ne htiles⟩⟩
  · have htiles := tiles_of_diagonalBlocks hblocks
    have hfollows := follows_selectionOf htiles hlength
    exact ⟨hfollows, hfollows.checkSelection htiles, fun q =>
      StandardForm.accepts_selection hblocks (hfollows.checkSelection htiles 2)⟩
  · have htiles := tiles_of_pencilBlocks hblocks
    have hfollows := follows_selectionOf htiles hlength
    exact ⟨hfollows, hfollows.checkSelection htiles, fun q z =>
      PencilForm.accepts_selection hblocks (hfollows.checkSelection htiles 2)⟩

/-- A predicate that writes down its offers and wants the ones that are not real: it sees a real
eigenvalue and one of a pair, and both rows of the pair are selected. -/
theorem select_fits_turn :
    let predicate : ℝ × ℝ → StateM (List (ℝ × ℝ)) Bool := fun v => do
      modify (· ++ [v])
      pure (v.2 != 0)
    let selection : Selection := ⟨[false, true, true], 2⟩
    (select turnBelowReal predicate).run [] = (.ok selection, [(5, 0), (0, 1)]) ∧
    checkSelection ([.real 0, .pair 1 0 1] : List (Block ℝ)) selection.selected 2 = .ok 2 ∧
    ∃ r, StandardForm.reorder Tolerance.standard ⟨turnBelowReal, none⟩ selection.selected =
      .ok r := by
  intro predicate selection
  have hblocks := diagonalBlocks_turnBelowReal
  obtain ⟨hstandard, -, -⟩ := select_fits (M := StateM (List (ℝ × ℝ))) (α := ℝ) (n := 3)
    Tolerance.standard .maxAbs
  obtain ⟨hasked, -, hanswers⟩ := hstandard turnBelowReal _ hblocks
  obtain ⟨-, hcheck, hconsumers⟩ := hanswers [false, true] rfl
  refine ⟨?_, hcheck 2, (hconsumers none).1⟩
  rw [hasked predicate]
  simp [predicate, selection, offer, turnBelowReal, size]
  rfl

end SchurForm
