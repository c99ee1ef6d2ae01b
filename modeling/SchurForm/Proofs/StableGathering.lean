import Mathlib.Data.List.Induction
import Mathlib.Tactic.Ring
import SchurForm.Proofs.BlockLayout
import SchurForm.Reordering.Gathering

/-!
# Gathering is a stable partition

What a gathering does to the blocks is independent of what an exchange does to the state. A run of
adjacent exchanges is described by `ExchangeRun` on the original blocks in their present order: each
exchange swaps an unchosen block with the chosen block directly below it, and is told the row where
the two stand and their orders. `gather_exchangeRun` says that every gathering is such a run, that
the blocks are laid out in the order the run ends with, and which order that is.

The flags are read through the present first row of a block. Blocks that have not been looked at
still stand on their original rows, so their flags are the right ones.
-/

namespace SchurForm

open Block

variable {α σ ε : Type}

/-- A run of exchanges of an unchosen block with a chosen block directly below it. The block lists
hold the original blocks in the order before and after the run; the last entry is the refusal that
ended the run, behind which nothing is asked for. -/
inductive ExchangeRun (act : ExchangeAction σ ε) (chosen : Block α → Bool) :
    σ → List (Block α) → Nat → σ → List (Block α) → Option ε → Prop where
  | done (state : σ) (order : List (Block α)) :
      ExchangeRun act chosen state order 0 state order none
  | accepted {state next final : σ} {above below result : List (Block α)} {upper lower : Block α}
      {swaps : Nat} {rejected : Option ε}
      (unchosen : chosen upper = false) (wanted : chosen lower = true)
      (exchanged : act state (totalSize above) upper.size lower.size = (next, none))
      (rest : ExchangeRun act chosen next (above ++ lower :: upper :: below) swaps final result
        rejected) :
      ExchangeRun act chosen state (above ++ upper :: lower :: below) (swaps + 1) final result
        rejected
  | refused {state final : σ} {above below : List (Block α)} {upper lower : Block α} {reason : ε}
      (unchosen : chosen upper = false) (wanted : chosen lower = true)
      (refusal : act state (totalSize above) upper.size lower.size = (final, some reason)) :
      ExchangeRun act chosen state (above ++ upper :: lower :: below) 0 final
        (above ++ upper :: lower :: below) (some reason)

/-- The number of pairs of an unchosen block and a chosen block somewhere below it. -/
def inversions (chosen : Block α → Bool) : List (Block α) → Nat
  | [] => 0
  | b :: rest => (if chosen b then 0 else rest.countP chosen) + inversions chosen rest

/-- Where a gathering leaves the blocks. Unless an exchange was refused, the chosen blocks come
first and both kinds keep their order. After a refusal the front holds the first chosen blocks,
fewer than there are, and an unchosen block follows. -/
def StablyGathered (chosen : Block α → Bool) (blocks order : List (Block α)) (gathered : Nat) :
    Option ε → Prop
  | none =>
    order = blocks.filter chosen ++ blocks.filter (!chosen ·) ∧
      gathered = (blocks.filter chosen).length
  | some _ =>
    gathered < (blocks.filter chosen).length ∧ ∃ (next : Block α) (tail : List (Block α)),
      chosen next = false ∧ order = (blocks.filter chosen).take gathered ++ next :: tail

/-- Exchanges permute the blocks. -/
theorem ExchangeRun.perm {act : ExchangeAction σ ε} {chosen : Block α → Bool} {state final : σ}
    {order result : List (Block α)} {swaps : Nat} {rejected : Option ε}
    (h : ExchangeRun act chosen state order swaps final result rejected) : result.Perm order := by
  induction h with
  | done => exact List.Perm.refl _
  | accepted _ _ _ _ ih => exact ih.trans ((List.Perm.swap _ _ _).append_left _)
  | refused => exact List.Perm.refl _

/-- Unchosen blocks in front add one inversion for each of them and each chosen block below. -/
theorem inversions_append_of_unchosen {chosen : Block α → Bool} {waiting : List (Block α)}
    (h : ∀ b ∈ waiting, chosen b = false) (rest : List (Block α)) :
    inversions chosen (waiting ++ rest) =
      waiting.length * rest.countP chosen + inversions chosen rest := by
  induction waiting with
  | nil => simp
  | cons b waiting ih =>
    have hb : chosen b = false := h b List.mem_cons_self
    have hwaiting : ∀ c ∈ waiting, chosen c = false := fun c hc => h c (List.mem_cons_of_mem b hc)
    have hcount : waiting.countP chosen = 0 := by
      rw [List.countP_eq_zero]
      exact fun c hc => by simp [hwaiting c hc]
    simp only [List.cons_append, inversions, hb, Bool.false_eq_true, ↓reduceIte,
      List.countP_append, hcount, ih hwaiting, List.length_cons]
    ring

/-- What the end of carrying a block says about the run of exchanges that it made: `above` stands
still, `waiting` was passed, `below` was not reached. The run goes on if the block has arrived. -/
def Climb.Explains (act : ExchangeAction σ ε) (chosen : Block α → Bool) (state : σ)
    (above waiting : List (Block α)) (b : Block α) (below : List (Block α)) :
    Climb α σ ε → Prop
  | .arrived next moved passed swaps =>
    moved = b.moveTo (totalSize above) ∧ passed = layOut (totalSize above + b.size) waiting ∧
      swaps = waiting.length ∧
      ∀ (more : Nat) (final : σ) (result : List (Block α)) (rejected : Option ε),
        ExchangeRun act chosen next (above ++ b :: waiting ++ below) more final result rejected →
        ExchangeRun act chosen state (above ++ waiting ++ b :: below) (swaps + more) final result
          rejected
  | .refused final blocks swaps reason =>
    ∃ (stayed passed : List (Block α)), stayed ≠ [] ∧ waiting = stayed ++ passed ∧
      blocks = layOut (totalSize above) (stayed ++ b :: passed) ∧
      ExchangeRun act chosen state (above ++ waiting ++ b :: below) swaps final
        (above ++ stayed ++ b :: passed ++ below) (some reason)

/-- Carrying a chosen block up past unchosen blocks is a run of exchanges. -/
theorem climb_explains (act : ExchangeAction σ ε) (chosen : Block α → Bool)
    (above waiting : List (Block α)) (b : Block α) (below : List (Block α)) (state : σ)
    (hb : chosen b = true) (hwaiting : ∀ c ∈ waiting, chosen c = false) :
    (climb act (b.moveTo (totalSize above + totalSize waiting))
      (layOut (totalSize above) waiting).reverse state).Explains
        act chosen state above waiting b below := by
  -- Blocks are passed from the lowest one up, so the induction peels the last of them.
  induction waiting using List.reverseRecOn generalizing state below with
  | nil =>
    simp only [layOut_nil, List.reverse_nil, climb, Climb.Explains, totalSize_nil, Nat.add_zero]
    refine ⟨trivial, trivial, rfl, fun more final result rejected hrun => ?_⟩
    simpa using hrun
  | append_singleton waiting upper ih =>
    have hupper : chosen upper = false := hwaiting upper (by simp)
    have hwaiting' : ∀ c ∈ waiting, chosen c = false := fun c hc => hwaiting c (by simp [hc])
    have hlay : (layOut (totalSize above) (waiting ++ [upper])).reverse =
        upper.moveTo (totalSize above + totalSize waiting) ::
          (layOut (totalSize above) waiting).reverse := by simp
    rw [hlay, climb]
    simp only [start_moveTo, size_moveTo, moveTo_moveTo]
    rcases hact : act state (totalSize above + totalSize waiting) upper.size b.size with
      ⟨next, _ | reason⟩
    · have hstep : act state (totalSize (above ++ waiting)) upper.size b.size = (next, none) := by
        rw [totalSize_append, hact]
      have hclimb := ih (upper :: below) next hwaiting'
      dsimp only
      split
      · next state' moved passed swaps heq =>
        rw [heq] at hclimb
        obtain ⟨hmoved, hpassed, hswaps, hcontinue⟩ := hclimb
        refine ⟨hmoved, ?_, by simp [hswaps], fun more final result rejected hrun => ?_⟩
        · rw [hpassed, layOut_append, layOut_cons, layOut_nil]
          congr 3
          omega
        · have hrest := hcontinue more final result rejected (by simpa using hrun)
          have hrun : ExchangeRun act chosen state (above ++ waiting ++ upper :: b :: below)
              (swaps + more + 1) final result rejected :=
            ExchangeRun.accepted hupper hb hstep (by simpa using hrest)
          simpa [Nat.add_right_comm] using hrun
      · next state' blocks swaps reason heq =>
        rw [heq] at hclimb
        obtain ⟨stayed, passed, hne, rfl, hblocks, hrest⟩ := hclimb
        refine ⟨stayed, passed ++ [upper], hne, by simp, ?_, ?_⟩
        · rw [hblocks]
          simp only [layOut_append, layOut_cons, totalSize_append, layOut_nil,
            List.append_assoc, List.cons_append]
          congr 5
          omega
        · have hrun : ExchangeRun act chosen state
              (above ++ (stayed ++ passed) ++ upper :: b :: below) (swaps + 1) state'
              (above ++ stayed ++ b :: passed ++ upper :: below) (some reason) :=
            ExchangeRun.accepted hupper hb hstep (by simpa using hrest)
          simpa using hrun
    · have hstep : act state (totalSize (above ++ waiting)) upper.size b.size =
          (next, some reason) := by rw [totalSize_append, hact]
      refine ⟨waiting ++ [upper], [], by simp, by simp, ?_, ?_⟩
      · simp [Nat.add_assoc]
      · have hrun : ExchangeRun act chosen state (above ++ waiting ++ upper :: b :: below) 0 next
            (above ++ waiting ++ upper :: b :: below) (some reason) :=
          ExchangeRun.refused hupper hb hstep
        simpa using hrun

/-- Unchosen blocks contribute nothing to the chosen ones. -/
theorem filter_chosen_of_unchosen {chosen : Block α → Bool} {waiting : List (Block α)}
    (h : ∀ b ∈ waiting, chosen b = false) : waiting.filter chosen = [] := by
  simpa [List.filter_eq_nil_iff] using h

section Partition

variable {chosen : Block α → Bool} {front waiting : List (Block α)}
  (hfront : ∀ b ∈ front, chosen b = true) (hwaiting : ∀ b ∈ waiting, chosen b = false)

include hfront hwaiting

/-- Chosen blocks above unchosen ones are stably gathered. -/
theorem stablyGathered_done :
    StablyGathered chosen (front ++ waiting) (front ++ waiting) front.length (none : Option ε) := by
  have hunchosen : front.filter (!chosen ·) = [] := by
    simpa [List.filter_eq_nil_iff] using hfront
  have hchosen : waiting.filter chosen = [] := filter_chosen_of_unchosen hwaiting
  have hfront' : front.filter chosen = front := List.filter_eq_self.mpr hfront
  have hwaiting' : waiting.filter (!chosen ·) = waiting := by
    simpa [List.filter_eq_self] using hwaiting
  simp [StablyGathered, hunchosen, hchosen, hfront', hwaiting']

omit hfront in
/-- Carrying a chosen block past unchosen ones keeps the order within both kinds. -/
theorem StablyGathered.of_carried {b : Block α} (hb : chosen b = true) {rest order : List (Block α)}
    {gathered : Nat} {rejected : Option ε}
    (h : StablyGathered chosen (front ++ [b] ++ waiting ++ rest) order gathered rejected) :
    StablyGathered chosen (front ++ waiting ++ b :: rest) order gathered rejected := by
  have hchosen : (front ++ [b] ++ waiting ++ rest).filter chosen =
      (front ++ waiting ++ b :: rest).filter chosen := by
    simp [filter_chosen_of_unchosen hwaiting, hb]
  have hunchosen : (front ++ [b] ++ waiting ++ rest).filter (!chosen ·) =
      (front ++ waiting ++ b :: rest).filter (!chosen ·) := by simp [hb]
  cases rejected with
  | none => simpa only [StablyGathered, hchosen, hunchosen] using h
  | some reason => simpa only [StablyGathered, hchosen] using h

/-- A chosen block that was stopped below an unchosen one ends the gathering. -/
theorem stablyGathered_refused {stayed passed : List (Block α)} (hne : stayed ≠ [])
    (hsplit : waiting = stayed ++ passed) {b : Block α} (hb : chosen b = true)
    (rest : List (Block α)) (reason : ε) :
    StablyGathered chosen (front ++ waiting ++ b :: rest) (front ++ stayed ++ b :: passed ++ rest)
      front.length (some reason) := by
  obtain ⟨next, stayed, rfl⟩ := List.exists_cons_of_ne_nil hne
  have hfilter :
      (front ++ waiting ++ b :: rest).filter chosen = front ++ b :: rest.filter chosen := by
    rw [List.filter_append, List.filter_append, filter_chosen_of_unchosen hwaiting,
      List.filter_eq_self.mpr hfront]
    simp [hb]
  refine ⟨?_, next, stayed ++ b :: passed ++ rest, hwaiting next (by simp [hsplit]), ?_⟩
  · rw [hfilter]
    simp
  · rw [hfilter]
    simp

end Partition

/-- Gathering goes on as a run of exchanges that ends in a stable partition. The blocks at the front
are chosen and those waiting below them are not; the blocks to come stand where they always did. -/
theorem gatherFrom_exchangeRun (act : ExchangeAction σ ε) (chosen : Block α → Bool)
    (selected : List Bool) (front waiting rest : List (Block α)) (swaps : Nat) (state : σ)
    (hflag : ∀ b ∈ rest, flagAt selected b.start = chosen b)
    (hfront : ∀ b ∈ front, chosen b = true) (hwaiting : ∀ b ∈ waiting, chosen b = false)
    (hrest : layOut (totalSize front + totalSize waiting) rest = rest) :
    ∃ (g : Gathering α σ ε) (more : Nat) (order : List (Block α)),
      gatherFrom act selected (layOut 0 front) (layOut (totalSize front) waiting) rest swaps state
        = g ∧
      g.swaps = swaps + more ∧ g.blocks = layOut 0 order ∧
      ExchangeRun act chosen state (front ++ waiting ++ rest) more g.state order g.rejected ∧
      StablyGathered chosen (front ++ waiting ++ rest) order g.gathered g.rejected ∧
      (g.rejected = none → more = inversions chosen (waiting ++ rest)) := by
  induction rest generalizing front waiting swaps state with
  | nil =>
    refine ⟨_, 0, front ++ waiting, by rw [gatherFrom], rfl, by simp, ?_, ?_, fun _ => ?_⟩
    · simpa using ExchangeRun.done state (front ++ waiting)
    · simpa using stablyGathered_done hfront hwaiting
    · rw [inversions_append_of_unchosen hwaiting]
      simp [inversions]
  | cons b rest ih =>
    have hb : flagAt selected b.start = chosen b := hflag b List.mem_cons_self
    have hflag' : ∀ c ∈ rest, flagAt selected c.start = chosen c :=
      fun c hc => hflag c (List.mem_cons_of_mem b hc)
    rw [layOut_cons, List.cons.injEq] at hrest
    obtain ⟨hmove, hrest⟩ := hrest
    rw [gatherFrom]
    cases hcb : chosen b with
    | false =>
      have hwaiting' : ∀ c ∈ waiting ++ [b], chosen c = false := by
        simpa [or_imp, forall_and, hcb] using hwaiting
      have hlay : layOut (totalSize front) (waiting ++ [b]) =
          layOut (totalSize front) waiting ++ [b] := by simp [hmove]
      obtain ⟨g, more, order, hg, hswaps, hblocks, hrun, hstable, hcount⟩ :=
        ih front (waiting ++ [b]) swaps state hflag' hfront hwaiting'
          (by simpa [Nat.add_assoc] using hrest)
      refine ⟨g, more, order, ?_, hswaps, hblocks, by simpa using hrun, by simpa using hstable,
        by simpa using hcount⟩
      rw [← hg, hlay]
      simp [hb, hcb]
    | true =>
      have hclimb := climb_explains act chosen front waiting b rest state hcb hwaiting
      rw [hmove] at hclimb
      simp only [hb, hcb, ↓reduceIte]
      split
      · next next moved passed ahead heq =>
        rw [heq] at hclimb
        obtain ⟨rfl, rfl, rfl, hcontinue⟩ := hclimb
        have hfront' : ∀ c ∈ front ++ [b], chosen c = true := by
          simpa [or_imp, forall_and, hcb] using hfront
        obtain ⟨g, more, order, hg, hswaps, hblocks, hrun, hstable, hcount⟩ :=
          ih (front ++ [b]) waiting (swaps + waiting.length) next hflag' hfront' hwaiting
            (by simpa [Nat.add_right_comm] using hrest)
        refine ⟨g, waiting.length + more, order, ?_, by omega, hblocks, ?_, ?_, fun hnone => ?_⟩
        · rw [← hg]
          simp
        · exact hcontinue more _ _ _ (by simpa using hrun)
        · exact StablyGathered.of_carried hwaiting hcb hstable
        · rw [hcount hnone, inversions_append_of_unchosen hwaiting,
            inversions_append_of_unchosen hwaiting]
          simp only [List.countP_cons, hcb, ↓reduceIte, inversions]
          ring
      · next final blocks ahead reason heq =>
        rw [heq] at hclimb
        obtain ⟨stayed, passed, hne, rfl, rfl, hrun⟩ := hclimb
        have hblocks : layOut 0 front ++ layOut (totalSize front) (stayed ++ b :: passed) ++ rest =
            layOut 0 (front ++ stayed ++ b :: passed ++ rest) := by
          have hsize : 0 + totalSize (front ++ stayed ++ b :: passed) =
              totalSize front + totalSize (stayed ++ passed) + b.size := by
            simp only [totalSize_append, totalSize_cons]
            omega
          rw [layOut_append 0 (front ++ stayed ++ b :: passed), hsize, hrest]
          simp
        refine ⟨_, ahead, front ++ stayed ++ b :: passed ++ rest, rfl, rfl, hblocks, hrun, ?_,
          fun hnone => nomatch hnone⟩
        simp only [length_layOut]
        exact stablyGathered_refused hfront hwaiting hne rfl hcb rest reason

/-- Gathering all selected blocks of a tiling is a run of exchanges that ends in a stable
partition. -/
theorem gather_exchangeRun (act : ExchangeAction σ ε) (blocks : List (Block α))
    (selected : List Bool) (n : Nat) (state : σ) (htiles : Tiles 0 blocks n) :
    ∃ order : List (Block α),
      let chosen := fun b : Block α => flagAt selected b.start
      let g := gather act blocks selected state
      g.blocks = layOut 0 order ∧
      ExchangeRun act chosen state blocks g.swaps g.state order g.rejected ∧
      StablyGathered chosen blocks order g.gathered g.rejected ∧
      (g.rejected = none → g.swaps = inversions chosen blocks) := by
  obtain ⟨g, more, order, hg, hswaps, hblocks, hrun, hstable, hcount⟩ :=
    gatherFrom_exchangeRun act (fun b : Block α => flagAt selected b.start) selected [] [] blocks 0
      state (fun _ _ => rfl) (by simp) (by simp) (by simpa using htiles.layOut_eq)
  have hgather : gather act blocks selected state = g := hg
  rw [Nat.zero_add] at hswaps
  subst hswaps
  refine ⟨order, ?_⟩
  simp only [hgather]
  exact ⟨hblocks, hrun, hstable, hcount⟩

/-- A row lies in a block of a layout exactly if it is one of the rows that are laid out. -/
theorem any_covers_layOut (first row : Nat) (order : List (Block α)) :
    ((layOut first order).any fun b => b.covers row) =
      (decide (first ≤ row) && decide (row < first + totalSize order)) := by
  induction order generalizing first with
  | nil =>
    rw [layOut_nil, List.any_nil, totalSize_nil, Bool.eq_iff_iff]
    simp only [Bool.and_eq_true, decide_eq_true_eq, Bool.false_eq_true, false_iff]
    omega
  | cons b order ih =>
    have hb := b.size_pos
    rw [layOut_cons, List.any_cons, ih, totalSize_cons, Bool.eq_iff_iff]
    simp only [covers, start_moveTo, stop, size_moveTo, Bool.or_eq_true, Bool.and_eq_true,
      decide_eq_true_eq]
    omega

/-- Marking the leading blocks of a layout sets exactly the flags of their rows. -/
theorem markFront_layOut (n gathered : Nat) (order : List (Block α)) (hn : totalSize order = n) :
    markFront n (layOut 0 order) gathered =
      (List.replicate (totalSize (order.take gathered)) true ++
        List.replicate (n - totalSize (order.take gathered)) false,
      totalSize (order.take gathered)) := by
  have htake : (layOut 0 order).take gathered = layOut 0 (order.take gathered) := by
    conv_lhs => rw [← List.take_append_drop gathered order]
    rw [layOut_append, List.take_append, length_layOut, List.take_of_length_le (by simp)]
    simp only [List.length_take, List.append_right_eq_self, List.take_eq_nil_iff]
    by_cases hlong : gathered ≤ order.length
    · left
      omega
    · right
      rw [List.drop_of_length_le (by omega), layOut_nil]
  have hle : totalSize (order.take gathered) ≤ n := by
    rw [← hn, ← List.take_append_drop gathered order, totalSize_append]
    simp
  simp only [markFront, htake, totalSize_layOut, any_covers_layOut, Nat.zero_le, decide_true,
    Bool.true_and, Nat.zero_add, Prod.mk.injEq, and_true]
  apply List.ext_getElem (by simp; omega)
  intro row hrow _
  simp only [List.getElem_map, List.getElem_range, List.getElem_append, List.length_replicate,
    List.getElem_replicate]
  split
  · simpa
  · simpa using Nat.not_lt.mp ‹_›

/-- The selected rows of a tiling are the rows of the blocks whose first row is selected, if the two
flags of every pair agree. -/
theorem countP_flagAt_eq {selected : List Bool} {first last : Nat} {blocks : List (Block α)}
    (htiles : Tiles first blocks last)
    (hpairs : ∀ b ∈ blocks, b.isPair = true →
      flagAt selected b.start = flagAt selected (b.start + 1)) :
    (List.range' first (last - first)).countP (flagAt selected) =
      totalSize (blocks.filter fun b => flagAt selected b.start) := by
  induction blocks generalizing first with
  | nil => simp [htiles.last_eq]
  | cons b rest ih =>
    have hlast := htiles.last_eq
    have hrows : List.range' first (last - first) =
        List.range' first b.size ++ List.range' (first + b.size) (last - (first + b.size)) := by
      rw [List.range'_append_1, hlast, totalSize_cons]
      congr 1
      omega
    have hblock : (List.range' first b.size).countP (flagAt selected) =
        if flagAt selected b.start then b.size else 0 := by
      have hb := hpairs b List.mem_cons_self
      obtain ⟨rfl, -⟩ := htiles
      cases b with
      | real k => cases hk : flagAt selected k <;> simp [size, start, hk]
      | pair k re im =>
        have hagree : flagAt selected k = flagAt selected (k + 1) := hb rfl
        cases hk : flagAt selected k <;> simp [size, start, List.range'_succ, ← hagree, hk]
    rw [hrows, List.countP_append, hblock,
      ih htiles.tail fun c hc => hpairs c (List.mem_cons_of_mem b hc)]
    cases hk : flagAt selected b.start <;> simp [hk]

/-- The flags that are set, counted row by row. -/
theorem countP_flagAt_range (selected : List Bool) :
    (List.range' 0 selected.length).countP (flagAt selected) = selected.count true := by
  have hmap : selected = (List.range selected.length).map (flagAt selected) := by
    apply List.ext_getElem (by simp)
    intro row hrow _
    simp [flagAt, hrow]
  rw [List.count]
  conv_rhs => rw [hmap]
  rw [List.countP_map, List.range_eq_range']
  congr 1
  funext row
  simp

/-- Gathering asks only to exchange an unselected block with the selected block directly below it,
at the row where they stand, and stops at the first refusal. The blocks stay a tiling by the same
blocks. If nothing is refused they are stably partitioned, by as many exchanges as there are pairs
of an unselected block and a later selected one; else the front holds the first selected blocks,
fewer than there are, and an unselected block follows. The flags are then set exactly on the rows at
the front. -/
theorem gather_stable_partition (act : ExchangeAction σ ε) (blocks : List (Block α))
    (selected : List Bool) (n : Nat) (state : σ) (htiles : Tiles 0 blocks n)
    (hlength : selected.length = n)
    (hpairs : ∀ b ∈ blocks, b.isPair = true →
      flagAt selected b.start = flagAt selected (b.start + 1)) :
    ∃ order : List (Block α),
      let chosen := fun b : Block α => flagAt selected b.start
      let g := gather act blocks selected state
      let front := markFront n g.blocks g.gathered
      ExchangeRun act chosen state blocks g.swaps g.state order g.rejected ∧
      order.Perm blocks ∧ g.blocks = layOut 0 order ∧ Tiles 0 g.blocks n ∧
      StablyGathered chosen blocks order g.gathered g.rejected ∧
      (g.rejected = none → g.swaps = inversions chosen blocks) ∧
      front.2 = totalSize (order.take g.gathered) ∧
      front.1 = List.replicate front.2 true ++ List.replicate (n - front.2) false ∧
      (g.rejected = none → front.2 = selected.count true) ∧
      (g.rejected ≠ none → front.2 < selected.count true) := by
  obtain ⟨order, hblocks, hrun, hstable, hcount⟩ :=
    gather_exchangeRun act blocks selected n state htiles
  have hsize : totalSize order = n := by
    rw [totalSize_perm hrun.perm]
    simpa using htiles.last_eq.symm
  have hselected : selected.count true =
      totalSize (blocks.filter fun b => flagAt selected b.start) := by
    rw [← countP_flagAt_range, hlength, ← countP_flagAt_eq htiles hpairs, Nat.sub_zero]
  refine ⟨order, ?_⟩
  simp only [hblocks, markFront_layOut n _ order hsize]
  refine ⟨hrun, hrun.perm, trivial, ?_, hstable, hcount, trivial, trivial, fun hnone => ?_,
    fun hsome => ?_⟩
  · simpa [hsize] using tiles_layOut 0 order
  · rw [hnone] at hstable
    obtain ⟨rfl, hgathered⟩ := hstable
    rw [hselected, hgathered, List.take_left]
  · obtain ⟨reason, hreason⟩ := Option.ne_none_iff_exists'.mp hsome
    rw [hreason] at hstable
    obtain ⟨hshort, next, tail, -, rfl⟩ := hstable
    rw [hselected, List.take_left' (List.length_take_of_le hshort.le)]
    conv_rhs => rw [← List.take_append_drop (gather act blocks selected state).gathered
      (blocks.filter fun b => flagAt selected b.start), totalSize_append]
    have hdrop : (blocks.filter fun b => flagAt selected b.start).drop
        (gather act blocks selected state).gathered ≠ [] := by simpa using hshort
    obtain ⟨b, rest, hb⟩ := List.exists_cons_of_ne_nil hdrop
    rw [hb, totalSize_cons]
    have := b.size_pos
    omega

/-- A gathering over five rows whose second exchange is refused: the pair has reached the front, and
the last block stays below the block that it could not pass. -/
theorem gather_stable_partition_refused :
    let act : ExchangeAction (List (Nat × Nat × Nat)) Unit := fun calls row upper lower =>
      (calls ++ [(row, upper, lower)], if calls = [] then none else some ())
    let blocks : List (Block Nat) := [.real 0, .pair 1 2 3, .real 3, .real 4]
    let selected := [false, true, true, false, true]
    let g := gather act blocks selected []
    Tiles 0 blocks 5 ∧ selected.length = 5 ∧
      (∀ b ∈ blocks, b.isPair = true →
        flagAt selected b.start = flagAt selected (b.start + 1)) ∧
      g.state = [(0, 1, 2), (3, 1, 1)] ∧ g.blocks = [.pair 0 2 3, .real 2, .real 3, .real 4] ∧
      (markFront 5 g.blocks g.gathered).2 < selected.count true := by
  intro act blocks selected g
  have htiles : Tiles 0 blocks 5 := by simp [blocks, Tiles, start, stop, size]
  have hlength : selected.length = 5 := rfl
  have hpairs : ∀ b ∈ blocks, b.isPair = true →
      flagAt selected b.start = flagAt selected (b.start + 1) := by decide
  obtain ⟨order, -, -, -, -, -, -, -, -, -, hfewer⟩ :=
    gather_stable_partition act blocks selected 5 [] htiles hlength hpairs
  exact ⟨htiles, hlength, hpairs, rfl, rfl, hfewer (by decide)⟩

end SchurForm
