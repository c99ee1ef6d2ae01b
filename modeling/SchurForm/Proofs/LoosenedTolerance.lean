import SchurForm.Proofs.ReorderedForm
import SchurForm.Proofs.ReorderingFrame

/-!
# Loosening the tolerance

The threshold of a tolerance is compared with residuals and enters nothing else, so an exchange that
one tolerance accepts is accepted with the same factors and patches by every looser one. Two
gatherings of the same blocks, of which the second accepts whatever the first one accepts, stand in
the same state until the first one is refused. The second one may go on from there; what it has
accepted and gathered until then stays.
-/

namespace SchurForm

open Block Scalar

section Exchanges

variable {p q : Nat}

/-- The second tolerance allows residuals at least as large, and refines solutions as often. -/
structure Tolerance.Loosens (tol tol' : Tolerance ℝ) : Prop where
  factor : tol.factor ≤ tol'.factor
  refinements : tol.refinements = tol'.refinements

variable {tol tol' : Tolerance ℝ}

/-- A looser tolerance has larger thresholds. -/
theorem Tolerance.Loosens.threshold_le (h : tol.Loosens tol') {size : ℝ} (hsize : 0 ≤ size) :
    tol.threshold size ≤ tol'.threshold size := by
  rw [threshold, threshold, maxNum_real, maxNum_real]
  have hscaled : tol.factor * epsilon * size ≤ tol'.factor * epsilon * size :=
    mul_le_mul_of_nonneg_right (mul_le_mul_of_nonneg_right h.factor epsilon_pos.le) hsize
  exact max_le_max hscaled le_rfl

/-- A residual within the threshold is within the looser one. -/
theorem Tolerance.Loosens.le_threshold (h : tol.Loosens tol') {m : Nat} {a : Mat m m ℝ}
    {residual : ℝ} (hle : residual ≤ tol.threshold a.supNorm) :
    residual ≤ tol'.threshold a.supNorm :=
  hle.trans (h.threshold_le (maxTo_nonneg _ _))

/-- An exchange that is accepted is accepted, with the same result, under a looser tolerance. -/
theorem Tolerance.Loosens.exchangeStandard_eq_ok (h : tol.Loosens tol') {row : Nat}
    {d : Mat (p + q) (p + q) ℝ} {e : StandardExchange (p + q) ℝ}
    (he : exchangeStandard tol row d = .ok e) : exchangeStandard tol' row d = .ok e := by
  rw [exchangeStandard] at he ⊢
  by_cases hreal : p = 1 ∧ q = 1
  · rwa [if_pos hreal] at he ⊢
  · rw [if_neg hreal, exchangeGeneral_eq_ok] at he ⊢
    have hbasis : exchangeBasis tol' d = exchangeBasis tol d := by
      rw [exchangeBasis, exchangeBasis, couplingSolution, couplingSolution, h.refinements]
    obtain ⟨hlower, hback, hturned⟩ := he
    rw [hbasis]
    exact ⟨h.le_threshold hlower, h.le_threshold hback, hturned⟩

/-- An exchange in a pencil that is accepted is accepted, with the same result, under a looser
tolerance. -/
theorem Tolerance.Loosens.exchangePencil_eq_ok (h : tol.Loosens tol') {row : Nat}
    {a b : Mat (p + q) (p + q) ℝ} {e : PencilExchange (p + q) ℝ}
    (he : exchangePencil tol row a b = .ok e) : exchangePencil tol' row a b = .ok e := by
  rw [SchurForm.exchangePencil_eq_ok] at he ⊢
  have hsolution : coupledSolution tol' a b = coupledSolution tol a b := by
    rw [coupledSolution, coupledSolution, h.refinements]
  have hleft : pencilLeftBasis tol' a b = pencilLeftBasis tol a b := by
    rw [pencilLeftBasis, pencilLeftBasis, hsolution]
  have hright : pencilRightBasis tol' a b = pencilRightBasis tol a b := by
    rw [pencilRightBasis, pencilRightBasis, hsolution]
  obtain ⟨hlowerS, hlowerT, hbackS, hbackT, hturned⟩ := he
  rw [hleft, hright]
  exact ⟨h.le_threshold hlowerS, h.le_threshold hlowerT, h.le_threshold hbackS,
    h.le_threshold hbackT, hturned⟩

end Exchanges

section Gatherings

variable {α σ τ ε : Type}

/-- The second action accepts whatever the first one accepts, with the same state. Accepted
exchanges are recorded; the record grows under the second action, and a refusal by the first one
leaves it as it is. -/
structure ExchangeAction.Loosens (record : σ → List τ) (act act' : ExchangeAction σ ε) : Prop where
  accepts : ∀ st row upper lower, (act st row upper lower).2 = none →
    act' st row upper lower = act st row upper lower
  grows : ∀ st row upper lower, record st <+: record (act' st row upper lower).1
  refuses : ∀ st row upper lower, (act st row upper lower).2 ≠ none →
    record (act st row upper lower).1 = record st

/-- The end of carrying a block, with one more exchange made before it. -/
def Climb.behind (passed : Block α) : Climb α σ ε → Climb α σ ε
  | .arrived state moved below swaps => .arrived state moved (below ++ [passed]) (swaps + 1)
  | .refused state blocks swaps reason => .refused state (blocks ++ [passed]) (swaps + 1) reason

/-- Putting a block behind a climb keeps its state. -/
@[simp] theorem Climb.state_behind (passed : Block α) (c : Climb α σ ε) :
    (c.behind passed).state = c.state := by
  cases c <;> rfl

section Steps

variable {act : ExchangeAction σ ε} {b upper : Block α} {above : List (Block α)} {st next : σ}

/-- A climb goes on past a block if the exchange with it is accepted. -/
theorem climb_of_accepted (h : act st upper.start upper.size b.size = (next, none)) :
    climb act b (upper :: above) st =
      (climb act (b.moveTo upper.start) above next).behind
        (upper.moveTo (upper.start + b.size)) := by
  rw [climb, h]
  dsimp only
  cases climb act (b.moveTo upper.start) above next <;> rfl

/-- A climb ends below a block if the exchange with it is refused. -/
theorem climb_of_refused {reason : ε}
    (h : act st upper.start upper.size b.size = (next, some reason)) :
    climb act b (upper :: above) st = .refused next (above.reverse ++ [upper, b]) 0 reason := by
  rw [climb, h]

end Steps

/-- Carrying a block as far as the first action does it under the second one as well: it arrives in
the same way, or the record has only grown. -/
def Climb.Extends (record : σ → List τ) (c c' : Climb α σ ε) : Prop :=
  match c with
  | .arrived _ _ _ _ => c' = c
  | .refused state _ _ _ => record state <+: record c'.state

variable {record : σ → List τ} {act act' : ExchangeAction σ ε}

/-- Putting the same block behind two climbs keeps that one extends the other. -/
theorem Climb.Extends.behind {c c' : Climb α σ ε} (h : c.Extends record c') (passed : Block α) :
    (c.behind passed).Extends record (c'.behind passed) := by
  cases c with
  | arrived state moved below swaps => exact congrArg (Climb.behind passed) h
  | refused state blocks swaps reason =>
    change record state <+: record (c'.behind passed).state
    rwa [state_behind]

namespace ExchangeAction.Loosens

/-- The record grows while a block is carried up. -/
theorem prefix_climb (h : Loosens record act act') (b : Block α) (above : List (Block α))
    (st : σ) : record st <+: record (climb act' b above st).state := by
  induction above generalizing b st with
  | nil => exact List.prefix_rfl
  | cons upper above ih =>
    have hstep := h.grows st upper.start upper.size b.size
    rcases hact : act' st upper.start upper.size b.size with ⟨next, _ | reason⟩
    · rw [hact] at hstep
      rw [climb_of_accepted hact, Climb.state_behind]
      exact hstep.trans (ih _ next)
    · rw [hact] at hstep
      rwa [climb_of_refused hact]

/-- The record grows while blocks are gathered, and what has been gathered stays. -/
theorem prefix_gatherFrom (h : Loosens record act act') (selected : List Bool)
    (front waiting rest : List (Block α)) (swaps : Nat) (st : σ) :
    let g := gatherFrom act' selected front waiting rest swaps st
    record st <+: record g.state ∧ front.length ≤ g.gathered := by
  induction rest generalizing front waiting swaps st with
  | nil => exact ⟨List.prefix_rfl, le_rfl⟩
  | cons b rest ih =>
    have hclimb := h.prefix_climb b waiting.reverse st
    rw [gatherFrom]
    split
    · cases hcase : climb act' b waiting.reverse st with
      | arrived next moved passed more =>
        rw [hcase] at hclimb
        obtain ⟨hrecord, hlength⟩ := ih (front ++ [moved]) passed (swaps + more) next
        rw [List.length_append] at hlength
        exact ⟨hclimb.trans hrecord, (Nat.le_add_right _ _).trans hlength⟩
      | refused next blocks more reason =>
        rw [hcase] at hclimb
        exact ⟨hclimb, le_rfl⟩
    · exact ih front (waiting ++ [b]) swaps st

/-- Two climbs stand in the same state until the first one is refused. -/
theorem climb_extends (h : Loosens record act act') (b : Block α) (above : List (Block α))
    (st : σ) : (climb act b above st).Extends record (climb act' b above st) := by
  induction above generalizing b st with
  | nil => exact rfl
  | cons upper above ih =>
    rcases hact : act st upper.start upper.size b.size with ⟨next, _ | reason⟩
    · have hsame := h.accepts st upper.start upper.size b.size (by rw [hact])
      rw [climb_of_accepted hact, climb_of_accepted (hsame.trans hact)]
      exact (ih _ next).behind _
    · have hkept := h.refuses st upper.start upper.size b.size (by simp [hact])
      have hgrown := h.prefix_climb b (upper :: above) st
      rw [hact] at hkept
      rw [climb_of_refused hact, Climb.Extends, hkept]
      exact hgrown

/-- Two gatherings stand in the same state until the first one is refused. The record and the
number of gathered blocks of the second one do not fall behind, and a gathering that nothing ended
is the same in both. -/
theorem gatherFrom_extends (h : Loosens record act act') (selected : List Bool)
    (front waiting rest : List (Block α)) (swaps : Nat) (st : σ) :
    let g := gatherFrom act selected front waiting rest swaps st
    let g' := gatherFrom act' selected front waiting rest swaps st
    record g.state <+: record g'.state ∧ g.gathered ≤ g'.gathered ∧
      (g.rejected = none → g' = g) := by
  induction rest generalizing front waiting swaps st with
  | nil => exact ⟨List.prefix_rfl, le_rfl, fun _ => rfl⟩
  | cons b rest ih =>
    have hclimb := h.climb_extends b waiting.reverse st
    have hgrown := h.prefix_gatherFrom selected front waiting (b :: rest) swaps st
    rw [gatherFrom] at hgrown
    rw [gatherFrom, gatherFrom]
    split
    · rename_i hwanted
      rw [if_pos hwanted] at hgrown
      cases hfirst : climb act b waiting.reverse st with
      | arrived next moved passed more =>
        rw [hfirst] at hclimb
        rw [show climb act' b waiting.reverse st = _ from hclimb]
        exact ih (front ++ [moved]) passed (swaps + more) next
      | refused next blocks more reason =>
        rw [hfirst] at hclimb
        refine ⟨?_, hgrown.2, fun hnone => absurd hnone (Option.some_ne_none _)⟩
        -- the second gathering goes on from where the carried block was left
        cases hsecond : climb act' b waiting.reverse st with
        | arrived next' moved passed more' =>
          rw [hsecond] at hclimb
          exact hclimb.trans (h.prefix_gatherFrom selected (front ++ [moved]) passed rest _ next').1
        | refused next' blocks' more' reason' =>
          rw [hsecond] at hclimb
          exact hclimb
    · exact ih front (waiting ++ [b]) swaps st

/-- A whole pass with the looser action extends the pass with the stricter one. -/
theorem gather_extends (h : Loosens record act act') (blocks : List (Block α))
    (selected : List Bool) (st : σ) :
    let g := gather act blocks selected st
    let g' := gather act' blocks selected st
    record g.state <+: record g'.state ∧ g.gathered ≤ g'.gathered ∧
      (g.rejected = none → g' = g) :=
  h.gatherFrom_extends selected [] [] blocks 0 st

end ExchangeAction.Loosens

/-- The leading rows after a gathering are those of the first selected blocks. -/
theorem markFront_gather (act : ExchangeAction σ ε) {blocks : List (Block α)} {n : Nat}
    (htiles : Tiles 0 blocks n) (selected : List Bool) (st : σ) :
    let g := gather act blocks selected st
    (markFront n g.blocks g.gathered).2 =
      totalSize ((blocks.filter fun b => flagAt selected b.start).take g.gathered) := by
  obtain ⟨order, hblocks, hrun, hstable, -⟩ := gather_exchangeRun act blocks selected n st htiles
  have hsize : totalSize order = n := by
    rw [totalSize_perm hrun.perm]
    simpa using htiles.last_eq.symm
  intro g
  rw [hblocks, markFront_layOut n _ order hsize]
  -- whether or not the gathering was ended, the order begins with the gathered blocks
  cases hcase : (gather act blocks selected st).rejected with
  | none =>
    rw [hcase] at hstable
    obtain ⟨rfl, hgathered⟩ := hstable
    simp only [g, hgathered, List.take_left, List.take_length]
  | some reason =>
    rw [hcase] at hstable
    obtain ⟨hshort, next, tail, -, rfl⟩ := hstable
    rw [List.take_left' (List.length_take_of_le hshort.le)]

/-- The first blocks of a list do not have fewer rows than still fewer of them. -/
theorem totalSize_take_le (blocks : List (Block α)) {i j : Nat} (hij : i ≤ j) :
    totalSize (blocks.take i) ≤ totalSize (blocks.take j) := by
  obtain ⟨more, hmore⟩ := List.take_prefix_take_left (l := blocks) hij
  rw [← hmore, totalSize_append]
  exact Nat.le_add_right _ _

end Gatherings

section RefusedExchange

open PivotedFactors

/-- The coefficients of the coupled equations of the diagonal matrices with `4` and with `1`. -/
noncomputable def proportionalSystem : Mat 2 2 ℝ := Mat.ofRows2 4 (-4) 1 (-1)

/-- Pivots are lifted to four units of precision. -/
theorem pivotFloor_proportionalSystem : pivotFloor proportionalSystem = epsilon * 4 := by
  have hsize : proportionalSystem.supNorm = 4 := by
    refine le_antisymm ((Mat.supNorm_le_iff (by norm_num)).mpr fun i j => ?_) ?_
    · rw [proportionalSystem, Mat.ofRows2, Mat.get_ofFn]
      split
      · split <;> split <;> norm_num
      · norm_num
    · simpa [proportionalSystem, Mat.ofRows2] using Mat.abs_get_le_supNorm proportionalSystem 0 0
  rw [pivotFloor, hsize, maxNum_real]
  exact max_eq_left (safeMin_le_epsilon.trans (le_mul_of_one_le_right epsilon_pos.le (by norm_num)))

/-- The second pivot vanishes and is lifted to the floor. -/
theorem ofMat_proportionalSystem :
    (ofMat proportionalSystem).lu = Mat.ofRows2 4 (-4) (1 / 4) (epsilon * 4) ∧
      ∀ i < 2, (ofMat proportionalSystem).rowOrder i = i ∧
        (ofMat proportionalSystem).colOrder i = i := by
  have hfirst : ¬(4 : ℝ) < epsilon * 4 := by linarith [epsilon_le]
  have hsecond : (0 : ℝ) < epsilon * 4 := mul_pos epsilon_pos (by norm_num)
  have hlarger : ¬(4 : ℝ) < 1 := by norm_num
  rw [ofMat, pivotFloor_proportionalSystem]
  refine ⟨Mat.ext_get fun i hi j hj => ?_, fun i hi => ?_⟩
  · interval_cases i <;> interval_cases j <;>
      simp [hfirst, hsecond, hlarger, proportionalSystem, Mat.ofRows2, List.range_succ, step,
        largestFrom, exchange, transposed, eliminate]
  · interval_cases i <;>
      simp [hfirst, hsecond, hlarger, proportionalSystem, Mat.ofRows2, List.range_succ, step,
        largestFrom, exchange, transposed, eliminate]

/-- Both unknowns come out as one, though the equations have no solution. -/
theorem solve_proportionalSystem (rhs : Vec 2 ℝ) (h₀ : rhs.get 0 = 0)
    (h₁ : rhs.get 1 = epsilon * 4) :
    let solution := (ofMat proportionalSystem).solve rhs
    solution.1.get 0 = 1 ∧ solution.1.get 1 = 1 ∧ solution.2 = 1 := by
  obtain ⟨hlu, horder⟩ := ofMat_proportionalSystem
  obtain ⟨hrow₀, hcol₀⟩ := horder 0 two_pos
  obtain ⟨hrow₁, hcol₁⟩ := horder 1 one_lt_two
  have hpos : (0 : ℝ) < epsilon * 4 := mul_pos epsilon_pos (by norm_num)
  have hforward : forward (ofMat proportionalSystem).lu
      (Vec.ofFn fun i => rhs.get ((ofMat proportionalSystem).rowOrder i)) = rhs := by
    refine Vec.ext_get fun i hi => ?_
    interval_cases i <;>
      simp [forward, List.range_succ, subtractAll, hlu, hrow₀, hrow₁, h₀, h₁, Mat.ofRows2]
  have hscale : backwardScale (ofMat proportionalSystem).lu rhs = 1 := by
    have hsize : rhs.supNorm = epsilon * 4 := by
      simp [Vec.supNorm, maxTo, h₀, h₁, abs_of_pos hpos, hpos.le]
    rw [backwardScale, if_neg]
    rintro ⟨-, hsmall⟩
    have hpivot : (Mat.ofRows2 4 (-4) (1 / 4) (epsilon * 4) : Mat 2 2 ℝ).get 1 1 = epsilon * 4 := by
      simp [Mat.ofRows2]
    have hscaled : two * safeMin * (epsilon * 4) ≤ (1 : ℝ) * (epsilon * 4) := by
      rw [two_real]
      exact mul_le_mul_of_nonneg_right (by linarith [safeMin_le_epsilon, epsilon_le]) hpos.le
    rw [hlu, hsize, hpivot, abs_real, abs_of_pos hpos] at hsmall
    linarith
  simp only [solve, hforward, hscale]
  simp [restore, backward, List.range_succ, subtractAll, hlu, hcol₀, hcol₁, h₀, h₁, Mat.ofRows2,
    epsilon_pos.ne']

/-- The first matrix of a pencil with one eigenvalue, of which the second matrix is nearly a
multiple. -/
noncomputable def fourfold : Mat 2 2 ℝ := Mat.ofRows2 4 0 0 4

/-- The second matrix. Its entry off the diagonal is a few units of precision. -/
noncomputable def nearlyIdentity : Mat 2 2 ℝ := Mat.ofRows2 1 (epsilon * 4) 0 1

/-- Without refinement both unknowns of the pencil are one. -/
theorem coupledSolution_fourfold (factor : ℝ) :
    let solution := coupledSolution (p := 1) (q := 1) ⟨factor, 0⟩ fourfold nearlyIdentity
    solution.left = solution.right ∧ solution.right.get 0 0 = 1 ∧ solution.scale = 1 := by
  have hsystem : (Mat.ofFn fun e r =>
      let x11 : Mat 1 1 ℝ := if e < 1 then fourfold.block 0 0 else nearlyIdentity.block 0 0
      let x22 : Mat 1 1 ℝ := if e < 1 then fourfold.block 1 1 else nearlyIdentity.block 1 1
      if r < 1 then leftCoefficient x11 (e % 1) r
      else 0 - rightCoefficient x22 1 (e % 1) (r - 1) : Mat 2 2 ℝ) = proportionalSystem := by
    refine Mat.ext_get fun i hi j hj => ?_
    rw [Mat.get_ofFn, if_pos ⟨hi, hj⟩]
    interval_cases i <;> interval_cases j <;>
      simp [leftCoefficient, rightCoefficient, Mat.block, Mat.ofRows2, fourfold, nearlyIdentity,
        proportionalSystem]
  obtain ⟨hfirst, hsecond, hscale⟩ := solve_proportionalSystem
    (Vec.ofFn fun e => if e < 1 then (stackColumns (fourfold.block 0 1 : Mat 1 1 ℝ)).get e
      else (stackColumns (nearlyIdentity.block 0 1 : Mat 1 1 ℝ)).get (e - 1))
    (by simp [stackColumns, Mat.block, Mat.ofRows2, fourfold])
    (by simp [stackColumns, Mat.block, Mat.ofRows2, nearlyIdentity])
  rw [← hsystem] at hfirst hsecond hscale
  refine ⟨Mat.ext_get fun i hi j hj => ?_, ?_, hscale⟩
  · rw [Nat.lt_one_iff.mp hi, Nat.lt_one_iff.mp hj]
    exact hsecond.trans hfirst.symm
  · exact hfirst

/-- The basis of the unknown one turns by an eighth. -/
theorem IsAdapted.eighth {u : Mat (1 + 1) (1 + 1) ℝ} {x : Mat 1 1 ℝ} (h : IsAdapted u x 1)
    (hx : x.get 0 0 = 1) : u.get 0 1 ^ 2 = 1 / 2 ∧ u.get 1 0 ^ 2 = 1 / 2 := by
  have horth (i j : Nat) (hi : i < 2) (hj : j < 2) :
      u.get 0 i * u.get 0 j + u.get 1 i * u.get 1 j = if i = j then 1 else 0 := by
    have hentry := congrArg (fun a : Mat 2 2 ℝ => a.get i j) h.orthogonal
    simpa [Mat.get_mul, Finset.sum_range_succ, Mat.get_identity hi] using hentry
  have haligned : u.get 1 1 = u.get 0 1 := by
    have hentry : -u.get 0 1 + u.get 1 1 = 0 := by
      simpa [Mat.get_block, Mat.get_mul, Finset.sum_range_succ, subspaceBasis, hx] using
        congrFun (congrFun h.aligned 0) 0
    linarith
  have hunit : u.get 0 1 * u.get 0 1 + u.get 0 1 * u.get 0 1 = 1 := by
    simpa [haligned] using horth 1 1 one_lt_two one_lt_two
  have hcross : u.get 0 0 * u.get 0 1 + u.get 1 0 * u.get 0 1 = 0 := by
    simpa [haligned] using horth 0 1 two_pos one_lt_two
  have hlead : u.get 0 0 * u.get 0 0 + u.get 1 0 * u.get 1 0 = 1 := by
    simpa using horth 0 0 two_pos two_pos
  have hsq : u.get 0 1 ^ 2 = 1 / 2 := by linarith [sq (u.get 0 1)]
  have hne : u.get 0 1 ≠ 0 := fun hzero => by norm_num [hzero] at hsq
  have hneg : u.get 0 0 = -u.get 1 0 := by
    refine mul_right_cancel₀ hne ?_
    linarith
  refine ⟨hsq, ?_⟩
  rw [hneg] at hlead
  linarith [sq (u.get 1 0)]

/-- The largest entries of the second matrix stand on its diagonal. -/
theorem supNorm_nearlyIdentity : nearlyIdentity.supNorm = 1 := by
  have hentry : |(epsilon : ℝ) * 4| ≤ 1 := by
    rw [abs_of_pos (mul_pos epsilon_pos (by norm_num))]
    linarith [epsilon_le]
  refine le_antisymm ((Mat.supNorm_le_iff zero_le_one).mpr fun i j => ?_) ?_
  · rw [nearlyIdentity, Mat.ofRows2, Mat.get_ofFn]
    split
    · split <;> split <;> first | exact hentry | norm_num
    · norm_num
  · simpa [nearlyIdentity, Mat.ofRows2] using Mat.abs_get_le_supNorm nearlyIdentity 0 0

/-- The threshold of a factor of at least one is that many units of precision. -/
theorem threshold_nearlyIdentity {factor : ℝ} (hfactor : 1 ≤ factor) :
    Tolerance.threshold ⟨factor, 0⟩ nearlyIdentity.supNorm = factor * epsilon := by
  rw [Tolerance.threshold, supNorm_nearlyIdentity, mul_one, maxNum_real]
  exact max_eq_left (safeMin_le_epsilon.trans (le_mul_of_one_le_left epsilon_pos.le hfactor))

/-- The basis for the two eigenvalues on either side leaves the first matrix as it is, and two units
of precision below the diagonal of the second one. -/
theorem transformed_eighth {u : Mat (1 + 1) (1 + 1) ℝ} (hu : u.IsOrthogonal)
    (hfirst : u.get 0 1 ^ 2 = 1 / 2) (hsecond : u.get 1 0 ^ 2 = 1 / 2) :
    (transformed u fourfold u).IsCut 1 ∧
      |(transformed u nearlyIdentity u).get 1 0| = 2 * epsilon := by
  have horth : u.get 0 1 * u.get 0 0 + u.get 1 1 * u.get 1 0 = 0 := by
    have hentry := congrArg (fun a : Mat 2 2 ℝ => a.get 1 0) hu
    simpa [Mat.get_mul, Finset.sum_range_succ, Mat.get_identity one_lt_two] using hentry
  have hfour : (transformed u fourfold u).get 1 0 = 0 := by
    simp [transformed, Mat.get_mul, Finset.sum_range_succ, fourfold, Mat.ofRows2]
    linarith
  have hone : (transformed u nearlyIdentity u).get 1 0 = epsilon * 4 * (u.get 0 1 * u.get 1 0) := by
    simp [transformed, Mat.get_mul, Finset.sum_range_succ, nearlyIdentity, Mat.ofRows2]
    linarith
  refine ⟨fun r c hr hc => ?_, ?_⟩
  · rw [Nat.lt_one_iff.mp hc]
    rcases hr.lt_or_eq with hr | rfl
    · exact Mat.get_of_rows_le _ hr 0
    · exact hfour
  · have hproduct : |u.get 0 1 * u.get 1 0| = 1 / 2 := by
      refine (sq_eq_sq₀ (abs_nonneg _) (by norm_num)).mp ?_
      rw [sq_abs, mul_pow, hfirst, hsecond]
      norm_num
    rw [hone, abs_mul, hproduct, abs_of_pos (mul_pos epsilon_pos (by norm_num))]
    ring

/-- What two blocks of order one leave below the diagonal. -/
theorem lowerLeft_two (a : Mat (1 + 1) (1 + 1) ℝ) :
    (lowerLeft a 1 1).supNorm = |a.get 1 0| ∧
      ((a.clear 1 1 0 1).sub a).frobenius = |a.get 1 0| := by
  refine ⟨by simp [lowerLeft, Mat.supNorm, maxTo, Mat.get_block], ?_⟩
  simp [Mat.frobenius, Finset.sum_range_succ, Mat.clear, Real.sqrt_sq_eq_abs]

/-- Both bases are the same one, whatever the threshold. -/
theorem pencilBases_nearlyIdentity (factor : ℝ) : ∃ u : Mat (1 + 1) (1 + 1) ℝ, u.IsOrthogonal ∧
    pencilLeftBasis (p := 1) (q := 1) ⟨factor, 0⟩ fourfold nearlyIdentity = u ∧
    pencilRightBasis (p := 1) (q := 1) ⟨factor, 0⟩ fourfold nearlyIdentity = u ∧
    (transformed u fourfold u).IsCut 1 ∧
    |(transformed u nearlyIdentity u).get 1 0| = 2 * epsilon := by
  obtain ⟨hleft, hone, hscale⟩ := coupledSolution_fourfold factor
  have hadapted := isAdapted_completeBasis
    (coupledSolution (p := 1) (q := 1) ⟨factor, 0⟩ fourfold nearlyIdentity).right 1
  obtain ⟨hfirst, hsecond⟩ := hadapted.eighth hone
  refine ⟨_, hadapted.orthogonal, ?_, ?_,
    transformed_eighth hadapted.orthogonal hfirst hsecond⟩
  · rw [pencilLeftBasis, hleft, hscale]
  · rw [pencilRightBasis, hscale]

/-- A threshold of one unit of precision refuses the exchange, one of four units accepts it. -/
theorem exchangePencil_nearlyIdentity (row : Nat) :
    (∀ e, exchangePencil (p := 1) (q := 1) ⟨1, 0⟩ row fourfold nearlyIdentity ≠ .ok e) ∧
      ∃ e, exchangePencil (p := 1) (q := 1) ⟨4, 0⟩ row fourfold nearlyIdentity = .ok e := by
  refine ⟨fun e he => ?_, ?_⟩
  · obtain ⟨u, -, hleft, hright, -, hbelow⟩ := pencilBases_nearlyIdentity 1
    have hrefused := (exchangePencil_eq_ok.mp he).2.1
    rw [hleft, hright, (lowerLeft_two _).1, hbelow, threshold_nearlyIdentity le_rfl] at hrefused
    linarith [epsilon_pos]
  · obtain ⟨u, horth, hleft, hright, hcut, hbelow⟩ := pencilBases_nearlyIdentity 4
    obtain ⟨hclear, htest, hback⟩ := tests_of_isCut horth horth hcut
      (Tolerance.threshold_pos ⟨4, 0⟩ fourfold.supNorm)
    obtain ⟨hlower, hlost⟩ := lowerLeft_two (transformed u nearlyIdentity u)
    have hthreshold : 2 * epsilon ≤ Tolerance.threshold ⟨4, 0⟩ nearlyIdentity.supNorm := by
      rw [threshold_nearlyIdentity (by norm_num)]
      exact mul_le_mul_of_nonneg_right (by norm_num) epsilon_pos.le
    refine ⟨_, exchangePencil_eq_ok.mpr ⟨?_, ?_, ?_, ?_, _, rfl, rfl⟩⟩
    · rwa [hleft, hright]
    · rwa [hleft, hright, hlower, hbelow]
    · rwa [hleft, hright, hclear]
    · rw [hleft, hright, Mat.supNorm_le_iff (Tolerance.threshold_pos _ _).le]
      intro i j
      refine (Mat.abs_get_le_frobenius _ i j).trans ?_
      rwa [← Mat.frobenius_sub_transformed horth horth, hlost, hbelow]

/-- One tolerance refuses the only exchange of a reordering, and a looser one accepts it. -/
theorem exists_reorder_nearlyIdentity (q z : Option (Mat 2 2 ℝ)) :
    (∃ r, PencilForm.reorder ⟨1, 0⟩ ⟨fourfold, nearlyIdentity, q, z⟩ [false, true] = .ok r ∧
      r.swaps = 0 ∧ r.isComplete = false) ∧
    ∃ r, PencilForm.reorder ⟨4, 0⟩ ⟨fourfold, nearlyIdentity, q, z⟩ [false, true] = .ok r ∧
      r.swaps = 1 ∧ r.isComplete = true := by
  obtain ⟨count, hselection⟩ := exists_checkSelection_two false true
  have hblocks : pencilBlocks fourfold nearlyIdentity = .ok [.real 0, .real 1] :=
    pencilBlocks_triangular_two 4 0 4 1 (epsilon * 4) 1
  have hpatch (a : Mat 2 2 ℝ) : (a.block 0 0 : Mat (1 + 1) (1 + 1) ℝ) = a :=
    Mat.ext_get fun i hi j hj => by rw [Mat.get_block _ _ _ hi hj, Nat.zero_add, Nat.zero_add]
  obtain ⟨hrefused, e, haccepted⟩ := exchangePencil_nearlyIdentity 0
  refine ⟨⟨_, PencilForm.reorder_eq_ok.mpr ⟨_, _, hblocks, hselection, rfl⟩, ?_⟩,
    _, PencilForm.reorder_eq_ok.mpr ⟨_, _, hblocks, hselection, rfl⟩, ?_⟩
  · rcases pencilAction_cases ⟨1, 0⟩ ⟨⟨fourfold, nearlyIdentity, q, z⟩, []⟩ 0 1 1 with
      ⟨e, he, -⟩ | ⟨reason, -, herror⟩
    · rw [hpatch, hpatch] at he
      exact absurd he (hrefused e)
    · simp [PencilForm.report, gather, gatherFrom, flagAt, climb, start, size, herror,
        ReorderReport.isComplete]
  · rcases pencilAction_cases ⟨4, 0⟩ ⟨⟨fourfold, nearlyIdentity, q, z⟩, []⟩ 0 1 1 with
      ⟨e, -, hok⟩ | ⟨reason, he, -⟩
    · simp [PencilForm.report, gather, gatherFrom, flagAt, climb, start, size, hok,
        ReorderReport.isComplete]
    · rw [hpatch, hpatch] at he
      cases he.symm.trans haccepted

end RefusedExchange

section Reorderings

variable {form attempt eig ε : Type}

/-- The accepted ones among some attempts. -/
def Attempts.accepted (attempts : Attempts form attempt ε) (log : List attempt) : List attempt :=
  log.filter fun a => (attempts.refusal? a).isNone

/-- As many attempts were accepted as the log explains. -/
theorem Logged.Replays.length_accepted {attempts : Attempts form attempt ε} {start : form}
    {st : Logged form attempt} {swaps : Nat} {rejected : Option ε}
    (h : st.Replays attempts start swaps rejected) :
    (attempts.accepted st.log).length = swaps := by
  have hcount : (st.log.map attempts.refusal?).countP (·.isNone) = swaps := by
    rw [h.outcomes, List.countP_append]
    cases rejected <;> simp [List.countP_replicate]
  rw [Attempts.accepted, ← List.countP_eq_length_filter, ← hcount, List.countP_map]
  rfl

/-- Attempts that come to the same whenever they are accepted make actions of which the second one
accepts whatever the first one accepts. -/
theorem Attempts.Drive.loosens {attempts attempts' : Attempts form attempt ε}
    {act act' : ExchangeAction (Logged form attempt) ε} (hdrive : attempts.Drive act)
    (hdrive' : attempts'.Drive act') (hafter : attempts'.after = attempts.after)
    (hrefusal : attempts'.refusal? = attempts.refusal?)
    (hmake : ∀ f row upper lower, attempts.refusal? (attempts.make f row upper lower) = none →
      attempts'.make f row upper lower = attempts.make f row upper lower) :
    ExchangeAction.Loosens (fun st => attempts.accepted st.log) act act' where
  accepts st row upper lower h := by
    rw [hdrive.act] at h ⊢
    rw [hdrive'.act, hmake _ _ _ _ h, hafter, hrefusal]
  grows st row upper lower := by
    rw [hdrive'.act, accepted, accepted, List.filter_append]
    exact List.prefix_append _ _
  refuses st row upper lower h := by
    rw [hdrive.act] at h ⊢
    simp only [accepted, List.filter_append]
    simpa using h

/-- What another reordering of the same form has done at least: it begins with the same accepted
exchanges, and it is the same reordering if nothing was refused. -/
structure Reordering.Extends (accepted : attempt → Bool)
    (r r' : Reordering form attempt eig ε) : Prop where
  accepted : r.log.filter accepted <+: r'.log.filter accepted
  swaps : r.swaps ≤ r'.swaps
  reordered : r.reordered ≤ r'.reordered
  complete : r.isComplete = true → r' = r

variable {α : Type} {n : Nat}

/-- A report that reads its numbers off the gathering of the more tolerant attempts extends that of
the stricter ones. -/
theorem Attempts.Drive.report_extends {attempts attempts' : Attempts form attempt ε}
    {act act' : ExchangeAction (Logged form attempt) ε} (hdrive : attempts.Drive act)
    (hdrive' : attempts'.Drive act') (hrefusal : attempts'.refusal? = attempts.refusal?)
    (hloose : ExchangeAction.Loosens (fun st => attempts.accepted st.log) act act')
    {blocks : List (Block α)} (htiles : Tiles 0 blocks n) (selected : List Bool) (start : form)
    (report : Gathering α (Logged form attempt) ε → Reordering form attempt eig ε)
    (hreport : ∀ g, (report g).log = g.state.log ∧ (report g).swaps = g.swaps ∧
      (report g).reordered = (markFront n g.blocks g.gathered).2 ∧
      (report g).rejected = g.rejected) :
    (report (SchurForm.gather act blocks selected ⟨start, []⟩)).Extends
      (fun a => (attempts.refusal? a).isNone)
      (report (SchurForm.gather act' blocks selected ⟨start, []⟩)) := by
  obtain ⟨hgrown, hgathered, hcomplete⟩ := hloose.gather_extends blocks selected ⟨start, []⟩
  have hcount := (hdrive.gather htiles selected start).length_accepted
  have hcount' := (hdrive'.gather htiles selected start).length_accepted
  have haccepted : attempts'.accepted = attempts.accepted := by
    funext log
    rw [accepted, accepted, hrefusal]
  rw [haccepted] at hcount'
  have hrows := markFront_gather act htiles selected (⟨start, []⟩ : Logged form attempt)
  have hrows' := markFront_gather act' htiles selected (⟨start, []⟩ : Logged form attempt)
  obtain ⟨hlog, hswaps, hreordered, hrejected⟩ := hreport (SchurForm.gather act blocks selected _)
  obtain ⟨hlog', hswaps', hreordered', -⟩ := hreport (SchurForm.gather act' blocks selected _)
  refine ⟨?_, ?_, ?_, fun hdone => congrArg report (hcomplete ?_)⟩
  · rw [hlog, hlog']
    exact hgrown
  · rw [hswaps, hswaps', ← hcount, ← hcount']
    exact hgrown.length_le
  · rw [hreordered, hreordered', hrows, hrows']
    exact totalSize_take_le _ hgathered
  · rw [ReorderReport.isComplete, hrejected] at hdone
    exact Option.isNone_iff_eq_none.mp hdone

variable {tol tol' : Tolerance ℝ}

/-- An outcome that is not refused is an exchange. -/
theorem refusal?_eq_none {β : Type} {outcome : Except ε β} (h : refusal? outcome = none) :
    ∃ e, outcome = .ok e := by
  cases outcome with
  | ok e => exact ⟨e, rfl⟩
  | error reason => nomatch h

/-- An attempt that is accepted comes to the same under a looser tolerance. -/
theorem StandardForm.attempt_loosened (h : tol.Loosens tol') (form : StandardForm n ℝ)
    (row upper lower : Nat)
    (haccepted : refusal? (form.attempt tol row upper lower).outcome = none) :
    form.attempt tol' row upper lower = form.attempt tol row upper lower := by
  obtain ⟨e, he⟩ := refusal?_eq_none haccepted
  simp only [StandardForm.attempt] at he ⊢
  rw [he, h.exchangeStandard_eq_ok he]

/-- An attempt on a pencil that is accepted comes to the same under a looser tolerance. -/
theorem PencilForm.attempt_loosened (h : tol.Loosens tol') (form : PencilForm n ℝ)
    (row upper lower : Nat)
    (haccepted : refusal? (form.attempt tol row upper lower).outcome = none) :
    form.attempt tol' row upper lower = form.attempt tol row upper lower := by
  obtain ⟨e, he⟩ := refusal?_eq_none haccepted
  simp only [PencilForm.attempt] at he ⊢
  rw [he, h.exchangePencil_eq_ok he]

/-- Loosening the tolerance only helps. Whether a form is recognized and a selection fits it does
not depend on the tolerance. Of two reorderings the one under the looser tolerance begins with the
exchanges that the other one accepted, with the same patches and factors; it carries out no fewer
exchanges and brings no fewer eigenvalues to the front, and if nothing was refused under the
stricter tolerance, it reports the same result. -/
theorem reorder_loosened (h : tol.Loosens tol') (selected : List Bool) :
    (∀ form : StandardForm n ℝ,
      (∀ e, form.reorder tol selected = .error e ↔ form.reorder tol' selected = .error e) ∧
      ∀ r, form.reorder tol selected = .ok r → ∃ r', form.reorder tol' selected = .ok r' ∧
        r.Extends (fun a => (refusal? a.outcome).isNone) r') ∧
    ∀ form : PencilForm n ℝ,
      (∀ e, form.reorder tol selected = .error e ↔ form.reorder tol' selected = .error e) ∧
      ∀ r, form.reorder tol selected = .ok r → ∃ r', form.reorder tol' selected = .ok r' ∧
        r.Extends (fun a => (refusal? a.outcome).isNone) r' := by
  refine ⟨fun form => ⟨fun e => ?_, fun r hr => ?_⟩, fun form => ⟨fun e => ?_, fun r hr => ?_⟩⟩
  · rw [StandardForm.reorder_eq_error, StandardForm.reorder_eq_error]
  · obtain ⟨blocks, count, hblocks, hselected, rfl⟩ := StandardForm.reorder_eq_ok.mp hr
    have hloose := (drive_standardAction (n := n) tol).loosens (drive_standardAction tol') rfl rfl
      (StandardForm.attempt_loosened h)
    refine ⟨_, StandardForm.reorder_eq_ok.mpr ⟨blocks, count, hblocks, hselected, rfl⟩, ?_⟩
    exact (drive_standardAction (n := n) tol).report_extends (drive_standardAction tol') rfl hloose
      (tiles_of_diagonalBlocks hblocks) selected form StandardForm.report
        fun g => ⟨rfl, rfl, rfl, rfl⟩
  · rw [PencilForm.reorder_eq_error, PencilForm.reorder_eq_error]
  · obtain ⟨blocks, count, hblocks, hselected, rfl⟩ := PencilForm.reorder_eq_ok.mp hr
    have hloose := (drive_pencilAction (n := n) tol).loosens (drive_pencilAction tol') rfl rfl
      (PencilForm.attempt_loosened h)
    refine ⟨_, PencilForm.reorder_eq_ok.mpr ⟨blocks, count, hblocks, hselected, rfl⟩, ?_⟩
    exact (drive_pencilAction (n := n) tol).report_extends (drive_pencilAction tol') rfl hloose
      (tiles_of_pencilBlocks hblocks) selected form PencilForm.report
        fun g => ⟨rfl, rfl, rfl, rfl⟩

/-- Allowing four units of precision instead of one. The pair of a quarter turn is carried past a
real eigenvalue under both tolerances, with the same result. Of a pencil with one eigenvalue whose
matrices are nearly proportional, the first tolerance refuses the exchange and the second one
accepts it. -/
theorem reorder_loosened_turn :
    Tolerance.Loosens ⟨1, 0⟩ ⟨4, 0⟩ ∧
    (∃ r r', StandardForm.reorder ⟨1, 0⟩ ⟨turnBelowZero, some Mat.identity⟩
        [false, true, true] = .ok r ∧
      StandardForm.reorder ⟨4, 0⟩ ⟨turnBelowZero, some Mat.identity⟩ [false, true, true] = .ok r' ∧
      r.swaps = 1 ∧ r.swaps ≤ r'.swaps ∧ r' = r) ∧
    ∃ r r', PencilForm.reorder ⟨1, 0⟩ ⟨fourfold, nearlyIdentity, some Mat.identity, none⟩
        [false, true] = .ok r ∧
      PencilForm.reorder ⟨4, 0⟩ ⟨fourfold, nearlyIdentity, some Mat.identity, none⟩
        [false, true] = .ok r' ∧
      r.swaps = 0 ∧ r'.swaps = 1 ∧ r.isComplete = false ∧ r'.isComplete = true ∧
      r.reordered ≤ r'.reordered := by
  have hloose : Tolerance.Loosens ⟨1, 0⟩ ⟨4, 0⟩ := ⟨by norm_num, rfl⟩
  obtain ⟨r, hr, hone, hcomplete⟩ := exists_reorder_turnBelowZero ⟨1, 0⟩ (some Mat.identity)
  obtain ⟨⟨s, hs, hnone, hstopped⟩, s₁, hs₁, haccepted, harrived⟩ :=
    exists_reorder_nearlyIdentity (some Mat.identity) none
  obtain ⟨r', hr', hextends⟩ := ((reorder_loosened (n := 3) hloose [false, true, true]).1 _).2 r hr
  obtain ⟨s', hs', hextends'⟩ := ((reorder_loosened (n := 2) hloose [false, true]).2 _).2 s hs
  obtain rfl : s₁ = s' := Except.ok.inj (hs₁.symm.trans hs')
  have hsame : r' = r := hextends.complete (by rw [ReorderReport.isComplete, hcomplete]; rfl)
  exact ⟨hloose, ⟨r, r', hr, hr', hone, hextends.swaps, hsame⟩,
    s, s₁, hs, hs₁, hnone, haccepted, hstopped, harrived, hextends'.reordered⟩

end Reorderings

end SchurForm
