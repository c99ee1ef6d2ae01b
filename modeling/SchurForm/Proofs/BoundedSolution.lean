import SchurForm.Proofs.BoundedElimination

/-!
# Solutions of bounded systems

Solving with the factors of a bounded matrix doubles bounds once for each operation and divides by
pivots that are not below the floor. A solution therefore exceeds the right-hand side by a power of
two that depends on the order of the system and on its largest coefficient only, and a refinement
step, which solves for a residual, raises the bound by a fixed power. A system of moderate numbers
is never scaled down.
-/

namespace SchurForm

open Scalar Binary64

/-- The number of doublings in the backward solution of the last `count` equations. -/
theorem PivotedFactors.choose_two_succ (count : Nat) :
    (((count + 1).choose 2 : Nat) : ℤ) = count.choose 2 + count := by
  rw [Nat.choose_succ_succ' count 1, Nat.choose_one_right]
  push_cast
  ring

variable [Angles] {n : Nat} {e : ℤ}

namespace PivotedFactors

section Substitution

variable {ρ : ℤ} {y : Vec n Float} {lu : Mat n n Float}

/-- Subtracting terms that double from one to the next. -/
theorem subtractAll_within {x : Float} {f : Nat → Float} {count : Nat} (hx : Within (2 ^ ρ) x)
    (hf : ∀ i < count, Within (2 ^ (ρ + i)) (f i)) (hlow : -1074 ≤ ρ)
    (hhigh : ρ + count < 1024) : Within (2 ^ (ρ + count)) (subtractAll x (List.range count) f) := by
  induction count with
  | zero => simpa [subtractAll] using hx
  | succ count ih =>
    have hbefore := ih (fun i hi => hf i (by omega)) (by omega)
    rw [subtractAll, List.range_succ, List.foldl_append, List.foldl_cons, List.foldl_nil,
      Nat.cast_succ, ← add_assoc]
    exact hbefore.sub_two_zpow (hf count count.lt_succ_self) (by omega) (by omega)

/-- The forward solution: every entry is within twice the bound of the one before it. -/
theorem forward_bounded (hlower : ∀ i t, t < i → Within 1 (lu.get i t)) (hy : y.Bounded ρ)
    (hlow : -1074 ≤ ρ) (hhigh : ρ + n < 1024) : (forward lu y).Bounded (ρ + n) := by
  have hrun (count : Nat) (hcount : count ≤ n) :
      let z := (List.range count).foldl
        (fun y i => y.set i (subtractAll (y.get i) (List.range i) fun k => lu.get i k * y.get k)) y
      (∀ i < count, Within (2 ^ (ρ + i)) (z.get i)) ∧ ∀ i, count ≤ i → z.get i = y.get i := by
    induction count with
    | zero => exact ⟨fun i hi => absurd hi i.not_lt_zero, fun i _ => rfl⟩
    | succ count ih =>
      obtain ⟨hdone, hrest⟩ := ih (by omega)
      rw [List.range_succ, List.foldl_append, List.foldl_cons, List.foldl_nil]
      set z := (List.range count).foldl
        (fun y i => y.set i (subtractAll (y.get i) (List.range i) fun k => lu.get i k * y.get k)) y
      refine ⟨fun i hi => ?_, fun i hi => ?_⟩
      · rw [Vec.get_set, if_pos (by omega)]
        split
        · rename_i heq
          subst heq
          refine subtractAll_within (hrest i le_rfl ▸ hy i) (fun k hk => ?_) hlow (by omega)
          have hproduct := (hlower i k hk).mul (hdone k hk)
          rw [one_mul] at hproduct
          exact hproduct (onGrid_two_zpow (by omega)) (zpow_lt_zpow_right₀ one_lt_two (by omega))
        · exact hdone i (by omega)
      · rw [Vec.get_set_of_ne z (by omega)]
        exact hrest i (by omega)
  intro i
  obtain ⟨hdone, hrest⟩ := hrun n le_rfl
  by_cases hi : i < n
  · exact (hdone i hi).mono_two_zpow (by omega)
  · have hkept := hrest i (Nat.le_of_not_lt hi)
    rw [forward, hkept]
    exact (hy i).mono_two_zpow (by omega)

/-- Subtracting terms that do not exceed the first bound doubles it at most once for each. -/
theorem subtractAll_scaled {g : ℝ} {f : Nat → Float} {b c : ℤ} {x : Float} {ks : List Nat}
    (hgrid : OnGrid g) (hg : 0 ≤ g) (hb : 0 ≤ b) (hbc : b ≤ c) (hx : Within (g * 2 ^ c) x)
    (hf : ∀ k ∈ ks, Within (g * 2 ^ b) (f k)) (hlt : g * 2 ^ (c + ks.length) < 2 ^ (1024 : ℤ)) :
    Within (g * 2 ^ (c + ks.length)) (subtractAll x ks f) := by
  induction ks generalizing x c with
  | nil => simpa [subtractAll] using hx
  | cons k ks ih =>
    have hlength : c + (k :: ks).length = c + 1 + ks.length := by
      rw [List.length_cons]
      push_cast
      ring
    have hdouble : g * 2 ^ (c + 1) = g * 2 ^ c + g * 2 ^ c := by
      rw [zpow_add_one₀ two_ne_zero]
      ring
    rw [hlength] at hlt ⊢
    have hstep : g * 2 ^ (c + 1) ≤ g * 2 ^ (c + 1 + ks.length) :=
      mul_le_mul_of_nonneg_left (zpow_le_zpow_right₀ one_le_two (by omega)) hg
    have hterm : Within (g * 2 ^ c) (f k) := (hf k List.mem_cons_self).mono
      (mul_le_mul_of_nonneg_left (zpow_le_zpow_right₀ one_le_two hbc) hg)
    have hfirst := hx.sub hterm
    rw [← hdouble] at hfirst
    exact ih (hbc.trans (by omega))
      (hfirst (hgrid.mul_two_zpow (by omega)) (hstep.trans_lt hlt))
      (fun j hj => hf j (List.mem_cons_of_mem k hj)) hlt

variable {η f : ℤ}

/-- One unknown of the backward solution, from those after it. -/
theorem unknown_within {floor : ℝ} (h : Eliminated floor e n lu) (hfloor : 2 ^ (-f) ≤ floor)
    {x : Float} {z : Vec n Float} {b : ℤ} {t : Nat} (ht : t < n) (later : List Nat)
    (hlater : ∀ k ∈ later, t < k) (hx : Within (2 ^ η) x)
    (hz : ∀ k ∈ later, Within (2 ^ b) (z.get k)) (hb : 0 ≤ b) (hηb : η + f ≤ b)
    (hhigh : e + (b + later.length) < 1024) (hhigh' : b + later.length < 1024) :
    Within (2 ^ (b + later.length))
      (subtractAll x later (fun k => lu.get t k * z.get k) / lu.get t t) := by
  have hpivot : Within (2 ^ e) (lu.get t t) := h.entries t t fun _ => le_rfl
  have hlarge : (2 : ℝ) ^ (-f) ≤ |toReal (lu.get t t)| := hfloor.trans (h.pivot t ht)
  have hpos : 0 < |toReal (lu.get t t)| := lt_of_lt_of_le (by positivity) hlarge
  have hsize (c : ℤ) (hc : e + c < 1024) : |toReal (lu.get t t)| * 2 ^ c < 2 ^ (1024 : ℤ) := by
    refine lt_of_le_of_lt (mul_le_mul_of_nonneg_right hpivot.abs_le (by positivity)) ?_
    rw [← zpow_add₀ two_ne_zero]
    exact zpow_lt_zpow_right₀ one_lt_two hc
  have hgrid : OnGrid |toReal (lu.get t t)| := (onGrid_toReal _).abs
  have hfirst : Within (|toReal (lu.get t t)| * 2 ^ b) x := by
    refine hx.mono ?_
    calc (2 : ℝ) ^ η ≤ 2 ^ (-f + b) := zpow_le_zpow_right₀ one_le_two (by omega)
      _ = 2 ^ (-f) * 2 ^ b := zpow_add₀ two_ne_zero _ _
      _ ≤ |toReal (lu.get t t)| * 2 ^ b := by gcongr
  have hterm (k : Nat) (hk : k ∈ later) :
      Within (|toReal (lu.get t t)| * 2 ^ b) (lu.get t k * z.get k) := by
    have hrow : Within |toReal (lu.get t t)| (lu.get t k) :=
      ⟨(h.entries t k fun _ => (hlater k hk).le).isFinite, h.upper t ht k (hlater k hk)⟩
    exact hrow.mul (hz k hk) (hgrid.mul_two_zpow hb) (hsize b (by omega))
  have hsum := subtractAll_scaled hgrid hpos.le hb le_rfl hfirst hterm (hsize _ hhigh)
  exact within_div hsum.isFinite hpivot.isFinite (abs_pos.mp hpos)
    (by rw [mul_comm]; exact hsum.abs_le) (onGrid_two_zpow (by omega))
    (zpow_lt_zpow_right₀ one_lt_two hhigh')

/-- The backward solution: every unknown is within the bound of those after it, doubled once for
each of them. -/
theorem backward_bounded {floor : ℝ} (h : Eliminated floor e n lu) (hfloor : 2 ^ (-f) ≤ floor)
    (hy : y.Bounded η) (hlow : 0 ≤ η + f) (hhigh : e + (η + f + n.choose 2) < 1024)
    (hhigh' : η + f + n.choose 2 < 1024) :
    (backward lu y).Bounded (η + f + n.choose 2) := by
  have hrun (count : Nat) (hcount : count ≤ n) (z : Vec n Float)
      (hdone : ∀ i, count ≤ i → Within (2 ^ (η + f + (n - count).choose 2)) (z.get i))
      (hrest : ∀ i < count, z.get i = y.get i) :
      ((List.range count).reverse.foldl
        (fun y i =>
          let later := (List.range (n - (i + 1))).map fun k => i + 1 + k
          y.set i (subtractAll (y.get i) later (fun k => lu.get i k * y.get k) / lu.get i i))
        z).Bounded (η + f + n.choose 2) := by
    induction count generalizing z with
    | zero => exact fun i => by simpa using hdone i i.zero_le
    | succ count ih =>
      rw [List.range_succ, List.reverse_append, List.reverse_singleton, List.singleton_append,
        List.foldl_cons]
      have hremaining : (n - count).choose 2 = (n - (count + 1)).choose 2 + (n - (count + 1)) := by
        rw [show n - count = n - (count + 1) + 1 by omega]
        exact_mod_cast choose_two_succ (n - (count + 1))
      have hbound : ((n - count).choose 2 : ℤ) ≤ n.choose 2 := by
        exact_mod_cast Nat.choose_le_choose 2 (Nat.sub_le n count)
      refine ih (by omega) _ (fun i hi => ?_) fun i hi => ?_
      · by_cases hic : i = count
        · subst hic
          rw [Vec.get_set, if_pos (by omega), if_pos rfl, hremaining, Nat.cast_add, ← add_assoc]
          have hunknown := unknown_within h hfloor (show i < n by omega)
            ((List.range (n - (i + 1))).map fun k => i + 1 + k) (z := z) (x := z.get i) (η := η)
            (b := η + f + (n - (i + 1)).choose 2)
            (fun k hk => by
              obtain ⟨_, -, rfl⟩ := List.mem_map.mp hk
              omega)
            (by rw [hrest i (by omega)]; exact hy i)
            (fun k hk => by
              obtain ⟨_, -, rfl⟩ := List.mem_map.mp hk
              exact hdone _ (by omega)) (by omega) (by omega)
          rw [List.length_map, List.length_range] at hunknown
          exact hunknown (by omega) (by omega)
        · rw [Vec.get_set_of_ne z hic]
          exact (hdone i (by omega)).mono_two_zpow (by omega)
      · rw [Vec.get_set_of_ne z (by omega)]
        exact hrest i (by omega)
  refine hrun n le_rfl y (fun i hi => ?_) fun i _ => rfl
  rw [y.get_of_le hi]
  exact within_zero_two_zpow _

/-- Putting the unknowns back in order keeps their bound. -/
theorem restore_bounded (order : Nat → Nat) (hy : y.Bounded e) : (restore order y).Bounded e := by
  refine List.foldlRecOn (motive := fun x : Vec n Float => x.Bounded e) _ _ (fun i => ?_)
    fun x hx k _ i => ?_
  · rw [Vec.zero, Vec.get_ofFn, ite_self]
    exact within_zero_two_zpow e
  · rw [Vec.get_set]
    split
    · split
      · exact hy k
      · exact hx i
    · exact within_zero_two_zpow e

end Substitution

section Solution

variable {ρ f : ℤ} {floor : ℝ} {fac : PivotedFactors n Float} {rhs : Vec n Float}

/-- The forward solution of a bounded right-hand side. -/
theorem forward_rhs_bounded (h : Eliminated floor e n fac.lu) (hrhs : rhs.Bounded ρ)
    (hlow : -1074 ≤ ρ) (hhigh : ρ + n < 1024) :
    (forward fac.lu (Vec.ofFn fun i => rhs.get (fac.rowOrder i))).Bounded (ρ + n) := by
  refine forward_bounded (fun i t hi => ?_) (Vec.bounded_ofFn fun i _ => hrhs _) hlow hhigh
  by_cases ht : t < n
  · exact h.lower t ht i hi
  · rw [fac.lu.get_of_cols_le i (Nat.le_of_not_lt ht)]
    exact within_zero zero_le_one

/-- A solution that is not scaled is within the bound of the right-hand side, the reciprocal of the
least pivot, and one doubling for each operation of the substitutions. -/
theorem solve_bounded (h : Eliminated floor e n fac.lu) (hfloor : 2 ^ (-f) ≤ floor)
    (hrhs : rhs.Bounded ρ) (hscale : Within 1 (fac.solve rhs).2) (hlow : -1074 ≤ ρ)
    (hf : 0 ≤ ρ + n + f) (hhigh : e + (ρ + n + f + n.choose 2) < 1024)
    (hhigh' : ρ + n + f + n.choose 2 < 1024) (hrho : ρ + n < 1024) :
    (fac.solve rhs).1.Bounded (ρ + n + f + n.choose 2) := by
  have hforward := forward_rhs_bounded h hrhs hlow hrho
  refine restore_bounded _ (backward_bounded h hfloor (fun i => ?_) hf hhigh hhigh')
  rw [Vec.get_map]
  split
  · have hproduct := (hforward i).mul hscale
    rw [mul_one] at hproduct
    exact hproduct (onGrid_two_zpow (by omega)) (zpow_lt_zpow_right₀ one_lt_two hrho)
  · exact within_zero_two_zpow _

/-- A moderate forward solution is not scaled. -/
theorem solve_scale_eq_one (h : Eliminated floor e n fac.lu) (hfloor : 2 ^ (-f) ≤ floor)
    (hrhs : rhs.Bounded ρ) (hlow : -1074 ≤ ρ) (hrho : ρ + n < 1024) (hf : -1074 ≤ -f)
    (hf' : -f < 1024) (hsmall : ρ + n - 969 ≤ -f) : (fac.solve rhs).2 = 1 := by
  have hforward := forward_rhs_bounded h hrhs hlow hrho
  set y := forward fac.lu (Vec.ofFn fun i => rhs.get (fac.rowOrder i)) with hy
  have hsize := Vec.within_supNorm hforward
  have hdouble : Within (2 ^ (-969 : ℤ)) (two * safeMin) := by
    have hsafe : Within (2 ^ (-970 : ℤ)) safeMin :=
      ⟨safeMin_eq.1, by rw [safeMin_eq.2, abs_of_pos (by positivity)]⟩
    exact within_two.mul_two_zpow hsafe (by norm_num) (by norm_num)
  have hproduct : Within (2 ^ (-f)) (two * safeMin * y.supNorm) := by
    refine (isRounded_mul hdouble.isFinite hsize.isFinite).within (onGrid_two_zpow hf) ?_
      (zpow_lt_zpow_right₀ one_lt_two (by omega))
    rw [abs_mul]
    calc |toReal (two * safeMin)| * |toReal y.supNorm| ≤ 2 ^ (-969 : ℤ) * 2 ^ (ρ + n) :=
          mul_le_mul hdouble.abs_le hsize.abs_le (abs_nonneg _) (by positivity)
      _ = 2 ^ (-969 + (ρ + n)) := (zpow_add₀ two_ne_zero _ _).symm
      _ ≤ 2 ^ (-f) := zpow_le_zpow_right₀ one_le_two (by omega)
  refine if_neg fun hscaled => ?_
  have hlast := h.pivot (n - 1) (by omega)
  have hfinite : (Scalar.abs (fac.lu.get (n - 1) (n - 1))).isFinite = true :=
    (isFinite_abs_iff _).trans (h.entries (n - 1) (n - 1) fun _ => le_rfl).isFinite
  have hlt := (lt_iff_toReal hfinite hproduct.isFinite).mp hscaled.2
  rw [show toReal (Scalar.abs (fac.lu.get (n - 1) (n - 1))) = _ from toReal_abs _] at hlt
  linarith [le_abs_self (toReal (two * safeMin * y.supNorm)), hproduct.abs_le]

end Solution

end PivotedFactors

section Refinement

open PivotedFactors

variable {κ ξ k f : ℤ} {floor : ℝ} {fac : PivotedFactors n Float} {a : Mat n n Float}
  {rhs x : Vec n Float}

/-- The exponent by which a refinement step raises the bound of a solution at most. -/
def refinementGrowth (n : Nat) : Nat :=
  55 + 2 * n + n.choose 2

/-- The residual of a bounded solution. -/
theorem residual_bounded (ha : a.Bounded κ) (hrhs : rhs.Bounded k) (hx : x.Bounded ξ)
    (hk : k ≤ κ + ξ + n) (hlow : -1074 ≤ k) (hlow' : -1074 ≤ κ + ξ) (hhigh : κ + ξ + n + 1 < 1024) :
    (Vec.ofFn fun i => 1 * rhs.get i - sumTo n fun j => a.get i j * x.get j :
      Vec n Float).Bounded (κ + ξ + n + 1) := by
  refine Vec.bounded_ofFn fun i _ => ?_
  have hright : Within (2 ^ k) (1 * rhs.get i) := by
    have hproduct := (within_one_two_zpow le_rfl).mul_two_zpow (hrhs i) (by omega) (by omega)
    rwa [zero_add] at hproduct
  have hsum := within_sumTo_two_zpow (n := n) (e := κ + ξ)
    (fun j _ => (ha i j).mul_two_zpow (hx j) (by omega) (by omega)) hlow' (by omega)
  exact (hright.mono_two_zpow hk).sub_two_zpow hsum (by omega) hhigh

/-- Every refinement step raises the bound of the solution by the growth at most. -/
theorem refine_bounded (h : Eliminated floor (κ + n) n fac.lu) (hfloor : 2 ^ (-f) ≤ floor)
    (hκ : κ + f = 53) (ha : a.Bounded κ) (hrhs : rhs.Bounded k) (hlow : -1074 ≤ k)
    (hκlow : -1074 ≤ κ) (hξ : 0 ≤ ξ) (hk : k ≤ κ + ξ + n) (hκhigh : κ + n ≤ 480) (steps : Nat)
    (hhigh : ξ + refinementGrowth n * steps ≤ 490) (hx : x.Bounded ξ) :
    (refine a fac rhs 1 steps x).Bounded (ξ + refinementGrowth n * steps) := by
  induction steps generalizing x ξ with
  | zero => simpa [refine] using hx
  | succ steps ih =>
    have hgrowth : (refinementGrowth n : ℤ) = 55 + 2 * n + n.choose 2 := by
      rw [refinementGrowth]
      push_cast
      ring
    have hsucc : ξ + refinementGrowth n * (steps + 1 : Nat) =
        ξ + refinementGrowth n + refinementGrowth n * steps := by
      push_cast
      ring
    have hnonneg : (0 : ℤ) ≤ refinementGrowth n * steps := by positivity
    rw [hsucc] at hhigh ⊢
    have hkeep : x.Bounded (ξ + refinementGrowth n + refinementGrowth n * steps) :=
      hx.mono (by omega)
    simp only [refine]
    set correction := fac.solve
      (Vec.ofFn fun i => 1 * rhs.get i - sumTo n fun j => a.get i j * x.get j) with hcorrection
    set improved : Vec n Float := Vec.ofFn fun i => x.get i + correction.1.get i with himproved
    split
    · exact hkeep
    · rename_i hscale
      have hone : Within 1 correction.2 := within_of_beq_one <| by
        rw [bne, Bool.not_eq_true', Bool.not_eq_false] at hscale
        exact hscale
      have hsolved := solve_bounded h hfloor
        (residual_bounded ha hrhs hx hk hlow (by omega) (by omega)) hone (by omega) (by omega)
        (by omega) (by omega) (by omega)
      have hbounded : improved.Bounded (ξ + refinementGrowth n) := by
        refine Vec.bounded_ofFn fun i _ => ?_
        have hterm := (hsolved i).mono_two_zpow (j := ξ + refinementGrowth n - 1) (by omega)
        have hold := (hx i).mono_two_zpow (j := ξ + refinementGrowth n - 1) (by omega)
        have hsum := hold.add_two_zpow hterm (by omega) (by omega)
        rwa [sub_add_cancel] at hsum
      split
      · exact hbounded.mono (by omega)
      · exact ih (by omega) (by omega) (by omega) hbounded

/-- The refined solution of a system whose largest coefficient is not too small. Nothing is scaled
down, and the solution exceeds the right-hand side by a power of two that depends on that
coefficient, on the order of the system and on the number of steps. -/
theorem solveWithRefinement_bounded {j : ℤ} (ha : a.Bounded (k + 1)) (hrhs : rhs.Bounded k)
    (hlarge : ∃ r c, 2 ^ (-j) ≤ |toReal (a.get r c)|) (hlow : -400 ≤ k) (hhigh : k ≤ 400)
    (hn : n ≤ 8) {steps : Nat} (hroom : k + j + refinementGrowth n * (steps + 1) ≤ 490) :
    (solveWithRefinement a rhs steps).x.Bounded (k + j + refinementGrowth n * (steps + 1)) ∧
      (solveWithRefinement a rhs steps).scale = 1 := by
  have hfinite (r c : Nat) : (a.get r c).isFinite = true := (ha r c).isFinite
  obtain ⟨-, hentry, hsup⟩ := Mat.toReal_supNorm (e := k + 1) hfinite
  obtain ⟨r, c, hlarge⟩ := hlarge
  have hbelow : (2 : ℝ) ^ (-j) ≤ toReal a.supNorm := hlarge.trans (hentry r c)
  -- the exponent of the largest coefficient
  obtain ⟨d, hd, hd'⟩ := exists_mem_Ico_zpow (lt_of_lt_of_le (by positivity) hbelow) one_lt_two
  have hj : -j < d + 1 := (zpow_lt_zpow_iff_right₀ one_lt_two).mp (hbelow.trans_lt hd')
  have hk : d ≤ k + 1 := (zpow_le_zpow_iff_right₀ one_lt_two).mp (hd.trans (hsup ha))
  have hgrowth : (refinementGrowth n : ℤ) = 55 + 2 * n + n.choose 2 := by
    rw [refinementGrowth]
    push_cast
    ring
  have hsucc : k + j + refinementGrowth n * (steps + 1) =
      k + j + refinementGrowth n + refinementGrowth n * steps := by ring
  have hnonneg : (0 : ℤ) ≤ refinementGrowth n * steps := by positivity
  rw [hsucc] at hroom ⊢
  obtain ⟨hfloorWithin, hfloor⟩ := pivotFloor_bounds hfinite hd hd' (by omega) (by omega)
  have hexact : a.Bounded (d + 1) := fun i l => ⟨hfinite i l, (hentry i l).trans hd'.le⟩
  have heliminated := eliminated_ofMat hexact (lt_of_lt_of_le (by positivity) hfloor) hfloorWithin
    (by omega) (by omega)
  rw [show d - 52 = -(52 - d) by ring] at hfloor
  have hscale := solve_scale_eq_one heliminated hfloor hrhs (by omega) (by omega) (by omega)
    (by omega) (by omega)
  have hfirst := solve_bounded heliminated hfloor hrhs
    (by rw [hscale]; exact ⟨isFinite_one, by simp⟩) (by omega) (by omega) (by omega) (by omega)
    (by omega)
  refine ⟨?_, hscale⟩
  change (refine a (ofMat a) rhs ((ofMat a).solve rhs).2 steps ((ofMat a).solve rhs).1).Bounded _
  rw [hscale]
  exact refine_bounded heliminated hfloor (by ring) hexact hrhs (by omega) (by omega) (by omega)
    (by omega) (by omega) steps hroom (hfirst.mono (by omega))

end Refinement

end SchurForm
