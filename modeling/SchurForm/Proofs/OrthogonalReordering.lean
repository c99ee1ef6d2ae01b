import SchurForm.Proofs.BlockCuts
import SchurForm.Proofs.ReorderingOutcome
import SchurForm.Proofs.StandardExchange

/-!
# A reordering is one orthogonal change of basis

The factors of the accepted exchanges multiply to one orthogonal matrix. The accumulated factor is
multiplied by it exactly. The form departs from the transformed original by at most four times the
thresholds of the accepted exchanges, and not at all if no equation was perturbed: every exchange
adds its own residual, and the later ones keep its size.

The product is that of the log, and the log does not depend on the accumulated factor.
-/

namespace SchurForm

open Scalar Matrix Block
open scoped Matrix.Norms.Frobenius

variable {n : Nat} {tol : Tolerance ℝ}

namespace StandardAttempt

/-- The Sylvester equation of the attempt had to be perturbed. -/
noncomputable def perturbed (tol : Tolerance ℝ) (a : StandardAttempt ℝ) : Bool :=
  exchangePerturbed tol a.patch

/-- The threshold of an exchange that was carried out. -/
noncomputable def allowance (tol : Tolerance ℝ) (a : StandardAttempt ℝ) : ℝ :=
  if a.outcome.isOk then tol.threshold a.patch.supNorm else 0

/-- The orthogonal factor of the attempt in the whole matrix; a refused exchange changes nothing. -/
noncomputable def factor (n : Nat) (a : StandardAttempt ℝ) : Mat n n ℝ :=
  match a.outcome with
  | .ok e => Mat.embed n a.row e.factor
  | .error _ => Mat.identity

/-- The product of the factors of a log. -/
noncomputable def product (n : Nat) (log : List (StandardAttempt ℝ)) : Mat n n ℝ :=
  log.foldl (fun w a => w.mul (a.factor n)) Mat.identity

/-- A further attempt multiplies the product of factors from the right. -/
theorem product_append (log : List (StandardAttempt ℝ)) (a : StandardAttempt ℝ) :
    product n (log ++ [a]) = (product n log).mul (a.factor n) := by
  simp [product]

end StandardAttempt

open StandardAttempt

/-- What holds all along a reordering of the standard form `s` with the accumulated factor `q`. -/
structure StandardRun (tol : Tolerance ℝ) (s : Mat n n ℝ) (q : Option (Mat n n ℝ))
    (st : Logged (StandardForm n ℝ) (StandardAttempt ℝ)) (order : List (Block ℝ)) (count : Nat) :
    Prop where
  rows : totalSize order = n
  cuts : st.form.s.CutBy order
  swaps : st.log.countP (·.outcome.isOk) = count
  orthogonal : (product n st.log).IsOrthogonal
  factor : st.form.q = q.map fun q => q.mul (product n st.log)
  close : (st.form.s.sub (transformed (product n st.log) s (product n st.log))).frobenius ≤
    4 * (st.log.map (allowance tol)).sum
  exact : (∀ a ∈ st.log, a.perturbed tol = false) →
    st.form.s = transformed (product n st.log) s (product n st.log)

/-- Nothing has happened at the start. -/
theorem StandardRun.start {s : Mat n n ℝ} (q : Option (Mat n n ℝ)) {blocks : List (Block ℝ)}
    (h : s.Classified blocks) : StandardRun tol s q ⟨⟨s, q⟩, []⟩ blocks 0 := by
  have hproduct : product n [] = Mat.identity := rfl
  have hexact : s = transformed (product n []) s (product n []) := by
    rw [hproduct, Mat.transformed_identity]
  refine ⟨?_, h.cuts, rfl, Mat.isOrthogonal_identity, ?_, ?_, fun _ => hexact⟩
  · simpa using h.tiles.last_eq.symm
  · simp [hproduct, Mat.mul_identity]
  · rw [Mat.frobenius_sub_eq_zero_iff.mpr hexact]
    simp

section Step

variable {s : Mat n n ℝ} {q : Option (Mat n n ℝ)}
  {st next : Logged (StandardForm n ℝ) (StandardAttempt ℝ)} {above below : List (Block ℝ)}
  {upper lower : Block ℝ} {count : Nat}

/-- An accepted exchange multiplies one more factor to the product. -/
theorem StandardRun.accepted (h : StandardRun tol s q st (above ++ upper :: lower :: below) count)
    (hact : standardAction tol st (totalSize above) upper.size lower.size = (next, none)) :
    StandardRun tol s q next (above ++ lower :: upper :: below) (count + 1) := by
  obtain ⟨hfirst, hmiddle, hlast⟩ := h.cuts.patch_cuts h.rows
  have hj := patch_le h.rows
  rcases standardAction_cases tol st (totalSize above) upper.size lower.size with
    ⟨e, he, hok⟩ | ⟨reason, -, herror⟩
  · obtain rfl := (Prod.mk.inj (hok.symm.trans hact)).1
    have hsound := exchangeStandard_sound upper.size_cases lower.size_cases hmiddle.block he
    have hfactor := product_append (n := n) st.log ⟨totalSize above, upper.size, lower.size,
      st.form.s.block (totalSize above) (totalSize above), .ok e⟩
    have hclose := Mat.frobenius_transformPatch_le hj hfirst hlast (product n st.log) s
      (product n st.log) hsound.orthogonal hsound.orthogonal e.after
    refine ⟨?_, h.cuts.exchange h.rows hsound.cut, ?_, ?_, ?_, ?_, fun hunperturbed => ?_⟩
    · rw [← h.rows]
      simp [Nat.add_left_comm]
    · rw [List.countP_append, h.swaps]
      rfl
    · rw [hfactor]
      exact h.orthogonal.mul (hsound.orthogonal.embed hj)
    · simp only [StandardForm.apply, h.factor, hfactor, Option.map_map]
      congr 1
      funext q
      simp only [Function.comp_apply, StandardAttempt.factor, Mat.transformColumns_eq_mul hj,
        Mat.mul_mul]
    · rw [hfactor, List.map_append, List.sum_append, mul_add]
      refine hclose.trans (add_le_add h.close ?_)
      simpa [allowance, Except.isOk, Except.toBool] using hsound.close
    · rw [hfactor]
      refine Mat.transformPatch_eq hj hfirst hlast hsound.orthogonal hsound.orthogonal
        (h.exact fun a ha => hunperturbed a (List.mem_append_left _ ha)) (hsound.exact ?_)
      exact hunperturbed _ (List.mem_append_right _ (List.mem_singleton.mpr rfl))
  · cases (Prod.mk.inj (herror.symm.trans hact)).2

/-- A refused exchange changes nothing but the log. -/
theorem StandardRun.refused {reason : FormError ℝ}
    (h : StandardRun tol s q st (above ++ upper :: lower :: below) count)
    (hact : standardAction tol st (totalSize above) upper.size lower.size = (next, some reason)) :
    StandardRun tol s q next (above ++ upper :: lower :: below) count := by
  rcases standardAction_cases tol st (totalSize above) upper.size lower.size with
    ⟨e, -, hok⟩ | ⟨reason, -, herror⟩
  · cases (Prod.mk.inj (hok.symm.trans hact)).2
  · obtain rfl := (Prod.mk.inj (herror.symm.trans hact)).1
    have hfactor := product_append (n := n) st.log ⟨totalSize above, upper.size, lower.size,
      st.form.s.block (totalSize above) (totalSize above), .error reason⟩
    rw [StandardAttempt.factor, Mat.mul_identity] at hfactor
    refine ⟨h.rows, h.cuts, ?_, ?_, ?_, ?_, fun hunperturbed => ?_⟩
    · rw [List.countP_append, h.swaps]
      rfl
    · rw [hfactor]
      exact h.orthogonal
    · simp only [hfactor]
      exact h.factor
    · rw [hfactor, List.map_append, List.sum_append]
      simpa [allowance, Except.isOk, Except.toBool] using h.close
    · rw [hfactor]
      exact h.exact fun a ha => hunperturbed a (List.mem_append_left _ ha)

end Step

/-- What holds all along a reordering holds of its report. -/
theorem StandardForm.reorder_run {s : Mat n n ℝ} {q : Option (Mat n n ℝ)} {selected : List Bool}
    {r : Reordering (StandardForm n ℝ) (StandardAttempt ℝ) (Eigenvalues n ℝ) (FormError ℝ)}
    (h : StandardForm.reorder tol ⟨s, q⟩ selected = .ok r) :
    ∃ order, StandardRun tol s q ⟨r.form, r.log⟩ order r.swaps := by
  obtain ⟨blocks, -, hblocks, -, rfl⟩ := StandardForm.reorder_eq_ok.mp h
  have hclassified := classified_of_diagonalBlocks hblocks
  obtain ⟨order, -, hrun, -, -⟩ :=
    gather_exchangeRun (standardAction tol) blocks selected n ⟨⟨s, q⟩, []⟩ hclassified.tiles
  have hfinal := hrun.preserves (P := fun st order count _ => StandardRun tol s q st order count)
    (fun _ _ _ _ _ _ _ hrun hact => hrun.accepted hact)
    (fun _ _ _ _ _ _ _ _ hrun hact => hrun.refused hact) (StandardRun.start q hclassified)
  rw [Nat.zero_add] at hfinal
  exact ⟨order, hfinal⟩

/-- The state of a reordering with its accumulated factor left out. -/
def Logged.withoutFactor (st : Logged (StandardForm n ℝ) (StandardAttempt ℝ)) :
    Logged (StandardForm n ℝ) (StandardAttempt ℝ) :=
  ⟨⟨st.form.s, none⟩, st.log⟩

/-- An exchange does not look at the accumulated factor. -/
theorem standardAction_withoutFactor (st : Logged (StandardForm n ℝ) (StandardAttempt ℝ))
    (row upper lower : Nat) :
    standardAction tol st.withoutFactor row upper lower =
      (standardAction tol st row upper lower).map Logged.withoutFactor id := by
  rcases standardAction_cases tol st row upper lower with ⟨e, he, hok⟩ | ⟨reason, he, herror⟩
  · rw [hok]
    simp only [standardAction, StandardForm.attempt, Logged.withoutFactor, he]
    rfl
  · rw [herror]
    simp only [standardAction, StandardForm.attempt, Logged.withoutFactor, he]
    rfl

/-- The log of a reordering is the same without an accumulated factor. -/
theorem StandardForm.reorder_log {s : Mat n n ℝ} {q : Option (Mat n n ℝ)} {selected : List Bool}
    {r : Reordering (StandardForm n ℝ) (StandardAttempt ℝ) (Eigenvalues n ℝ) (FormError ℝ)}
    (h : StandardForm.reorder tol ⟨s, q⟩ selected = .ok r) :
    ∃ r', StandardForm.reorder tol ⟨s, none⟩ selected = .ok r' ∧ r'.log = r.log := by
  obtain ⟨blocks, count, hblocks, hcount, rfl⟩ := StandardForm.reorder_eq_ok.mp h
  refine ⟨_, StandardForm.reorder_eq_ok.mpr ⟨blocks, count, hblocks, hcount, rfl⟩, ?_⟩
  have hforget : gather (standardAction tol) blocks selected ⟨⟨s, none⟩, []⟩ =
      (gather (standardAction tol) blocks selected ⟨⟨s, q⟩, []⟩).mapState Logged.withoutFactor :=
    gather_mapState standardAction_withoutFactor blocks selected ⟨⟨s, q⟩, []⟩
  simp only [StandardForm.report, hforget]
  rfl

/-- Two real eigenvalues are exchanged without solving an equation. -/
theorem unperturbed_real_two (tol : Tolerance ℝ) (s : Mat 2 2 ℝ) (q : Option (Mat 2 2 ℝ)) :
    ∀ a ∈ (gather (standardAction tol) ([.real 0, .real 1] : List (Block ℝ)) [false, true]
      ⟨⟨s, q⟩, []⟩).state.log, a.perturbed tol = false := by
  simp [gather, gatherFrom, flagAt, climb, standardAction, StandardForm.attempt, exchangeStandard,
    start, size, StandardAttempt.perturbed, exchangePerturbed]

/-- Reordering a standard form applies one orthogonal matrix, which depends only on the matrix, the
selection and the tolerance. The accumulated factor is multiplied by it, and the form departs from
the transformed original by at most four times the thresholds of the exchanges that were carried
out, and not at all if no Sylvester equation of the run was perturbed. -/
theorem StandardForm.reorder_orthogonal (tol : Tolerance ℝ) (s : Mat n n ℝ) (selected : List Bool) :
    ∃ w : Mat n n ℝ, w.IsOrthogonal ∧ ∀ (q : Option (Mat n n ℝ))
      (r : Reordering (StandardForm n ℝ) (StandardAttempt ℝ) (Eigenvalues n ℝ) (FormError ℝ)),
      StandardForm.reorder tol ⟨s, q⟩ selected = .ok r →
        r.form.q = q.map (fun q => q.mul w) ∧
        r.log.countP (·.outcome.isOk) = r.swaps ∧
        (r.form.s.sub (transformed w s w)).frobenius ≤
          4 * (r.log.map (StandardAttempt.allowance tol)).sum ∧
        ((∀ a ∈ r.log, a.perturbed tol = false) →
          (r.form.s.sub (transformed w s w)).frobenius = 0) := by
  by_cases hok : ∃ r, StandardForm.reorder tol ⟨s, none⟩ selected = .ok r
  · obtain ⟨r₀, hr₀⟩ := hok
    obtain ⟨order, hrun₀⟩ := StandardForm.reorder_run hr₀
    refine ⟨product n r₀.log, hrun₀.orthogonal, fun q r hr => ?_⟩
    obtain ⟨r', hr', hlog⟩ := StandardForm.reorder_log hr
    obtain rfl : r₀ = r' := Except.ok.inj (hr₀.symm.trans hr')
    obtain ⟨order, hrun⟩ := StandardForm.reorder_run hr
    rw [hlog]
    exact ⟨hrun.factor, hrun.swaps, hrun.close,
      fun hunperturbed => Mat.frobenius_sub_eq_zero_iff.mpr (hrun.exact hunperturbed)⟩
  · refine ⟨Mat.identity, Mat.isOrthogonal_identity, fun q r hr => ?_⟩
    obtain ⟨r', hr', -⟩ := StandardForm.reorder_log hr
    exact absurd ⟨r', hr'⟩ hok

/-- Two real eigenvalues exchanged together with their accumulated factor. -/
theorem StandardForm.reorder_orthogonal_two :
    let s : Mat 2 2 ℝ := Mat.ofRows2 1 3 0 2
    ∃ r w, StandardForm.reorder Tolerance.standard ⟨s, some Mat.identity⟩ [false, true] = .ok r ∧
      (∀ a ∈ r.log, a.perturbed Tolerance.standard = false) ∧ r.swaps = 1 ∧ w.IsOrthogonal ∧
      r.form.q = some (Mat.identity.mul w) ∧ (r.form.s.sub (transformed w s w)).frobenius = 0 := by
  intro s
  obtain ⟨count, hselection⟩ := exists_checkSelection_two false true
  have hr : StandardForm.reorder Tolerance.standard ⟨s, some Mat.identity⟩ [false, true] = .ok _ :=
    StandardForm.reorder_eq_ok.mpr ⟨_, _, diagonalBlocks_triangular_two 1 3 2, hselection, rfl⟩
  obtain ⟨w, hw, hall⟩ := StandardForm.reorder_orthogonal Tolerance.standard s [false, true]
  obtain ⟨hfactor, hcount, -, hexact⟩ := hall _ _ hr
  have hunperturbed := unperturbed_real_two Tolerance.standard s (some Mat.identity)
  refine ⟨_, w, hr, hunperturbed, ?_, hw, hfactor, hexact hunperturbed⟩
  simp [StandardForm.report, gather, gatherFrom, flagAt, climb, standardAction,
    StandardForm.attempt, exchangeStandard, start, size]

end SchurForm
