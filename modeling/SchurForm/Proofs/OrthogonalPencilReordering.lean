import SchurForm.Proofs.BlockCuts
import SchurForm.Proofs.PencilExchange
import SchurForm.Proofs.ReorderingOutcome

/-!
# A reordering of a pencil is one pair of orthogonal changes of basis

The same account as for a standard form, with two products: the left factors of the accepted
exchanges act on the rows of both matrices and on the columns of `q`, the right factors on the
columns of both matrices and on the columns of `z`. Each matrix has its own thresholds.
-/

namespace SchurForm

open Scalar Matrix Block
open scoped Matrix.Norms.Frobenius

variable {n : Nat} {tol : Tolerance ℝ}

namespace PencilAttempt

/-- The Sylvester equations of the attempt had to be perturbed. -/
noncomputable def perturbed (tol : Tolerance ℝ) (a : PencilAttempt ℝ) : Bool :=
  (coupledSolution tol a.patchS a.patchT).perturbed

/-- The threshold for the first matrix of an exchange that was carried out. -/
noncomputable def allowanceS (tol : Tolerance ℝ) (a : PencilAttempt ℝ) : ℝ :=
  if a.outcome.isOk then tol.threshold a.patchS.supNorm else 0

/-- The threshold for the second matrix of an exchange that was carried out. -/
noncomputable def allowanceT (tol : Tolerance ℝ) (a : PencilAttempt ℝ) : ℝ :=
  if a.outcome.isOk then tol.threshold a.patchT.supNorm else 0

/-- The left factor of the attempt in the whole pencil; a refused exchange changes nothing. -/
noncomputable def left (n : Nat) (a : PencilAttempt ℝ) : Mat n n ℝ :=
  match a.outcome with
  | .ok e => Mat.embed n a.row e.left
  | .error _ => Mat.identity

/-- The right factor of the attempt in the whole pencil. -/
noncomputable def right (n : Nat) (a : PencilAttempt ℝ) : Mat n n ℝ :=
  match a.outcome with
  | .ok e => Mat.embed n a.row e.right
  | .error _ => Mat.identity

/-- The product of the factors of a log on one side. -/
noncomputable def product (n : Nat) (factor : PencilAttempt ℝ → Mat n n ℝ)
    (log : List (PencilAttempt ℝ)) : Mat n n ℝ :=
  log.foldl (fun w a => w.mul (factor a)) Mat.identity

/-- A further attempt multiplies the product of factors from the right. -/
theorem product_append (factor : PencilAttempt ℝ → Mat n n ℝ) (log : List (PencilAttempt ℝ))
    (a : PencilAttempt ℝ) :
    product n factor (log ++ [a]) = (product n factor log).mul (factor a) := by
  simp [product]

end PencilAttempt

open PencilAttempt

/-- What holds all along a reordering of the pencil of `s` and `t` with the accumulated factors `q`
and `z`. -/
structure PencilRun (tol : Tolerance ℝ) (s t : Mat n n ℝ) (q z : Option (Mat n n ℝ))
    (st : Logged (PencilForm n ℝ) (PencilAttempt ℝ)) (order : List (Block ℝ)) (count : Nat) :
    Prop where
  rows : totalSize order = n
  cuts_s : st.form.s.CutBy order
  cuts_t : st.form.t.CutBy order
  swaps : st.log.countP (·.outcome.isOk) = count
  left_orthogonal : (product n (left n) st.log).IsOrthogonal
  right_orthogonal : (product n (right n) st.log).IsOrthogonal
  factor_q : st.form.q = q.map fun q => q.mul (product n (left n) st.log)
  factor_z : st.form.z = z.map fun z => z.mul (product n (right n) st.log)
  close_s : (st.form.s.sub (transformed (product n (left n) st.log) s
    (product n (right n) st.log))).frobenius ≤ 4 * (st.log.map (allowanceS tol)).sum
  close_t : (st.form.t.sub (transformed (product n (left n) st.log) t
    (product n (right n) st.log))).frobenius ≤ 4 * (st.log.map (allowanceT tol)).sum
  exact : (∀ a ∈ st.log, a.perturbed tol = false) →
    st.form.s = transformed (product n (left n) st.log) s (product n (right n) st.log) ∧
      st.form.t = transformed (product n (left n) st.log) t (product n (right n) st.log)

/-- Nothing has happened at the start. -/
theorem PencilRun.start {s t : Mat n n ℝ} (q z : Option (Mat n n ℝ)) {blocks : List (Block ℝ)}
    (h : s.PencilClassified t blocks) : PencilRun tol s t q z ⟨⟨s, t, q, z⟩, []⟩ blocks 0 := by
  have hproduct (factor : PencilAttempt ℝ → Mat n n ℝ) : product n factor [] = Mat.identity := rfl
  have hexact (a : Mat n n ℝ) :
      a = transformed (product n (left n) []) a (product n (right n) []) := by
    rw [hproduct, hproduct, Mat.transformed_identity]
  refine ⟨?_, h.cuts_s, h.cuts_t, rfl, Mat.isOrthogonal_identity, Mat.isOrthogonal_identity, ?_, ?_,
    ?_, ?_, fun _ => ⟨hexact s, hexact t⟩⟩
  · simpa using h.tiles.last_eq.symm
  · simp [hproduct, Mat.mul_identity]
  · simp [hproduct, Mat.mul_identity]
  · rw [Mat.frobenius_sub_eq_zero_iff.mpr (hexact s)]
    simp
  · rw [Mat.frobenius_sub_eq_zero_iff.mpr (hexact t)]
    simp

section Step

variable {s t : Mat n n ℝ} {q z : Option (Mat n n ℝ)}
  {st next : Logged (PencilForm n ℝ) (PencilAttempt ℝ)} {above below : List (Block ℝ)}
  {upper lower : Block ℝ} {count : Nat}

/-- An accepted exchange multiplies one more factor to the product of either side. -/
theorem PencilRun.accepted (h : PencilRun tol s t q z st (above ++ upper :: lower :: below) count)
    (hact : pencilAction tol st (totalSize above) upper.size lower.size = (next, none)) :
    PencilRun tol s t q z next (above ++ lower :: upper :: below) (count + 1) := by
  obtain ⟨hfirstS, hmiddleS, hlastS⟩ := h.cuts_s.patch_cuts h.rows
  obtain ⟨hfirstT, hmiddleT, hlastT⟩ := h.cuts_t.patch_cuts h.rows
  have hj := patch_le h.rows
  rcases pencilAction_cases tol st (totalSize above) upper.size lower.size with
    ⟨e, he, hok⟩ | ⟨reason, -, herror⟩
  · obtain rfl := (Prod.mk.inj (hok.symm.trans hact)).1
    have hsound := exchangePencil_sound upper.size_cases lower.size_cases hmiddleS.block
      hmiddleT.block he
    have hfactor (factor : PencilAttempt ℝ → Mat n n ℝ) := product_append factor st.log
      ⟨totalSize above, upper.size, lower.size, st.form.s.block (totalSize above) (totalSize above),
        st.form.t.block (totalSize above) (totalSize above), .ok e⟩
    have hcloseS := Mat.frobenius_transformPatch_le hj hfirstS hlastS (product n (left n) st.log) s
      (product n (right n) st.log) hsound.left_orthogonal hsound.right_orthogonal e.s
    have hcloseT := Mat.frobenius_transformPatch_le hj hfirstT hlastT (product n (left n) st.log) t
      (product n (right n) st.log) hsound.left_orthogonal hsound.right_orthogonal e.t
    refine ⟨?_, h.cuts_s.exchange h.rows hsound.cut_s, h.cuts_t.exchange h.rows hsound.cut_t, ?_,
      ?_, ?_, ?_, ?_, ?_, ?_, fun hunperturbed => ?_⟩
    · rw [← h.rows]
      simp [Nat.add_left_comm]
    · rw [List.countP_append, h.swaps]
      rfl
    · rw [hfactor]
      exact h.left_orthogonal.mul (hsound.left_orthogonal.embed hj)
    · rw [hfactor]
      exact h.right_orthogonal.mul (hsound.right_orthogonal.embed hj)
    · simp only [PencilForm.apply, h.factor_q, hfactor, Option.map_map]
      congr 1
      funext q
      simp only [Function.comp_apply, PencilAttempt.left, Mat.transformColumns_eq_mul hj,
        Mat.mul_mul]
    · simp only [PencilForm.apply, h.factor_z, hfactor, Option.map_map]
      congr 1
      funext z
      simp only [Function.comp_apply, PencilAttempt.right, Mat.transformColumns_eq_mul hj,
        Mat.mul_mul]
    · rw [hfactor, hfactor, List.map_append, List.sum_append, mul_add]
      refine hcloseS.trans (add_le_add h.close_s ?_)
      simpa [allowanceS, Except.isOk, Except.toBool] using hsound.close_s
    · rw [hfactor, hfactor, List.map_append, List.sum_append, mul_add]
      refine hcloseT.trans (add_le_add h.close_t ?_)
      simpa [allowanceT, Except.isOk, Except.toBool] using hsound.close_t
    · obtain ⟨hs, ht⟩ := h.exact fun a ha => hunperturbed a (List.mem_append_left _ ha)
      obtain ⟨hpatchS, hpatchT⟩ := hsound.exact
        (hunperturbed _ (List.mem_append_right _ (List.mem_singleton.mpr rfl)))
      rw [hfactor, hfactor]
      constructor
      · exact Mat.transformPatch_eq hj hfirstS hlastS hsound.left_orthogonal
          hsound.right_orthogonal hs hpatchS
      · exact Mat.transformPatch_eq hj hfirstT hlastT hsound.left_orthogonal
          hsound.right_orthogonal ht hpatchT
  · cases (Prod.mk.inj (herror.symm.trans hact)).2

/-- A refused exchange changes nothing but the log. -/
theorem PencilRun.refused {reason : FormError ℝ}
    (h : PencilRun tol s t q z st (above ++ upper :: lower :: below) count)
    (hact : pencilAction tol st (totalSize above) upper.size lower.size = (next, some reason)) :
    PencilRun tol s t q z next (above ++ upper :: lower :: below) count := by
  rcases pencilAction_cases tol st (totalSize above) upper.size lower.size with
    ⟨e, -, hok⟩ | ⟨reason, -, herror⟩
  · cases (Prod.mk.inj (hok.symm.trans hact)).2
  · obtain rfl := (Prod.mk.inj (herror.symm.trans hact)).1
    have hfactor (factor : PencilAttempt ℝ → Mat n n ℝ) := product_append factor st.log
      ⟨totalSize above, upper.size, lower.size, st.form.s.block (totalSize above) (totalSize above),
        st.form.t.block (totalSize above) (totalSize above), .error reason⟩
    have hleft := hfactor (left n)
    have hright := hfactor (right n)
    rw [PencilAttempt.left, Mat.mul_identity] at hleft
    rw [PencilAttempt.right, Mat.mul_identity] at hright
    refine ⟨h.rows, h.cuts_s, h.cuts_t, ?_, ?_, ?_, ?_, ?_, ?_, ?_, fun hunperturbed => ?_⟩
    · rw [List.countP_append, h.swaps]
      rfl
    · rw [hleft]
      exact h.left_orthogonal
    · rw [hright]
      exact h.right_orthogonal
    · simp only [hleft]
      exact h.factor_q
    · simp only [hright]
      exact h.factor_z
    · rw [hleft, hright, List.map_append, List.sum_append]
      simpa [allowanceS, Except.isOk, Except.toBool] using h.close_s
    · rw [hleft, hright, List.map_append, List.sum_append]
      simpa [allowanceT, Except.isOk, Except.toBool] using h.close_t
    · rw [hleft, hright]
      exact h.exact fun a ha => hunperturbed a (List.mem_append_left _ ha)

end Step

/-- What holds all along a reordering holds of its report. -/
theorem PencilForm.reorder_run {s t : Mat n n ℝ} {q z : Option (Mat n n ℝ)} {selected : List Bool}
    {r : Reordering (PencilForm n ℝ) (PencilAttempt ℝ) (PencilEigenvalues n ℝ) (FormError ℝ)}
    (h : PencilForm.reorder tol ⟨s, t, q, z⟩ selected = .ok r) :
    ∃ order, PencilRun tol s t q z ⟨r.form, r.log⟩ order r.swaps := by
  obtain ⟨blocks, -, hblocks, -, rfl⟩ := PencilForm.reorder_eq_ok.mp h
  have hclassified := classified_of_pencilBlocks hblocks
  obtain ⟨order, -, hrun, -, -⟩ :=
    gather_exchangeRun (pencilAction tol) blocks selected n ⟨⟨s, t, q, z⟩, []⟩ hclassified.tiles
  have hfinal := hrun.preserves (P := fun st order count _ => PencilRun tol s t q z st order count)
    (fun _ _ _ _ _ _ _ hrun hact => hrun.accepted hact)
    (fun _ _ _ _ _ _ _ _ hrun hact => hrun.refused hact) (PencilRun.start q z hclassified)
  rw [Nat.zero_add] at hfinal
  exact ⟨order, hfinal⟩

/-- The state of a reordering with its accumulated factors left out. -/
def Logged.withoutFactors (st : Logged (PencilForm n ℝ) (PencilAttempt ℝ)) :
    Logged (PencilForm n ℝ) (PencilAttempt ℝ) :=
  ⟨⟨st.form.s, st.form.t, none, none⟩, st.log⟩

/-- An exchange does not look at the accumulated factors. -/
theorem pencilAction_withoutFactors (st : Logged (PencilForm n ℝ) (PencilAttempt ℝ))
    (row upper lower : Nat) :
    pencilAction tol st.withoutFactors row upper lower =
      (pencilAction tol st row upper lower).map Logged.withoutFactors id := by
  rcases pencilAction_cases tol st row upper lower with ⟨e, he, hok⟩ | ⟨reason, he, herror⟩
  · rw [hok]
    simp only [pencilAction, PencilForm.attempt, Logged.withoutFactors, he]
    rfl
  · rw [herror]
    simp only [pencilAction, PencilForm.attempt, Logged.withoutFactors, he]
    rfl

/-- The log of a reordering is the same without accumulated factors. -/
theorem PencilForm.reorder_log {s t : Mat n n ℝ} {q z : Option (Mat n n ℝ)} {selected : List Bool}
    {r : Reordering (PencilForm n ℝ) (PencilAttempt ℝ) (PencilEigenvalues n ℝ) (FormError ℝ)}
    (h : PencilForm.reorder tol ⟨s, t, q, z⟩ selected = .ok r) :
    ∃ r', PencilForm.reorder tol ⟨s, t, none, none⟩ selected = .ok r' ∧ r'.log = r.log := by
  obtain ⟨blocks, count, hblocks, hcount, rfl⟩ := PencilForm.reorder_eq_ok.mp h
  refine ⟨_, PencilForm.reorder_eq_ok.mpr ⟨blocks, count, hblocks, hcount, rfl⟩, ?_⟩
  have hforget : gather (pencilAction tol) blocks selected ⟨⟨s, t, none, none⟩, []⟩ =
      (gather (pencilAction tol) blocks selected ⟨⟨s, t, q, z⟩, []⟩).mapState
        Logged.withoutFactors :=
    gather_mapState pencilAction_withoutFactors blocks selected ⟨⟨s, t, q, z⟩, []⟩
  simp only [PencilForm.report, hforget]
  rfl

/-- The eigenvalue zero and the infinite eigenvalue are exchanged in one attempt, without a lifted
pivot. -/
theorem unperturbed_zero_infinity (tol : Tolerance ℝ) (q z : Option (Mat 2 2 ℝ)) :
    let log := (gather (pencilAction tol) ([.real 0, .real 1] : List (Block ℝ)) [false, true]
      ⟨⟨Mat.ofRows2 0 1 0 1, Mat.ofRows2 1 0 0 0, q, z⟩, []⟩).state.log
    log.length = 1 ∧ ∀ a ∈ log, a.perturbed tol = false := by
  set s : Mat 2 2 ℝ := Mat.ofRows2 0 1 0 1 with hs
  set t : Mat 2 2 ℝ := Mat.ofRows2 1 0 0 0 with ht
  have hpatch (a : Mat 2 2 ℝ) : (a.block 0 0 : Mat (1 + 1) (1 + 1) ℝ) = a :=
    Mat.ext_get fun i hi j hj => by rw [Mat.get_block _ _ _ hi hj, Nat.zero_add, Nat.zero_add]
  have hlog : ∃ outcome, (gather (pencilAction tol) ([.real 0, .real 1] : List (Block ℝ))
      [false, true] ⟨⟨s, t, q, z⟩, []⟩).state.log =
        [⟨0, 1, 1, s.block 0 0, t.block 0 0, outcome⟩] := by
    rcases pencilAction_cases tol ⟨⟨s, t, q, z⟩, []⟩ 0 1 1 with
      ⟨e, -, hok⟩ | ⟨reason, -, herror⟩
    · exact ⟨.ok e, by simp [gather, gatherFrom, flagAt, climb, start, size, hok]⟩
    · exact ⟨.error reason, by simp [gather, gatherFrom, flagAt, climb, start, size, herror]⟩
  obtain ⟨outcome, hlog⟩ := hlog
  rw [hlog]
  refine ⟨rfl, fun a ha => ?_⟩
  rw [List.mem_singleton.mp ha, PencilAttempt.perturbed, hpatch s, hpatch t]
  exact coupledSolution_zero_infinity tol

/-- Reordering a pencil applies one pair of orthogonal matrices, which depend only on the pencil,
the selection and the tolerance. The accumulated factors are multiplied by them, and both matrices
depart from the transformed originals by at most four times their thresholds of the exchanges that
were carried out, and not at all if no Sylvester equations of the run were perturbed. -/
theorem PencilForm.reorder_orthogonal_pair (tol : Tolerance ℝ) (s t : Mat n n ℝ)
    (selected : List Bool) :
    ∃ wl wr : Mat n n ℝ, wl.IsOrthogonal ∧ wr.IsOrthogonal ∧ ∀ (q z : Option (Mat n n ℝ))
      (r : Reordering (PencilForm n ℝ) (PencilAttempt ℝ) (PencilEigenvalues n ℝ) (FormError ℝ)),
      PencilForm.reorder tol ⟨s, t, q, z⟩ selected = .ok r →
        r.form.q = q.map (fun q => q.mul wl) ∧ r.form.z = z.map (fun z => z.mul wr) ∧
        r.log.countP (·.outcome.isOk) = r.swaps ∧
        (r.form.s.sub (transformed wl s wr)).frobenius ≤
          4 * (r.log.map (PencilAttempt.allowanceS tol)).sum ∧
        (r.form.t.sub (transformed wl t wr)).frobenius ≤
          4 * (r.log.map (PencilAttempt.allowanceT tol)).sum ∧
        ((∀ a ∈ r.log, a.perturbed tol = false) →
          (r.form.s.sub (transformed wl s wr)).frobenius = 0 ∧
            (r.form.t.sub (transformed wl t wr)).frobenius = 0) := by
  by_cases hok : ∃ r, PencilForm.reorder tol ⟨s, t, none, none⟩ selected = .ok r
  · obtain ⟨r₀, hr₀⟩ := hok
    obtain ⟨order, hrun₀⟩ := PencilForm.reorder_run hr₀
    refine ⟨product n (left n) r₀.log, product n (right n) r₀.log, hrun₀.left_orthogonal,
      hrun₀.right_orthogonal, fun q z r hr => ?_⟩
    obtain ⟨r', hr', hlog⟩ := PencilForm.reorder_log hr
    obtain rfl : r₀ = r' := Except.ok.inj (hr₀.symm.trans hr')
    obtain ⟨order, hrun⟩ := PencilForm.reorder_run hr
    rw [hlog]
    refine ⟨hrun.factor_q, hrun.factor_z, hrun.swaps, hrun.close_s, hrun.close_t,
      fun hunperturbed => ?_⟩
    obtain ⟨hs, ht⟩ := hrun.exact hunperturbed
    exact ⟨Mat.frobenius_sub_eq_zero_iff.mpr hs, Mat.frobenius_sub_eq_zero_iff.mpr ht⟩
  · refine ⟨Mat.identity, Mat.identity, Mat.isOrthogonal_identity, Mat.isOrthogonal_identity,
      fun q z r hr => ?_⟩
    obtain ⟨r', hr', -⟩ := PencilForm.reorder_log hr
    exact absurd ⟨r', hr'⟩ hok

/-- The eigenvalue zero and the infinite eigenvalue of a pencil exchanged together with the left
accumulated factor. -/
theorem PencilForm.reorder_orthogonal_pair_two :
    let s : Mat 2 2 ℝ := Mat.ofRows2 0 1 0 1
    let t : Mat 2 2 ℝ := Mat.ofRows2 1 0 0 0
    ∃ r wl wr, PencilForm.reorder Tolerance.standard ⟨s, t, some Mat.identity, none⟩ [false, true] =
        .ok r ∧
      r.log.length = 1 ∧ (∀ a ∈ r.log, a.perturbed Tolerance.standard = false) ∧
      wl.IsOrthogonal ∧ wr.IsOrthogonal ∧
      r.form.q = some (Mat.identity.mul wl) ∧ r.form.z = none ∧
      (r.form.s.sub (transformed wl s wr)).frobenius = 0 ∧
      (r.form.t.sub (transformed wl t wr)).frobenius = 0 := by
  intro s t
  obtain ⟨count, hselection⟩ := exists_checkSelection_two false true
  have hr : PencilForm.reorder Tolerance.standard ⟨s, t, some Mat.identity, none⟩ [false, true] =
      .ok _ :=
    PencilForm.reorder_eq_ok.mpr ⟨_, _, pencilBlocks_triangular_two 0 1 1 1 0 0, hselection, rfl⟩
  obtain ⟨wl, wr, hwl, hwr, hall⟩ :=
    PencilForm.reorder_orthogonal_pair Tolerance.standard s t [false, true]
  obtain ⟨hq, hz, -, -, -, hexact⟩ := hall _ _ _ hr
  obtain ⟨hlength, hunperturbed⟩ :=
    unperturbed_zero_infinity Tolerance.standard (some Mat.identity) none
  obtain ⟨hs, ht⟩ := hexact hunperturbed
  exact ⟨_, wl, wr, hr, hlength, hunperturbed, hwl, hwr, hq, hz, hs, ht⟩

end SchurForm
