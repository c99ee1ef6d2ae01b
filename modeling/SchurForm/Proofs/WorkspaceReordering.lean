import SchurForm.Proofs.InPlaceReordering
import SchurForm.Workspace

/-!
# Reordering a workspace

The tables of a workspace that fit together are a form, and the workspace is the one that holds this
form. So reordering a workspace fails before anything is written, while the tables are read, while
the form is recognized or while the selection is checked; or it leaves the workspace that holds the
reordered form and the selection of what got to the front.
-/

namespace SchurForm

open Operation

variable {α : Type} [Scalar α] {n : Nat} {tol : Tolerance α}

section Tables

/-- A table of known dimensions is the table of its leading part. -/
theorem Table.ofMat_leading {a : Table α} (hrows : a.rows = n) (hcols : a.cols = n) :
    Table.ofMat (a.leading n n) = a := by
  obtain ⟨rows, cols, mat⟩ := a
  subst hrows
  obtain rfl : cols = rows := hcols
  exact congrArg (Table.mk _ _) (Mat.ext_get fun i hi j hj => by simp [Table.leading, hi, hj])

/-- A factor of the right dimensions is the one that it is taken for. -/
theorem Table.map_ofMat_factorOf? {position : Nat} {name : String} {a : Option (Table α)}
    {factor : Option (Mat n n α)} (h : Table.factorOf? n position name a = .ok factor) :
    factor.map Table.ofMat = a := by
  rw [Table.factorOf?.eq_def] at h
  split at h
  · obtain rfl := Except.ok.inj h
    rfl
  · split at h
    · rename_i hdims
      obtain rfl := Except.ok.inj h
      exact congrArg some (Table.ofMat_leading hdims.1 hdims.2)
    · nomatch h

/-- A square matrix of unknown dimensions is the one that it is taken for. -/
theorem Table.ofMat_square {name : String} {a : Table α} {sized : (n : Nat) × Mat n n α}
    (h : a.square name = .ok sized) : Table.ofMat sized.2 = a := by
  rw [Table.square] at h
  split at h
  · rename_i hdims
    obtain rfl := Except.ok.inj h
    exact Table.ofMat_leading rfl hdims.symm
  · nomatch h

/-- A square matrix of the order of another one is the one that it is taken for. -/
theorem Table.ofMat_squareOf {name : String} {a : Table α} {b : Mat n n α}
    (h : a.squareOf name n = .ok b) : Table.ofMat b = a := by
  rw [Table.squareOf] at h
  split at h
  · split at h
    · rename_i hsquare horder
      obtain rfl := Except.ok.inj h
      exact Table.ofMat_leading horder (by omega)
    · nomatch h
  · nomatch h

end Tables

namespace Workspace

variable {w : Workspace α}

/-- The workspace with a standard form in the place of the one in it. -/
def keepStandard (w : Workspace α) (form : StandardForm n α) : Workspace α :=
  { w with s := .ofMat form.s, q := form.q.map .ofMat }

/-- The workspace with a pencil in the place of the one in it. -/
def keepPencil (w : Workspace α) (form : PencilForm n α) : Workspace α :=
  { w with
    s := .ofMat form.s, t := some (.ofMat form.t), q := form.q.map .ofMat
    z := form.z.map .ofMat }

/-- A factor is read as it is kept. -/
theorem map_leading_map_ofMat (a : Option (Mat n n α)) :
    (a.map Table.ofMat).map (fun a => a.leading n n) = a := by
  cases a with
  | none => rfl
  | some a => exact congrArg some (Table.leading_ofMat a)

/-- A workspace holds the standard form that it keeps. -/
theorem holds_keepStandard (w : Workspace α) (factored : Bool) :
    (standardView n).Holds factored w.keepStandard := by
  refine ⟨fun form _ => ?_, fun form a _ => rfl, fun form a _ _ => rfl, fun form _ _ => ?_⟩
  · simp only [StandardView.form, standardView, keepStandard, map_leading_map_ofMat]
    rw [Table.leading_ofMat]
  · exact Table.leading_ofMat form.s

/-- A workspace holds the pencil that it keeps. -/
theorem holds_keepPencil (w : Workspace α) (left right : Bool) :
    (pencilView n).Holds left right w.keepPencil := by
  refine ⟨fun form _ => ?_, fun form a _ => rfl, fun form a _ => rfl, fun form a _ _ => rfl,
    fun form a _ _ => rfl, fun form _ _ => ?_, fun form _ _ => ?_⟩
  · simp only [PencilView.form, pencilView, keepPencil, map_leading_map_ofMat, Option.map_some,
      Option.getD_some]
    rw [Table.leading_ofMat, Table.leading_ofMat]
  · exact Table.leading_ofMat form.s
  · exact Table.leading_ofMat form.t

/-- A workspace is the one that keeps the standard form in it. -/
theorem keepStandard_ofTables {form : StandardForm n α}
    (h : StandardForm.ofTables w.s w.q = .ok ⟨n, form⟩) : w.keepStandard form = w := by
  rw [StandardForm.ofTables, checked_bind_eq_ok] at h
  obtain ⟨⟨m, s⟩, hs, h⟩ := h
  obtain ⟨q, hq, h⟩ := checked_bind_eq_ok.mp h
  obtain ⟨rfl, heq⟩ := Sigma.mk.inj (Except.ok.inj h)
  obtain rfl := eq_of_heq heq
  rw [keepStandard, Table.map_ofMat_factorOf? hq]
  exact congrArg (fun s => { w with s }) (Table.ofMat_square hs)

/-- A workspace is the one that keeps the pencil in it. -/
theorem keepPencil_ofTables {t : Table α} {form : PencilForm n α} (hw : w.t = some t)
    (h : PencilForm.ofTables w.s t w.q w.z = .ok ⟨n, form⟩) : w.keepPencil form = w := by
  rw [PencilForm.ofTables, checked_bind_eq_ok] at h
  obtain ⟨⟨m, s⟩, hs, h⟩ := h
  obtain ⟨q, hq, h⟩ := checked_bind_eq_ok.mp h
  obtain ⟨z, hz, h⟩ := checked_bind_eq_ok.mp h
  obtain ⟨b, ht, h⟩ := checked_bind_eq_ok.mp h
  obtain ⟨rfl, heq⟩ := Sigma.mk.inj (Except.ok.inj h)
  obtain rfl := eq_of_heq heq
  rw [keepPencil, Table.map_ofMat_factorOf? hq, Table.map_ofMat_factorOf? hz,
    Table.ofMat_squareOf ht, ← hw]
  exact congrArg (fun s => { w with s }) (Table.ofMat_square hs)

/-- What reordering the form in a workspace gives: the report, and the workspace that keeps the
reordered form with the selection of what got to the front. -/
def reordered (tol : Tolerance α) (w : Workspace α) :
    Except (FormError α) (ReorderSummary α × Workspace α) :=
  match w.t with
  | none => do
    let ⟨_, form⟩ ← StandardForm.ofTables w.s w.q
    let r ← form.reorder tol w.selected
    return (r.withEigenvalues r.eigenvalues.toLists,
      { w.keepStandard r.form with selected := r.selected })
  | some t => do
    let ⟨_, form⟩ ← PencilForm.ofTables w.s t w.q w.z
    let r ← form.reorder tol w.selected
    return (r.withEigenvalues r.eigenvalues.toLists,
      { w.keepPencil r.form with selected := r.selected })

/-- Reordering a workspace without a second matrix reorders the standard form that it holds. -/
theorem reordered_of_standard (hw : w.t = none) :
    w.reordered tol = StandardForm.ofTables w.s w.q >>= fun f =>
      f.2.reorder tol w.selected >>= fun r => .ok (r.withEigenvalues r.eigenvalues.toLists,
        { w.keepStandard r.form with selected := r.selected }) := by
  rw [reordered.eq_def, hw]
  rfl

/-- Reordering a workspace with a second matrix reorders the pencil that it holds. -/
theorem reordered_of_pencil {t : Table α} (hw : w.t = some t) :
    w.reordered tol = PencilForm.ofTables w.s t w.q w.z >>= fun f =>
      f.2.reorder tol w.selected >>= fun r => .ok (r.withEigenvalues r.eigenvalues.toLists,
        { w.keepPencil r.form with selected := r.selected }) := by
  rw [reordered.eq_def, hw]
  rfl

/-- Reordering a workspace fails where reordering its form does, before anything is written. -/
theorem run_reorder_error {e : FormError α} (h : w.reordered tol = .error e) :
    (reorder tol).run w = (.error e, w) := by
  rw [reorder, run_bind_get]
  cases hw : w.t with
  | none =>
    rw [reordered_of_standard hw, checked_bind_eq_error] at h
    rcases h with h | ⟨⟨n, form⟩, htables, h⟩
    · exact run_bind_error h _ w
    · rcases checked_bind_eq_error.mp h with h | ⟨r, -, h⟩
      · have hput := keepStandard_ofTables htables
        have hrun := (holds_keepStandard w form.q.isSome).run_reorder_error rfl (hput.symm ▸ h)
        rw [hput] at hrun
        exact (run_bind_ok htables _ w).trans (run_bind_of_error hrun _)
      · nomatch h
  | some t =>
    rw [reordered_of_pencil hw, checked_bind_eq_error] at h
    rcases h with h | ⟨⟨n, form⟩, htables, h⟩
    · exact run_bind_error h _ w
    · rcases checked_bind_eq_error.mp h with h | ⟨r, -, h⟩
      · have hput := keepPencil_ofTables hw htables
        have hrun := (holds_keepPencil w form.q.isSome form.z.isSome).run_reorder_error ⟨rfl, rfl⟩
          (hput.symm ▸ h)
        rw [hput] at hrun
        exact (run_bind_ok htables _ w).trans (run_bind_of_error hrun _)
      · nomatch h

/-- Reordering a workspace leaves the reordered form in it. -/
theorem run_reorder {x : ReorderSummary α × Workspace α} (h : w.reordered tol = .ok x) :
    (reorder tol).run w = (.ok x.1, x.2) := by
  rw [reorder, run_bind_get]
  cases hw : w.t with
  | none =>
    rw [reordered_of_standard hw, checked_bind_eq_ok] at h
    obtain ⟨⟨n, form⟩, htables, h⟩ := h
    obtain ⟨r, hr, h⟩ := checked_bind_eq_ok.mp h
    obtain rfl := Except.ok.inj h
    have hput := keepStandard_ofTables htables
    have hrun := (holds_keepStandard w form.q.isSome).run_reorder rfl (hput.symm ▸ hr)
    rw [hput] at hrun
    exact (run_bind_ok htables _ w).trans (run_bind_of_ok hrun _)
  | some t =>
    rw [reordered_of_pencil hw, checked_bind_eq_ok] at h
    obtain ⟨⟨n, form⟩, htables, h⟩ := h
    obtain ⟨r, hr, h⟩ := checked_bind_eq_ok.mp h
    obtain rfl := Except.ok.inj h
    have hput := keepPencil_ofTables hw htables
    have hrun := (holds_keepPencil w form.q.isSome form.z.isSome).run_reorder ⟨rfl, rfl⟩
      (hput.symm ▸ hr)
    rw [hput] at hrun
    exact (run_bind_ok htables _ w).trans (run_bind_of_ok hrun _)

end Workspace

end SchurForm
