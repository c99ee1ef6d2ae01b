import Mathlib.Data.List.Forall2
import SchurForm.Proofs.ExactArithmetic
import SchurForm.Proofs.BlockCuts
import SchurForm.Reordering

/-!
# Eigenvalue lists along a layout of blocks

An eigenvalue list is read row by row from the block that covers the row. If blocks are laid out in
some order, the list is therefore the concatenation of what the blocks contribute, in that order.
Two lists are compared block by block: each moved block has to give the values that the original
block gave at its original rows.

The values of a pencil are points `(real, imag, beta)` of a projective line: they are determined up
to one number that is not zero.
-/

namespace SchurForm

open Scalar Block

variable {n : Nat}

/-- The entry of an eigenvalue list for a row. -/
def Eigenvalues.at {α : Type} [Zero α] (e : Eigenvalues n α) (row : Nat) : α × α :=
  (e.real.get row, e.imag.get row)

/-- The entry of a pencil's eigenvalue list for a row. -/
def PencilEigenvalues.at {α : Type} [Zero α] (e : PencilEigenvalues n α) (row : Nat) : α × α × α :=
  (e.real.get row, e.imag.get row, e.beta.get row)

/-- Two triples name the same point of the projective line. -/
def SamePoint (x y : ℝ × ℝ × ℝ) : Prop :=
  ∃ c : ℝ, c ≠ 0 ∧ x = (c * y.1, c * y.2.1, c * y.2.2)

/-- Signs and a common factor do not change a real point. -/
theorem SamePoint.of_scale {c unit unit₀ : ℝ} (hc : c ≠ 0) (hunit : unit ^ 2 = 1)
    (hunit₀ : unit₀ ^ 2 = 1) (x y : ℝ) :
    SamePoint (unit * (c * x), 0, unit * (c * y)) (unit₀ * x, 0, unit₀ * y) := by
  have hne : unit * c * unit₀ ≠ 0 := by
    refine mul_ne_zero (mul_ne_zero ?_ hc) ?_
    · rintro rfl
      norm_num at hunit
    · rintro rfl
      norm_num at hunit₀
  refine ⟨unit * c * unit₀, hne, ?_⟩
  simp only [Prod.mk.injEq, mul_zero, true_and]
  constructor
  · linear_combination (-(unit * c * x)) * hunit₀
  · linear_combination (-(unit * c * y)) * hunit₀

/-- A finite eigenvalue is one point over all denominators. -/
theorem SamePoint.of_denominators (re im : ℝ) {beta beta₀ : ℝ} (hbeta : beta ≠ 0)
    (hbeta₀ : beta₀ ≠ 0) :
    SamePoint (re * |beta|, im * |beta|, |beta|) (re * |beta₀|, im * |beta₀|, |beta₀|) := by
  have habs : |beta₀| ≠ 0 := abs_ne_zero.mpr hbeta₀
  refine ⟨|beta| / |beta₀|, div_ne_zero (abs_ne_zero.mpr hbeta) habs, ?_⟩
  simp only [Prod.mk.injEq]
  refine ⟨?_, ?_, ?_⟩ <;> field_simp

/-- The rows of some blocks, in the order of the blocks. -/
def blockRows {α : Type} (blocks : List (Block α)) : List Nat :=
  blocks.flatMap fun b => List.range' b.start b.size

/-- Reading the rows of a layout is reading the original rows of its blocks in their order, if every
block gives in its place what it gave at its original rows. -/
theorem forall₂_placed {α β γ : Type} {R : β → γ → Prop} {f : Nat → β} {g : Nat → γ} {first : Nat}
    {order : List (Block α)}
    (h : ∀ place ∈ placed first order, ∀ i < place.2.size,
      R (f (place.1 + i)) (g (place.2.start + i))) :
    List.Forall₂ R ((List.range' first (totalSize order)).map f) ((blockRows order).map g) := by
  induction order generalizing first with
  | nil => exact List.Forall₂.nil
  | cons b order ih =>
    have hhead : List.Forall₂ R ((List.range' first b.size).map f)
        ((List.range' b.start b.size).map g) := by
      rw [List.forall₂_map_left_iff, List.forall₂_map_right_iff, List.forall₂_iff_get]
      refine ⟨by simp, fun i hi _ => ?_⟩
      simpa using h (first, b) List.mem_cons_self i (by simpa using hi)
    have htail := ih fun place hplace => h place (List.mem_cons_of_mem _ hplace)
    have hrows : List.range' first (totalSize (b :: order)) =
        List.range' first b.size ++ List.range' (first + b.size) (totalSize order) := by
      rw [List.range'_append_1, totalSize_cons]
    rw [hrows, List.map_append, blockRows, List.flatMap_cons, List.map_append]
    exact List.rel_append hhead htail

/-- The block that covers a row of a layout is the one that was placed there. -/
theorem blockAt_layOut {α : Type} {f : Block α → Block α} (hf : ∀ b, (f b).start = b.start ∧
    (f b).size = b.size) {first row : Nat} {order : List (Block α)} {b : Block α}
    (h : (row, b) ∈ placed first order) {i : Nat} (hi : i < b.size) :
    blockAt ((layOut first order).map f) (row + i) = some (f (b.moveTo row)) := by
  induction order generalizing first with
  | nil => simp [placed] at h
  | cons c order ih =>
    obtain ⟨hstart, hsize⟩ := hf (c.moveTo first)
    rw [start_moveTo] at hstart
    rw [size_moveTo] at hsize
    rw [blockAt, layOut_cons, List.map_cons, List.find?_cons]
    rcases List.mem_cons.mp h with heq | h
    · obtain ⟨rfl, rfl⟩ := Prod.mk.inj heq
      have hcovers : (f (b.moveTo row)).covers (row + i) = true := by
        simp [covers, stop, hstart, hsize, hi]
      rw [hcovers]
    · have hbound := (placed_bounds h).1
      have hcovers : (f (c.moveTo first)).covers (row + i) = false := by
        simp only [covers, stop, hstart, hsize, Bool.and_eq_false_iff, decide_eq_false_iff_not]
        omega
      rw [hcovers]
      exact ih h

/-- The block that covers a row of a tiling is the one that stands there. -/
theorem Block.Tiles.blockAt {α : Type} {first last : Nat} {blocks : List (Block α)}
    (h : Tiles first blocks last) {b : Block α} (hb : b ∈ blocks) {i : Nat} (hi : i < b.size) :
    blockAt blocks (b.start + i) = some b := by
  obtain ⟨row, hplace⟩ := exists_placed first hb
  have hstart : b.start = row := h.start_eq_of_mem_placed hplace
  have hfind := blockAt_layOut (f := id) (fun _ => ⟨rfl, rfl⟩) hplace hi
  rwa [List.map_id, h.layOut_eq, ← hstart, moveTo_start] at hfind

/-- Reading a block again does not move it. -/
theorem start_size_reread {α : Type} (find : Nat → Option (α × α)) (b : Block α) :
    (b.reread find).start = b.start ∧ (b.reread find).size = b.size := by
  cases b <;> exact ⟨rfl, rfl⟩

section Values

variable {s t : Mat n n ℝ} {blocks : List (Block ℝ)} {row : Nat} {b : Block ℝ}

/-- The eigenvalue list of a standard form at a row that a block covers. -/
theorem eigenvalues_at (hrow : row < n) (hb : blockAt blocks row = some b) :
    (eigenvalues s blocks).at row = b.eigenvalueAt s row := by
  simp only [Eigenvalues.at, eigenvalues, Vec.get_ofFn, hrow, if_true, hb]

/-- The eigenvalue list of a pencil at a row that a block covers. -/
theorem pencilEigenvalues_at (hrow : row < n) (hb : blockAt blocks row = some b) :
    (pencilEigenvalues s t blocks).at row = b.pencilEigenvalueAt s t row := by
  simp only [PencilEigenvalues.at, pencilEigenvalues, Vec.get_ofFn, hrow, if_true, hb]

end Values

section Moved

variable {s s₀ t t₀ : Mat n n ℝ} {b : Block ℝ} {row i : Nat}

/-- A block that has moved with its eigenvalues gives the values that it gave before. -/
theorem eigenvalueAt_reread (hpair : b.HasPair (pairAt s₀))
    (hsimilar : Mat.SimilarAt b.size s row s₀ b.start) (hi : i < b.size) :
    ((b.moveTo row).reread (pairAt s)).eigenvalueAt s (row + i) =
      b.eigenvalueAt s₀ (b.start + i) := by
  cases b with
  | real k =>
    have hentry : s.get row row = s₀.get k k := Mat.SimilarAt.get_eq hsimilar
    simp [moveTo, reread, eigenvalueAt, hentry]
  | pair k re im =>
    have hfound : pairAt s row = some (re, im) := by
      rw [Mat.SimilarAt.pairAt_eq hsimilar]
      exact hpair
    simp [moveTo, reread, eigenvalueAt, hfound, start]

/-- A pencil block with a complex eigenvalue has a diagonal without zeros below it. -/
theorem diagonal_ne_zero_of_pencilPairAt {k : Nat} (h : pencilPairAt s t k ≠ none) :
    t.get k k ≠ 0 ∧ t.get (k + 1) (k + 1) ≠ 0 := by
  rw [pencilPairAt, pencilComplexEigenvalue?_eq] at h
  split at h
  · exact absurd rfl h
  · rename_i hne
    exact mul_ne_zero_iff.mp hne

/-- The eigenvalue of a pencil block is that of the block with its rows divided by the diagonal. -/
theorem pencilPairAt_eq_complexEigenvalue? {k : Nat} (h : pencilPairAt s t k ≠ none) :
    pencilPairAt s t k = complexEigenvalue? (s.get k k / t.get k k) (s.get k (k + 1) / t.get k k)
      (s.get (k + 1) k / t.get (k + 1) (k + 1))
      (s.get (k + 1) (k + 1) / t.get (k + 1) (k + 1)) := by
  obtain ⟨h0, h1⟩ := diagonal_ne_zero_of_pencilPairAt h
  simp [pencilPairAt, pencilComplexEigenvalue?, h0, h1]

/-- A block pair that has moved with its eigenvalues gives the points that it gave before. -/
theorem pencilEigenvalueAt_reread (hpair : b.HasPair (pencilPairAt s₀ t₀))
    (hequivalent : Mat.EquivalentAt b.size s t row s₀ t₀ b.start)
    (hdiagonal : b.size = 2 → t.DiagonalAt row) (hdiagonal₀ : b.size = 2 → t₀.DiagonalAt b.start)
    (hi : i < b.size) :
    SamePoint (((b.moveTo row).reread (pencilPairAt s t)).pencilEigenvalueAt s t (row + i))
      (b.pencilEigenvalueAt s₀ t₀ (b.start + i)) := by
  cases b with
  | real k =>
    obtain ⟨c, hc, hs, ht⟩ := Mat.EquivalentAt.exists_scale hequivalent
    obtain ⟨unit, hunit, hnew⟩ : ∃ unit : ℝ, unit ^ 2 = 1 ∧
        ((moveTo row (.real k)).reread (pencilPairAt s t)).pencilEigenvalueAt s t (row + i) =
          (unit * s.get row row, 0, unit * t.get row row) :=
      ⟨if t.get row row < 0 then -1 else 1, by split <;> norm_num, rfl⟩
    obtain ⟨unit₀, hunit₀, hold⟩ : ∃ unit : ℝ, unit ^ 2 = 1 ∧
        (real k).pencilEigenvalueAt s₀ t₀ ((real k : Block ℝ).start + i) =
          (unit * s₀.get k k, 0, unit * t₀.get k k) :=
      ⟨if t₀.get k k < 0 then -1 else 1, by split <;> norm_num, rfl⟩
    rw [hnew, hold, hs, ht]
    exact SamePoint.of_scale hc hunit hunit₀ _ _
  | pair k re im =>
    have hfound₀ : pencilPairAt s₀ t₀ k = some (re, im) := hpair
    have hfound : pencilPairAt s t row = some (re, im) := by
      rw [Mat.EquivalentAt.pencilPairAt_eq hequivalent (hdiagonal rfl) (hdiagonal₀ rfl)]
      exact hpair
    obtain ⟨hne₀, hne₁⟩ := diagonal_ne_zero_of_pencilPairAt
      (hfound ▸ Option.some_ne_none _ : pencilPairAt s t row ≠ none)
    obtain ⟨hne₀', hne₁'⟩ := diagonal_ne_zero_of_pencilPairAt
      (hfound₀ ▸ Option.some_ne_none _ : pencilPairAt s₀ t₀ k ≠ none)
    have hcases : i = 0 ∨ i = 1 := by
      have : i < 2 := hi
      omega
    rcases hcases with rfl | rfl
    · simpa [moveTo, reread, pencilEigenvalueAt, hfound, start] using
        SamePoint.of_denominators re im hne₀ hne₀'
    · simpa [moveTo, reread, pencilEigenvalueAt, hfound, start] using
        SamePoint.of_denominators re (-im) hne₁ hne₁'

end Moved

end SchurForm
