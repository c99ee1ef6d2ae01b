import Mathlib.Data.List.Perm.Basic
import SchurForm.Proofs.CheckedSteps
import SchurForm.Selection

/-!
# Orders of blocks and where they stand

Reordering permutes the blocks of a form and never resizes one. The state of the blocks is therefore
described by the original blocks in their present order: `Block.placed` stands them end to end and
records the first row of each, and `Block.layOut` moves them there. A block list that tiles a range
of rows is its own layout, and every layout is a tiling. Recognition finds tilings, whatever the
arithmetic.
-/

namespace SchurForm

variable {α : Type}

namespace Block

/-- No blocks take no rows. -/
@[simp] theorem totalSize_nil : totalSize ([] : List (Block α)) = 0 := rfl

/-- The rows of the first block are counted first. -/
@[simp] theorem totalSize_cons (b : Block α) (rest : List (Block α)) :
    totalSize (b :: rest) = b.size + totalSize rest := rfl

/-- The rows of two lists of blocks add up. -/
@[simp] theorem totalSize_append (front back : List (Block α)) :
    totalSize (front ++ back) = totalSize front + totalSize back := by
  induction front with
  | nil => simp
  | cons b front ih => simp [ih, Nat.add_assoc]

/-- A block has at least one row. -/
theorem size_pos (b : Block α) : 0 < b.size := by
  cases b <;> simp [size]

/-- A block has one row or two. -/
theorem size_cases (b : Block α) : b.size = 1 ∨ b.size = 2 := by
  cases b <;> simp [size]

/-- The rows that blocks occupy do not depend on their order. -/
theorem totalSize_perm {blocks order : List (Block α)} (h : blocks.Perm order) :
    totalSize blocks = totalSize order := by
  induction h with
  | nil => rfl
  | cons b _ ih => simp [ih]
  | swap b c _ => simp [Nat.add_left_comm]
  | trans _ _ ih₁ ih₂ => exact ih₁.trans ih₂

/-- Blocks standing end to end from a row on, each with its first row. -/
def placed : Nat → List (Block α) → List (Nat × Block α)
  | _, [] => []
  | first, b :: rest => (first, b) :: placed (first + b.size) rest

/-- Blocks moved to where they stand when they follow each other from a row on. -/
def layOut (first : Nat) (order : List (Block α)) : List (Block α) :=
  (placed first order).map fun place => place.2.moveTo place.1

/-- A later list of blocks is placed behind an earlier one. -/
theorem placed_append (first : Nat) (front back : List (Block α)) :
    placed first (front ++ back) = placed first front ++ placed (first + totalSize front) back := by
  induction front generalizing first with
  | nil => rfl
  | cons b front ih => simp [placed, ih, Nat.add_assoc]

/-- There is nothing to lay out. -/
@[simp] theorem layOut_nil (first : Nat) : layOut first ([] : List (Block α)) = [] := rfl

/-- The first block is laid out first, and the others behind it. -/
@[simp] theorem layOut_cons (first : Nat) (b : Block α) (rest : List (Block α)) :
    layOut first (b :: rest) = b.moveTo first :: layOut (first + b.size) rest := rfl

/-- A later list of blocks is laid out behind an earlier one. -/
@[simp] theorem layOut_append (first : Nat) (front back : List (Block α)) :
    layOut first (front ++ back) =
      layOut first front ++ layOut (first + totalSize front) back := by
  simp [layOut, placed_append]

/-- Laying out keeps the number of blocks. -/
@[simp] theorem length_layOut (first : Nat) (order : List (Block α)) :
    (layOut first order).length = order.length := by
  induction order generalizing first with
  | nil => rfl
  | cons b order ih => simp [ih]

/-- Laying out keeps the number of rows. -/
@[simp] theorem totalSize_layOut (first : Nat) (order : List (Block α)) :
    totalSize (layOut first order) = totalSize order := by
  induction order generalizing first with
  | nil => rfl
  | cons b order ih => simp [ih]

/-- A block that is moved to its place stays as it is. -/
@[simp] theorem moveTo_start (b : Block α) : b.moveTo b.start = b := by
  cases b <;> rfl

/-- Of two moves the last one counts. -/
@[simp] theorem moveTo_moveTo (b : Block α) (i j : Nat) : (b.moveTo i).moveTo j = b.moveTo j := by
  cases b <;> rfl

/-- A tiling is its own layout. -/
theorem Tiles.layOut_eq {first last : Nat} {blocks : List (Block α)} (h : Tiles first blocks last) :
    layOut first blocks = blocks := by
  induction blocks generalizing first with
  | nil => rfl
  | cons b blocks ih =>
    obtain ⟨rfl, hrest⟩ := h
    rw [layOut_cons, moveTo_start, ← stop, ih hrest]

/-- A layout is a tiling. -/
theorem tiles_layOut (first : Nat) (order : List (Block α)) :
    Tiles first (layOut first order) (first + totalSize order) := by
  induction order generalizing first with
  | nil => rfl
  | cons b order ih =>
    change (b.moveTo first).start = first ∧
      Tiles (b.moveTo first).stop (layOut (first + b.size) order)
        (first + (b.size + totalSize order))
    rw [stop, start_moveTo, size_moveTo, ← Nat.add_assoc]
    exact ⟨rfl, ih (first + b.size)⟩

/-- The first block of a tiling starts where the tiling does. -/
theorem Tiles.start_head {first last : Nat} {b : Block α} {rest : List (Block α)}
    (h : Tiles first (b :: rest) last) : b.start = first := h.1

/-- The blocks behind the first one tile the remaining rows. -/
theorem Tiles.tail {first last : Nat} {b : Block α} {rest : List (Block α)}
    (h : Tiles first (b :: rest) last) : Tiles (first + b.size) rest last := by
  obtain ⟨rfl, hrest⟩ := h
  exact hrest

/-- A placed block stands inside the rows that are laid out. -/
theorem placed_bounds {first : Nat} {order : List (Block α)} {place : Nat × Block α}
    (h : place ∈ placed first order) :
    first ≤ place.1 ∧ place.1 + place.2.size ≤ first + totalSize order := by
  induction order generalizing first with
  | nil => simp [placed] at h
  | cons b order ih =>
    rcases List.mem_cons.mp h with rfl | h
    · simp
    · have hb := ih h
      simp only [totalSize_cons]
      omega

/-- The placed blocks are those of the order. -/
theorem mem_of_mem_placed {first : Nat} {order : List (Block α)} {place : Nat × Block α}
    (h : place ∈ placed first order) : place.2 ∈ order := by
  induction order generalizing first with
  | nil => simp [placed] at h
  | cons b order ih =>
    rcases List.mem_cons.mp h with rfl | h
    · exact List.mem_cons_self
    · exact List.mem_cons_of_mem b (ih h)

/-- Every block of an order has a place. -/
theorem exists_placed (first : Nat) {order : List (Block α)} {b : Block α} (h : b ∈ order) :
    ∃ row, (row, b) ∈ placed first order := by
  obtain ⟨front, back, rfl⟩ := List.append_of_mem h
  exact ⟨first + totalSize front, by simp [placed_append, placed]⟩

/-- The blocks of a tiling stand on their own first rows. -/
theorem Tiles.start_eq_of_mem_placed {first last : Nat} {blocks : List (Block α)}
    (h : Tiles first blocks last) {place : Nat × Block α} (hplace : place ∈ placed first blocks) :
    place.2.start = place.1 := by
  induction blocks generalizing first with
  | nil => simp [placed] at hplace
  | cons b rest ih =>
    rcases List.mem_cons.mp hplace with rfl | hplace
    · exact h.start_head
    · exact ih h.tail hplace

/-- The blocks of a tiling end inside it. -/
theorem Tiles.stop_le {first last : Nat} {blocks : List (Block α)} (h : Tiles first blocks last)
    {b : Block α} (hb : b ∈ blocks) : b.stop ≤ last := by
  obtain ⟨row, hplace⟩ := exists_placed first hb
  have hstart : b.start = row := h.start_eq_of_mem_placed hplace
  rw [stop, hstart, h.last_eq]
  exact (placed_bounds hplace).2

/-- The leading and the remaining blocks of a tiling tile the two parts of its rows. -/
theorem Tiles.append {first last : Nat} {front back : List (Block α)}
    (h : Tiles first (front ++ back) last) :
    Tiles first front (first + totalSize front) ∧ Tiles (first + totalSize front) back last := by
  induction front generalizing first with
  | nil => exact ⟨rfl, h⟩
  | cons b front ih =>
    obtain ⟨hfront, hback⟩ := ih h.tail
    rw [totalSize_cons, ← Nat.add_assoc]
    obtain ⟨rfl, -⟩ := h
    exact ⟨⟨rfl, hfront⟩, hback⟩

/-- The blocks of a tiling down to one of them tile the rows down to its end. -/
theorem Tiles.through {first last : Nat} {front back : List (Block α)} {b : Block α}
    (h : Tiles first (front ++ b :: back) last) : Tiles first (front ++ [b]) b.stop := by
  have hstart : b.start = first + totalSize front := h.append.2.start_head
  rw [← List.singleton_append, ← List.append_assoc] at h
  have hthrough := h.append.1
  rwa [totalSize_append, totalSize_cons, totalSize_nil, Nat.add_zero, ← Nat.add_assoc, ← hstart]
    at hthrough

/-- The blocks in front of a block end above it. -/
theorem Tiles.stop_le_start {first last : Nat} {front back : List (Block α)} {b c : Block α}
    (h : Tiles first (front ++ b :: back) last) (hc : c ∈ front) : c.stop ≤ b.start := by
  obtain ⟨hfront, hback⟩ := h.append
  exact hback.start_head ▸ hfront.stop_le hc

/-- The blocks of a tiling start inside it. -/
theorem Tiles.le_start {first last : Nat} {blocks : List (Block α)} (h : Tiles first blocks last)
    {b : Block α} (hb : b ∈ blocks) : first ≤ b.start := by
  obtain ⟨row, hplace⟩ := exists_placed first hb
  rw [h.start_eq_of_mem_placed hplace]
  exact (placed_bounds hplace).1

/-- The rows behind a tiling are those behind its last block. -/
theorem Tiles.blocksEnd_eq {first last : Nat} {blocks : List (Block α)}
    (h : Tiles first blocks last) (hfirst : blocks = [] → first = 0) : blocksEnd blocks = last := by
  rcases List.eq_nil_or_concat' blocks with rfl | ⟨front, b, rfl⟩
  · exact (hfirst rfl).symm.trans h
  · obtain ⟨-, hlast⟩ := h.append
    have hstop : b.stop = last := hlast.2
    simpa [blocksEnd] using hstop

end Block

section Recognition

variable [Scalar α] {n : Nat}

/-- The blocks that a scan of the diagonal finds tile the rows that it walks down. -/
theorem tiles_of_scanBlocks {s : Mat n n α} {pair : Nat → Except (FormError α) (α × α)}
    {left k : Nat} {blocks : List (Block α)} (h : scanBlocks s pair left k = .ok blocks) :
    Block.Tiles k blocks (k + left) := by
  -- The recursion of the scan: no row left, one row left, two blocks of order two that overlap, a
  -- block of order two, a block of order one.
  fun_induction scanBlocks s pair left k generalizing blocks with
  | case1 k =>
    obtain rfl : [] = blocks := by simpa using h
    rfl
  | case2 k =>
    obtain rfl : [Block.real k] = blocks := by simpa using h
    exact ⟨rfl, rfl⟩
  | case3 => cases h
  | case4 left k _ _ ih =>
    obtain ⟨⟨re, im⟩, -, h⟩ := checked_bind_eq_ok.mp h
    obtain ⟨rest, hrest, h⟩ := checked_bind_eq_ok.mp h
    obtain rfl : Block.pair k re im :: rest = blocks := by simpa [pure, Except.pure] using h
    have htiles := ih hrest
    rw [Nat.add_right_comm, Nat.add_assoc k] at htiles
    exact ⟨rfl, htiles⟩
  | case5 left k _ ih =>
    obtain ⟨rest, hrest, h⟩ := checked_bind_eq_ok.mp h
    obtain rfl : Block.real k :: rest = blocks := by simpa [pure, Except.pure] using h
    have htiles := ih hrest
    rw [Nat.add_right_comm, Nat.add_assoc k] at htiles
    exact ⟨rfl, htiles⟩

/-- The blocks of a recognized standard form tile its rows. -/
theorem tiles_of_diagonalBlocks {s : Mat n n α} {blocks : List (Block α)}
    (h : diagonalBlocks s = .ok blocks) : Block.Tiles 0 blocks n := by
  obtain ⟨_, -, hscan⟩ := checked_bind_eq_ok.mp h
  simpa using tiles_of_scanBlocks hscan

/-- The blocks of a recognized pencil tile its rows. -/
theorem tiles_of_pencilBlocks {s t : Mat n n α} {blocks : List (Block α)}
    (h : pencilBlocks s t = .ok blocks) : Block.Tiles 0 blocks n := by
  obtain ⟨_, -, h⟩ := checked_bind_eq_ok.mp h
  obtain ⟨_, -, hscan⟩ := checked_bind_eq_ok.mp h
  simpa using tiles_of_scanBlocks hscan

end Recognition

end SchurForm
