import SchurForm.Proofs.ScannedRecords
import SchurForm.Proofs.StoredFiles

/-!
# Matrices in files of records

A matrix with rows and columns that is written as records is read again entry by entry, with any
library for records that behaves as documented. What a file of records says about the shape are its
records and their fields, so a matrix without rows leaves no trace of its columns.
-/

namespace SchurForm

section Tables

variable {m n : ℕ}

/-- A table with the dimensions and the entries of a matrix holds this matrix. -/
theorem Table.ofFn_eq {rows cols : ℕ} (hrows : rows = m) (hcols : cols = n) {f : ℕ → ℕ → Float}
    {a : Mat m n Float} (h : ∀ i < m, ∀ j < n, f i j = a.get i j) :
    Table.ofFn rows cols f = ⟨m, n, a⟩ := by
  subst hrows hcols
  have heq : Mat.ofFn f = a := Mat.ext_get fun i hi j hj => by simp [hi, hj, h i hi j hj]
  rw [Table.ofFn, heq]

/-- A matrix has as many lists as rows. -/
theorem Mat.length_toLists (a : Mat m n Float) : a.toLists.length = m := by
  simp [Mat.toLists]

/-- Each list of a matrix has as many numbers as there are columns. -/
theorem Mat.length_of_mem_toLists {a : Mat m n Float} {row : List Float} (h : row ∈ a.toLists) :
    row.length = n := by
  obtain ⟨entries, -, rfl⟩ := List.mem_map.mp h
  simp

/-- Every number in the lists of a matrix is one of its entries. -/
theorem Mat.exists_get_of_mem_toLists {a : Mat m n Float} {row : List Float} {x : Float}
    (hrow : row ∈ a.toLists) (hx : x ∈ row) : ∃ i < m, ∃ j < n, a.get i j = x := by
  obtain ⟨entries, hentries, rfl⟩ := List.mem_map.mp hrow
  obtain ⟨i, hi, rfl⟩ := Vector.mem_iff_getElem.mp (Vector.mem_toList_iff.mp hentries)
  obtain ⟨j, hj, rfl⟩ := Vector.mem_iff_getElem.mp (Vector.mem_toList_iff.mp hx)
  exact ⟨i, hi, j, hj, by simp [Mat.get, hi, hj]⟩

/-- The rows of a matrix make it up again, if there are any. -/
theorem Table.ofRows_toLists (t : Table Float) (hrows : 0 < t.rows) :
    Table.ofRows t.mat.toLists = t := by
  obtain ⟨m, n, a⟩ := t
  obtain ⟨row, rest, hlists⟩ : ∃ row rest, a.toLists = row :: rest :=
    List.exists_cons_of_ne_nil (List.ne_nil_of_length_pos (a.length_toLists.symm ▸ hrows))
  refine Table.ofFn_eq a.length_toLists ?_ fun i hi j hj => ?_
  · change (a.toLists.head?.map List.length).getD 0 = n
    rw [hlists]
    exact Mat.length_of_mem_toLists (hlists ▸ List.mem_cons_self)
  · simp [Mat.toLists, Mat.get, hi, hj]

end Tables

namespace MatrixFile

variable {csv : Csv.Library} {row : List Float} {rows : List (List Float)} {n : ℕ}

/-- A row of a matrix with `n` columns and finite entries. -/
structure IsRow (n : ℕ) (row : List Float) : Prop where
  length : row.length = n
  finite : ∀ x ∈ row, x.isFinite = true

/-- The texts of a row are fields that need no quotes. -/
theorem IsRow.plain (hrow : IsRow n row) (hcsv : csv.Documented) :
    (row.map csv.numberText).length = n ∧
      ∀ field ∈ row.map csv.numberText, Csv.PlainField field := by
  refine ⟨by rw [List.length_map, hrow.length], fun field hfield => ?_⟩
  obtain ⟨x, hx, rfl⟩ := List.mem_map.mp hfield
  exact hcsv.numberText_plain (hrow.finite x hx)

/-- The texts of a row spell its numbers. -/
theorem IsRow.spells (hrow : IsRow n row) (hcsv : csv.Documented) :
    Csv.SpellsRow (row.map csv.numberText) row := by
  rw [Csv.SpellsRow, List.forall₂_map_left_iff, List.forall₂_same]
  exact fun x hx => hcsv.read_numberText (hrow.finite x hx)

/-- Rows of one length are read one after another. -/
theorem readRows_of_length (hrows : ∀ row ∈ rows, row.length = n) {expected : Option ℕ}
    (hexpected : ∀ k ∈ expected, k = n) (count : ℕ) :
    readRows expected count (rows.map .ok) = .ok rows := by
  induction rows generalizing expected count with
  | nil => rfl
  | cons row rows ih =>
    have hlength : row.length = n := hrows row List.mem_cons_self
    have hfirst : expected.getD row.length = n := by
      cases expected with
      | none => exact hlength
      | some k => exact hexpected k rfl
    have hrest : readRows (some n) (count + 1) (rows.map .ok) = .ok rows :=
      ih (fun other hother => hrows other (List.mem_cons_of_mem row hother))
        (fun k hk => (Option.some.inj hk).symm) (count + 1)
    rw [List.map_cons, readRows, hfirst, if_pos hlength, hrest]
    rfl

/-- Rows that are written are read back. -/
theorem readRows_write (hcsv : csv.Documented) (hn : 0 < n) (hrows : ∀ row ∈ rows, IsRow n row) :
    readRows none 0 (csv.rows (csv.write (rows.map fun row => row.map csv.numberText))) =
      .ok rows := by
  have hlengths : ∀ row ∈ rows, row.length = n := fun row hrow => (hrows row hrow).length
  have hplain : ∀ fields ∈ rows.map fun row => row.map csv.numberText,
      fields.length = n ∧ ∀ field ∈ fields, Csv.PlainField field := by
    intro fields hfields
    obtain ⟨row, hrow, rfl⟩ := List.mem_map.mp hfields
    exact (hrows row hrow).plain hcsv
  have hspells : List.Forall₂ Csv.SpellsRow (rows.map fun row => row.map csv.numberText) rows := by
    rw [List.forall₂_map_left_iff, List.forall₂_same]
    exact fun row hrow => (hrows row hrow).spells hcsv
  rw [hcsv.rows_numbers (hcsv.records_write hn hplain) hlengths hspells]
  exact readRows_of_length hlengths (fun k hk => absurd hk (Option.not_mem_none k)) 0

/-- A matrix with rows and columns and finite entries is read back from its records. -/
theorem matrixOfRecords_contentOfMatrix (hcsv : csv.Documented) {path : String}
    (hrecords : isArray path = false) {t : Table Float} (hrows : 0 < t.rows) (hcols : 0 < t.cols)
    (hfinite : ∀ i < t.rows, ∀ j < t.cols, (t.mat.get i j).isFinite = true) :
    matrixOfRecords csv (contentOfMatrix path t csv) = .ok t := by
  have hrow : ∀ row ∈ t.mat.toLists, IsRow t.cols row := by
    refine fun row hrow => ⟨Mat.length_of_mem_toLists hrow, fun x hx => ?_⟩
    obtain ⟨i, hi, j, hj, rfl⟩ := Mat.exists_get_of_mem_toLists hrow hx
    exact hfinite i hi j hj
  rw [contentOfMatrix, if_neg (by simp [hrecords]), matrixOfRecords,
    readRows_write hcsv hcols hrow]
  exact congrArg Except.ok (t.ofRows_toLists hrows)

/-- Of a matrix without rows nothing is left. -/
theorem matrixOfRecords_contentOfMatrix_of_rows_eq_zero (hcsv : csv.Documented) {path : String}
    (hrecords : isArray path = false) {t : Table Float} (hrows : t.rows = 0) :
    matrixOfRecords csv (contentOfMatrix path t csv) = .ok (Table.ofFn 0 0 fun _ _ => 0) := by
  have hempty : t.mat.toLists = [] :=
    List.eq_nil_of_length_eq_zero (t.mat.length_toLists.trans hrows)
  have hnone : csv.rows (csv.write []) = [].map .ok :=
    hcsv.rows_numbers (n := 0) hcsv.records_write_nil
      (fun row hrow => absurd hrow List.not_mem_nil) .nil
  rw [contentOfMatrix, if_neg (by simp [hrecords]), hempty, matrixOfRecords, List.map_nil, hnone]
  rfl

end MatrixFile

open MatrixFile

/-- In an empty tree a file can be written next to the program. -/
theorem writable_empty : (⟨[]⟩ : FileTree).Writable "x.csv" ["x.csv".toList] :=
  ⟨rfl, fun node hnode => absurd hnode (Option.some_ne_none node).symm, rfl⟩

/-- Matrices in files of records on a host in memory, with any library for records that behaves as
documented. Saving one succeeds wherever the file is writable. If the matrix has rows and columns
and its entries are finite, loading gives the same matrix; if it has no rows, loading gives the
matrix without rows and columns. -/
theorem matrices_stored {csv : Csv.Library} (hcsv : csv.Documented) (h : MemoryHost) {path : String}
    {place : Place} (t : Table Float) (hrecords : isArray path = false)
    (hpath : h.tree.Writable path place)
    (hfinite : ∀ i < t.rows, ∀ j < t.cols, (t.mat.get i j).isFinite = true) :
    ∃ after, ((MemoryHost.hostWith csv).saveMatrix path t).run.run h = (.ok (), after) ∧
      (0 < t.rows → 0 < t.cols →
        ((MemoryHost.hostWith csv).loadMatrix path).run.run after = (.ok t, after)) ∧
      (t.rows = 0 → ((MemoryHost.hostWith csv).loadMatrix path).run.run after =
        (.ok (Table.ofFn 0 0 fun _ _ => 0), after)) := by
  refine ⟨_, MemoryHost.run_expect_writeFile hpath _ _, fun hrows hcols => ?_, fun hrows => ?_⟩
  · have hread := matrixOfRecords_contentOfMatrix hcsv hrecords hrows hcols hfinite
    rw [Host.loadMatrix, if_neg (by simp [hrecords]), MemoryHost.run_load (hpath.read_put _)]
    simp only [MemoryHost.hostWith, hread]
  · have hread := matrixOfRecords_contentOfMatrix_of_rows_eq_zero hcsv hrecords hrows
    rw [Host.loadMatrix, if_neg (by simp [hrecords]), MemoryHost.run_load (hpath.read_put _)]
    simp only [MemoryHost.hostWith, hread]

/-- A negative fraction and the least positive number in one row, with the library that the program
runs with. -/
theorem matrices_stored_row :
    let h : MemoryHost := ⟨⟨[]⟩, [], []⟩
    let t := Table.ofFn 1 2 fun _ j => if j = 0 then (-0.1 : Float) else Float.ofBits 1
    Csv.standard.Documented ∧ isArray "x.csv" = false ∧
      h.tree.Writable "x.csv" ["x.csv".toList] ∧
      (∀ i < t.rows, ∀ j < t.cols, (t.mat.get i j).isFinite = true) ∧
      ∃ after, (MemoryHost.host.saveMatrix "x.csv" t).run.run h = (.ok (), after) ∧
        (MemoryHost.host.loadMatrix "x.csv").run.run after = (.ok t, after) := by
  intro h t
  have hrecords : isArray "x.csv" = false := by decide
  have hwritable : h.tree.Writable "x.csv" ["x.csv".toList] := writable_empty
  have hfinite : ∀ i < t.rows, ∀ j < t.cols, (t.mat.get i j).isFinite = true := by decide
  obtain ⟨after, hsaved, hread, -⟩ :=
    matrices_stored Csv.documented_standard h t hrecords hwritable hfinite
  exact ⟨Csv.documented_standard, hrecords, hwritable, hfinite, after, hsaved,
    hread one_pos two_pos⟩

/-- A matrix without rows whose shape its file does not tell, with any library that behaves as
documented: no record is written, and what is read has no columns either. -/
theorem matrix_shape_not_stored :
    let h : MemoryHost := ⟨⟨[]⟩, [], []⟩
    let t := Table.ofFn 0 1 fun _ _ => (0 : Float)
    isArray "x.csv" = false ∧ h.tree.Writable "x.csv" ["x.csv".toList] ∧
      Csv.standard.Documented ∧ ∀ csv : Csv.Library, csv.Documented →
        ∃ after, ((MemoryHost.hostWith csv).saveMatrix "x.csv" t).run.run h = (.ok (), after) ∧
          ∃ read, ((MemoryHost.hostWith csv).loadMatrix "x.csv").run.run after =
            (.ok read, after) ∧ read.cols ≠ t.cols := by
  intro h t
  have hwritable : h.tree.Writable "x.csv" ["x.csv".toList] := writable_empty
  refine ⟨by decide, hwritable, Csv.documented_standard, fun csv hcsv => ?_⟩
  have hread : matrixOfRecords csv (contentOfMatrix "x.csv" t csv) = .ok _ :=
    matrixOfRecords_contentOfMatrix_of_rows_eq_zero hcsv (by decide) rfl
  refine ⟨_, MemoryHost.run_expect_writeFile hwritable _ _, Table.ofFn 0 0 fun _ _ => 0, ?_,
    by decide⟩
  rw [Host.loadMatrix, if_neg (by decide), MemoryHost.run_load (hwritable.read_put _)]
  simp only [MemoryHost.hostWith, hread]

end SchurForm
