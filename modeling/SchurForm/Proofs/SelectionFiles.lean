import SchurForm.Proofs.ScannedRecords
import SchurForm.Proofs.StoredFiles

/-!
# Selections in files

How a selection is laid out in a file makes no difference. A text without quotes has fields between
commas and line ends; those that are not blank spell the flags in order, or one of them spells no
flag and the text is refused. A selection that is written and read again is the same. All this only
needs a library for records that behaves as documented.
-/

namespace SchurForm

namespace MatrixFile

/-- The words for a flag. -/
def spellings : Bool → List (List Char)
  | true => [['1'], ['t', 'r', 'u', 'e']]
  | false => [['0'], ['f', 'a', 'l', 's', 'e']]

/-- The field is a word for the flag, in any letter case. -/
def Spells (field : List Char) (flag : Bool) : Prop :=
  field.map Char.toLower ∈ spellings flag

/-- The words for a flag can be gone through. -/
instance (field : List Char) (flag : Bool) : Decidable (Spells field flag) :=
  inferInstanceAs (Decidable (_ ∈ _))

/-- A character between two fields. -/
def isSeparator (c : Char) : Bool :=
  c == ',' || Csv.isBreak c

/-- The fields of a text that are not blank, without white space around them. A byte order mark at
the start of the text belongs to no field. -/
def selectionFields (text : List Char) : List (List Char) :=
  (((Csv.withoutMark text).splitOnP isSeparator).map Text.trim).filter fun field => !field.isEmpty

section Flags

variable {field : List Char} {flag : Bool}

/-- A field is read as a flag exactly if it spells this flag. -/
theorem readFlag_eq_ok : readFlag field = .ok flag ↔ Spells field flag := by
  simp only [readFlag, Spells]
  generalize field.map Char.toLower = word
  split_ifs with htrue hfalse
  · rw [Except.ok.injEq]
    rcases htrue with rfl | rfl <;> cases flag <;> decide
  · rw [Except.ok.injEq]
    rcases hfalse with rfl | rfl <;> cases flag <;> decide
  · rw [not_or] at htrue hfalse
    cases flag
    · simpa [spellings] using hfalse
    · simpa [spellings] using htrue

/-- Only what spells no flag is refused. -/
theorem readFlag_eq_error {reason : ContentFault} (h : readFlag field = .error reason) :
    (∀ flag, ¬Spells field flag) ∧ reason = .flag (field.map Char.toLower) := by
  refine ⟨fun flag hspells => ?_, ?_⟩
  · rw [readFlag_eq_ok.mpr hspells] at h
    nomatch h
  · simp only [readFlag] at h
    split_ifs at h
    exact (Except.error.inj h).symm

end Flags

section Layouts

variable {csv : Csv.Library}

/-- Splitting the pieces again is splitting at either kind of separator. -/
theorem flatMap_splitOnP {α : Type} (p q : α → Bool) (xs : List α) :
    (xs.splitOnP q).flatMap (fun piece => piece.splitOnP p) =
      xs.splitOnP fun x => p x || q x := by
  induction xs with
  | nil => rfl
  | cons x xs ih =>
    obtain ⟨piece, pieces, hpieces⟩ := List.exists_cons_of_ne_nil (List.splitOnP_ne_nil q xs)
    rw [List.splitOnP_cons_eq_if_modifyHead, List.splitOnP_cons_eq_if_modifyHead, ← ih, hpieces]
    by_cases hq : q x = true
    · simp [hq]
    · by_cases hp : p x = true
      · simp [hq, hp, List.splitOnP_cons_eq_if_modifyHead]
      · obtain ⟨head, tail, hhead⟩ := List.exists_cons_of_ne_nil (List.splitOnP_ne_nil p piece)
        simp [hq, hp, List.splitOnP_cons_eq_if_modifyHead, hhead]

/-- How the fields are spread over lines makes no difference. -/
theorem flatMap_rowsOfText (text : List Char) :
    ((Csv.rowsOfText text).flatMap fun row =>
        (row.map Text.trim).filter fun field => !field.isEmpty) =
      ((text.splitOnP isSeparator).map Text.trim).filter fun field => !field.isEmpty := by
  have hlines : ∀ lines : List (List Char),
      ((lines.filter fun line => !line.isEmpty).map fun line => line.splitOn ',').flatMap
          (fun row => (row.map Text.trim).filter fun field => !field.isEmpty) =
        ((lines.flatMap fun line => line.splitOn ',').map Text.trim).filter
          fun field => !field.isEmpty := by
    intro lines
    induction lines with
    | nil => rfl
    | cons line lines ih =>
      rw [List.flatMap_cons, List.map_append, List.filter_append, ← ih]
      cases line with
      | nil => rfl
      | cons c line => rfl
  rw [Csv.rowsOfText, hlines]
  simp only [List.splitOn_eq_splitOnP, flatMap_splitOnP]
  rfl

/-- The flags of a file are those of its fields that are not blank, in order. -/
theorem selectionOfRecords_eq {content : Bytes} {rows : List (List (List Char))}
    (h : csv.records content = rows.map .ok) :
    selectionOfRecords csv content =
      (rows.flatMap fun row => row.filter fun field => !field.isEmpty).mapM readFlag := by
  rw [selectionOfRecords, h]
  clear h
  induction rows with
  | nil => rfl
  | cons row rows ih =>
    rw [List.map_cons, List.mapM_cons, List.flatMap_cons, List.mapM_append, ← ih, recordFlags]
    cases (row.filter fun field => !field.isEmpty).mapM readFlag with
    | error reason => rfl
    | ok flags => cases (rows.map Except.ok).mapM recordFlags <;> rfl

/-- The flags of a text without quotes are those of its fields. -/
theorem selectionOfRecords_ofText (hcsv : csv.Documented) {text : List Char}
    (hquotes : '"' ∉ text) :
    selectionOfRecords csv (Bytes.ofText text) = (selectionFields text).mapM readFlag := by
  have hrecords : csv.records (Bytes.ofText text) =
      ((Csv.rowsOfText (Csv.withoutMark text)).map fun row => row.map Text.trim).map .ok := by
    rw [hcsv.records_ofText hquotes, List.map_map]
    rfl
  rw [selectionOfRecords_eq hrecords, List.flatMap_map, flatMap_rowsOfText]
  rfl

/-- A text that spells flags is read as these flags. -/
theorem selectionOfRecords_of_spells (hcsv : csv.Documented) {text : List Char} {flags : List Bool}
    (hquotes : '"' ∉ text) (h : List.Forall₂ Spells (selectionFields text) flags) :
    selectionOfRecords csv (Bytes.ofText text) = .ok flags := by
  rw [selectionOfRecords_ofText hcsv hquotes]
  exact Csv.mapM_eq_ok.mpr (h.imp fun _ _ => readFlag_eq_ok.mpr)

/-- A text with a field that spells no flag is refused because of such a field. -/
theorem selectionOfRecords_of_not_spells (hcsv : csv.Documented) {text : List Char}
    (hquotes : '"' ∉ text) (h : ∃ field ∈ selectionFields text, ∀ flag, ¬Spells field flag) :
    ∃ field ∈ selectionFields text, (∀ flag, ¬Spells field flag) ∧
      selectionOfRecords csv (Bytes.ofText text) = .error (.flag (field.map Char.toLower)) := by
  rw [selectionOfRecords_ofText hcsv hquotes]
  obtain ⟨bad, hbad, hnone⟩ := h
  obtain ⟨field, hfield, reason, hread, hall⟩ := Csv.mapM_eq_error
    ⟨bad, hbad, fun flag => mt readFlag_eq_ok.mp (hnone flag)⟩
  obtain ⟨hnothing, rfl⟩ := readFlag_eq_error hread
  exact ⟨field, hfield, hnothing, hall⟩

/-- A selection that is written is read back. -/
theorem selectionOfRecords_contentOfSelection (hcsv : csv.Documented) (flags : List Bool) :
    selectionOfRecords csv (contentOfSelection flags csv) = .ok flags := by
  by_cases hempty : flags = []
  · subst hempty
    have hrecords : csv.records (csv.write [[]]) = [[[]]].map .ok := hcsv.records_write_empty
    exact selectionOfRecords_eq hrecords
  · let fields := flags.map fun keep => csv.byteText (if keep then 1 else 0)
    have hword : ∀ keep : Bool,
        csv.byteText (if keep then 1 else 0) = if keep then ['1'] else ['0'] := by
      rintro (_ | _)
      · exact hcsv.byteText_digit (by decide)
      · exact hcsv.byteText_digit (by decide)
    have hplain : ∀ field ∈ fields, Csv.PlainField field := by
      intro field hfield
      obtain ⟨keep, -, rfl⟩ := List.mem_map.mp hfield
      rw [hword]
      cases keep
      · exact ⟨List.cons_ne_nil _ _, fun c hc => List.mem_singleton.mp hc ▸ rfl⟩
      · exact ⟨List.cons_ne_nil _ _, fun c hc => List.mem_singleton.mp hc ▸ rfl⟩
    have hspells : List.Forall₂ Spells fields flags := by
      rw [List.forall₂_map_left_iff, List.forall₂_same]
      rintro (_ | _) - <;> rw [hword] <;> decide
    have hrow : ∀ row ∈ [fields], row.length = flags.length ∧ ∀ field ∈ row, Csv.PlainField field :=
      fun row hrow => List.mem_singleton.mp hrow ▸ ⟨List.length_map _, hplain⟩
    rw [contentOfSelection,
      selectionOfRecords_eq (hcsv.records_write (List.length_pos_iff.mpr hempty) hrow),
      List.flatMap_singleton, List.filter_eq_self.mpr]
    · exact Csv.mapM_eq_ok.mpr (hspells.imp fun _ _ => readFlag_eq_ok.mpr)
    · exact fun field hfield => by simpa using (hplain field hfield).nonempty

end Layouts

end MatrixFile

open MatrixFile

/-- Selections in files on a host in memory, with any library for records that behaves as
documented. Saving a selection succeeds wherever the file is writable, and loading it again gives
the same flags. A file that holds a text without quotes is loaded as the flags that its fields
spell, however they are laid out; if one of them spells no flag, loading fails for invalid data. -/
theorem selections_stored {csv : Csv.Library} (hcsv : csv.Documented) (h : MemoryHost)
    (path : String) :
    (∀ place flags, h.tree.Writable path place →
      ∃ after, ((MemoryHost.hostWith csv).saveSelection path flags).run.run h = (.ok (), after) ∧
        ((MemoryHost.hostWith csv).loadSelection path).run.run after = (.ok flags, after)) ∧
    ∀ text : List Char, h.tree.read path = .ok (Bytes.ofText text) → '"' ∉ text →
      (∀ flags, List.Forall₂ Spells (selectionFields text) flags →
        ((MemoryHost.hostWith csv).loadSelection path).run.run h = (.ok flags, h)) ∧
      ((∃ field ∈ selectionFields text, ∀ flag, ¬Spells field flag) →
        ∃ failure, ((MemoryHost.hostWith csv).loadSelection path).run.run h = (.error failure, h) ∧
          failure.kind = "InvalidData") := by
  refine ⟨fun place flags hpath => ?_, fun text hfile hquotes => ⟨fun flags hspells => ?_, ?_⟩⟩
  · have hread := selectionOfRecords_contentOfSelection hcsv flags
    refine ⟨_, MemoryHost.run_expect_writeFile hpath _ _, ?_⟩
    rw [Host.loadSelection, MemoryHost.run_load (hpath.read_put _)]
    simp only [MemoryHost.hostWith, hread]
  · have hread := selectionOfRecords_of_spells hcsv hquotes hspells
    rw [Host.loadSelection, MemoryHost.run_load hfile]
    simp only [MemoryHost.hostWith, hread]
  · intro hbad
    obtain ⟨field, -, -, hread⟩ := selectionOfRecords_of_not_spells hcsv hquotes hbad
    refine ⟨.content path (.flag (field.map Char.toLower)), ?_, rfl⟩
    rw [Host.loadSelection, MemoryHost.run_load hfile]
    simp only [MemoryHost.hostWith, hread]

/-- Three flags over four lines, one of them blank, and a file with a field that is no flag, with
the library that the program runs with. -/
theorem selections_stored_lines :
    let text := "TRUE, 0\r\n\n,1\n".toList
    let other := "1\nyes".toList
    let h : MemoryHost := ⟨⟨[(["sel".toList], .file (Bytes.ofText text)),
      (["bad".toList], .file (Bytes.ofText other))]⟩, [], []⟩
    Csv.standard.Documented ∧ h.tree.Writable "sel" ["sel".toList] ∧
      (∃ after, (MemoryHost.host.saveSelection "sel" []).run.run h = (.ok (), after) ∧
        (MemoryHost.host.loadSelection "sel").run.run after = (.ok [], after)) ∧
      List.Forall₂ Spells (selectionFields text) [true, false, true] ∧
      (MemoryHost.host.loadSelection "sel").run.run h = (.ok [true, false, true], h) ∧
      ∃ failure, (MemoryHost.host.loadSelection "bad").run.run h = (.error failure, h) ∧
        failure.kind = "InvalidData" := by
  intro text other h
  have hwritable : h.tree.Writable "sel" ["sel".toList] :=
    ⟨rfl, fun node hnode => by cases hnode; nofun, rfl⟩
  have hfields : selectionFields text = [['T', 'R', 'U', 'E'], ['0'], ['1']] := by decide
  have hspells : List.Forall₂ Spells (selectionFields text) [true, false, true] := by
    rw [hfields]
    exact .cons (by decide) (.cons (by decide) (.cons (by decide) .nil))
  have hbad : ∀ flag, ¬Spells ['y', 'e', 's'] flag := by decide
  obtain ⟨hsaved, hread⟩ := selections_stored Csv.documented_standard h "sel"
  refine ⟨Csv.documented_standard, hwritable, hsaved _ [] hwritable, hspells,
    (hread text rfl (by decide)).1 _ hspells, ?_⟩
  exact ((selections_stored Csv.documented_standard h "bad").2 other rfl (by decide)).2
    ⟨['y', 'e', 's'], by decide, hbad⟩

/-- With any library that behaves as documented, a mark at the start of a text is read over, and a
carriage return alone ends a record. Neither text has a comma or a line feed, and neither is a word
for a flag. -/
theorem selection_read_over_mark_and_return :
    let marked := ['\uFEFF', '1']
    let returned := ['1', '\r', '0']
    (∀ text ∈ [marked, returned], Text.trim text = text ∧ '"' ∉ text ∧ ',' ∉ text ∧ '\n' ∉ text ∧
        ∀ flag, ¬Spells text flag) ∧
      Csv.standard.Documented ∧ ∀ csv : Csv.Library, csv.Documented →
        selectionOfRecords csv (Bytes.ofText marked) = .ok [true] ∧
        selectionOfRecords csv (Bytes.ofText returned) = .ok [true, false] := by
  intro marked returned
  refine ⟨by decide, Csv.documented_standard, fun csv hcsv => ⟨?_, ?_⟩⟩
  · rw [selectionOfRecords_ofText hcsv (by decide)]
    rfl
  · rw [selectionOfRecords_ofText hcsv (by decide)]
    rfl

end SchurForm
