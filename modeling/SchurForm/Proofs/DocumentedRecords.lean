import Mathlib.Data.List.Forall2
import Mathlib.Tactic.SplitIfs
import SchurForm.Csv
import SchurForm.Csv.Library

/-!
# What libraries for records document

A text without quotes is split into lines at line feeds and carriage returns, lines that are empty
are dropped, and each line is split at commas; a byte order mark at the start is passed over. A
finite number is written as a numeral that reads as this number, and fields that need no quotes are
written as they are. `Library.Documented` lists this behaviour. From it alone it follows that a file
of such fields reads back as the records that were written.
-/

namespace SchurForm

namespace Csv

/-- A character that ends a record. -/
def isBreak (c : Char) : Bool :=
  c == '\n' || c == '\r'

/-- The rows of fields in a text without quotes: its lines as far as they are not empty, split at
commas. -/
def rowsOfText (text : List Char) : List (List (List Char)) :=
  ((text.splitOnP isBreak).filter fun line => !line.isEmpty).map fun line => line.splitOn ','

/-- The text behind the byte order mark that may stand at its start. -/
def withoutMark (text : List Char) : List Char :=
  if text.head? = some '\uFEFF' then text.tail else text

section Writing

/-- A character that stands for itself in a field: visible ASCII, no comma and no quote. -/
def isPlain (c : Char) : Bool :=
  decide (0x20 < c.toNat) && decide (c.toNat < 0x7F) && c != ',' && c != '"'

/-- A field that needs no quotes and has no white space around it. -/
structure PlainField (field : List Char) : Prop where
  nonempty : field ≠ []
  plain : ∀ c ∈ field, isPlain c = true

variable {rows : List (List (List Char))} {row : List (List Char)} {field : List Char} {c : Char}

/-- Plain characters are the visible ones but for the comma and the quote. -/
theorem isPlain_iff :
    isPlain c = true ↔ 0x20 < c.toNat ∧ c.toNat < 0x7F ∧ c ≠ ',' ∧ c ≠ '"' := by
  simp [isPlain, and_assoc]

/-- A plain character ends no line. -/
theorem isBreak_of_isPlain (h : isPlain c = true) : isBreak c = false := by
  obtain ⟨hvisible, -⟩ := isPlain_iff.mp h
  rw [isBreak, Bool.or_eq_false_iff, beq_eq_false_iff_ne, beq_eq_false_iff_ne]
  constructor <;> rintro rfl <;> exact absurd hvisible (by decide)

/-- A plain character is no white space. -/
theorem isBlank_of_isPlain (h : isPlain c = true) : Text.isBlank c = false := by
  obtain ⟨hvisible, hascii, -⟩ := isPlain_iff.mp h
  have hcodes : ∀ n < 0x7F, 0x20 < n →
      Text.blankRanges.any (fun r => decide (r.1 ≤ n) && decide (n ≤ r.2)) = false := by
    decide
  exact hcodes c.toNat hascii hvisible

/-- There is nothing to trim from a plain field. -/
theorem PlainField.trim_eq (h : PlainField field) : Text.trim field = field := by
  have hdrop : ∀ cs : List Char, (∀ c ∈ cs, isPlain c = true) → cs.dropWhile Text.isBlank = cs := by
    intro cs hcs
    cases cs with
    | nil => rfl
    | cons c cs =>
      exact List.dropWhile_cons_of_neg (by simp [isBlank_of_isPlain (hcs c List.mem_cons_self)])
  rw [Text.trim, hdrop field h.plain, hdrop _ fun c hc => h.plain c (List.mem_reverse.mp hc),
    List.reverse_reverse]

/-- Besides the commas, a line has the characters of its fields. -/
theorem mem_intercalate (h : c ∈ [','].intercalate row) : c = ',' ∨ ∃ field ∈ row, c ∈ field := by
  induction row with
  | nil => simp at h
  | cons field rest ih =>
    cases rest with
    | nil => exact .inr ⟨field, List.mem_cons_self, by simpa using h⟩
    | cons next rest =>
      rw [List.intercalate_cons_cons, List.append_assoc, List.mem_append, List.mem_append,
        List.mem_singleton] at h
      rcases h with h | h | h
      · exact .inr ⟨field, List.mem_cons_self, h⟩
      · exact .inl h
      · rcases ih h with hcomma | ⟨g, hg, hc⟩
        · exact .inl hcomma
        · exact .inr ⟨g, List.mem_cons_of_mem field hg, hc⟩

/-- The line of a record with fields that are not empty is not empty. -/
theorem intercalate_isEmpty (hrow : row ≠ []) (hplain : ∀ field ∈ row, PlainField field) :
    ([','].intercalate row).isEmpty = false := by
  obtain ⟨field, rest, rfl⟩ := List.exists_cons_of_ne_nil hrow
  have hfield := (hplain field List.mem_cons_self).nonempty
  cases rest with
  | nil => simpa using hfield
  | cons next rest => simp [List.intercalate_cons_cons]

/-- A row that was written is one line of the text, which splits into its fields. -/
theorem rowsOfText_line_append (hrow : row ≠ []) (hplain : ∀ field ∈ row, PlainField field)
    (more : List Char) : rowsOfText (line row ++ more) = row :: rowsOfText more := by
  have hempty := intercalate_isEmpty hrow hplain
  have hbreaks : ∀ c ∈ [','].intercalate row, isBreak c = false := by
    intro c hc
    rcases mem_intercalate hc with rfl | ⟨field, hfield, hc⟩
    · rfl
    · exact isBreak_of_isPlain ((hplain field hfield).plain c hc)
  have hcommas : ∀ field ∈ row, ',' ∉ field := fun field hfield hc =>
    (isPlain_iff.mp ((hplain field hfield).plain ',' hc)).2.2.1 rfl
  have hline : line row ++ more = [','].intercalate row ++ '\n' :: more := by
    simp [line, hempty]
  rw [hline, rowsOfText, List.splitOnP_append_cons_of_forall_mem hbreaks '\n' rfl,
    List.filter_cons_of_pos (by rw [hempty]; rfl), List.map_cons,
    List.splitOn_intercalate ',' hcommas hrow]
  rfl

/-- The rows of a text that was written are those that were written. -/
theorem rowsOfText_flatMap_line
    (hrows : ∀ row ∈ rows, row ≠ [] ∧ ∀ field ∈ row, PlainField field) :
    rowsOfText (rows.flatMap line) = rows := by
  induction rows with
  | nil => rfl
  | cons row rows ih =>
    obtain ⟨hrow, hplain⟩ := hrows row List.mem_cons_self
    rw [List.flatMap_cons, rowsOfText_line_append hrow hplain,
      ih fun other hother => hrows other (List.mem_cons_of_mem row hother)]

/-- What is written of plain fields is ASCII without quotes. -/
theorem mem_flatMap_line (hrows : ∀ row ∈ rows, row ≠ [] ∧ ∀ field ∈ row, PlainField field)
    (hc : c ∈ rows.flatMap line) : c.toNat < 0x80 ∧ c ≠ '"' := by
  obtain ⟨row, hrow, hc⟩ := List.mem_flatMap.mp hc
  obtain ⟨hnonempty, hplain⟩ := hrows row hrow
  have hcontent : c ∈ [','].intercalate row ∨ c = '\n' := by
    simpa [line, intercalate_isEmpty hnonempty hplain] using hc
  rcases hcontent with hcontent | rfl
  · rcases mem_intercalate hcontent with rfl | ⟨field, hfield, hc⟩
    · decide
    · obtain ⟨-, hascii, -, hquote⟩ := isPlain_iff.mp ((hplain field hfield).plain c hc)
      exact ⟨by omega, hquote⟩
  · decide

end Writing

section Library

/-- The fields spell the numbers, one each. -/
def SpellsRow (fields : List (List Char)) (row : List Float) : Prop :=
  List.Forall₂ (fun field x => Decimal.read field = .ok x) fields row

/-- The documented behaviour of a library for records, as far as files of numbers and flags rest on
it. -/
structure Library.Documented (csv : Library) : Prop where
  /-- The text of a finite number needs no quotes. -/
  numberText_plain : ∀ {x : Float}, x.isFinite = true → PlainField (csv.numberText x)
  /-- The text of a finite number reads as this number. -/
  read_numberText : ∀ {x : Float}, x.isFinite = true → Decimal.read (csv.numberText x) = .ok x
  /-- A byte below ten is written as one digit. -/
  byteText_digit : ∀ {b : UInt8}, b < 10 → csv.byteText b = [Nat.digitChar b.toNat]
  /-- Records of one length whose fields need no quotes are written line by line. -/
  write_lines : ∀ {n : Nat} {records : List (List (List Char))},
    (∀ record ∈ records, record.length = n ∧ ∀ field ∈ record, PlainField field) →
      csv.write records = Bytes.ofText (records.flatMap line)
  /-- A text without quotes has the records that its lines hold. -/
  records_ofText : ∀ {text : List Char}, '"' ∉ text →
    csv.records (Bytes.ofText text) =
      (rowsOfText (withoutMark text)).map fun row => .ok (row.map Text.trim)
  /-- A line of two quotes is a record with one empty field. -/
  records_quotes : csv.records (Bytes.ofText ['"', '"', '\n']) = [.ok [[]]]
  /-- Records of one length whose fields spell numbers are rows of these numbers. -/
  rows_numbers : ∀ {n : Nat} {content : Bytes} {records : List (List (List Char))}
    {rows : List (List Float)}, csv.records content = records.map .ok →
      (∀ row ∈ rows, row.length = n) → List.Forall₂ SpellsRow records rows →
        csv.rows content = rows.map .ok

namespace Library.Documented

variable {csv : Library} {n : Nat} {rows : List (List (List Char))}

/-- A file of records reads back as the records that were written to it. -/
theorem records_write (hcsv : csv.Documented) (hn : 0 < n)
    (hrows : ∀ row ∈ rows, row.length = n ∧ ∀ field ∈ row, PlainField field) :
    csv.records (csv.write rows) = rows.map .ok := by
  have hplain : ∀ row ∈ rows, row ≠ [] ∧ ∀ field ∈ row, PlainField field := fun row hrow =>
    ⟨List.ne_nil_of_length_pos ((hrows row hrow).1.symm ▸ hn), (hrows row hrow).2⟩
  have hmark : withoutMark (rows.flatMap line) = rows.flatMap line := by
    rw [withoutMark, if_neg]
    intro hfirst
    have hascii := (mem_flatMap_line hplain (List.mem_of_head? hfirst)).1
    exact absurd hascii (by decide)
  have htrim : ∀ row ∈ rows, row.map Text.trim = row := fun row hrow =>
    (List.map_congr_left fun field hfield => ((hplain row hrow).2 field hfield).trim_eq).trans
      row.map_id
  rw [hcsv.write_lines hrows,
    hcsv.records_ofText fun hquote => (mem_flatMap_line hplain hquote).2 rfl, hmark,
    rowsOfText_flatMap_line hplain]
  exact List.map_congr_left fun row hrow => congrArg Except.ok (htrim row hrow)

/-- A file without records has none. -/
theorem records_write_nil (hcsv : csv.Documented) : csv.records (csv.write []) = [].map .ok := by
  rw [hcsv.write_lines (n := 0) fun row hrow => absurd hrow List.not_mem_nil]
  exact hcsv.records_ofText List.not_mem_nil

/-- An empty record reads back as a record with one empty field. -/
theorem records_write_empty (hcsv : csv.Documented) :
    csv.records (csv.write [[]]) = [.ok [[]]] := by
  rw [hcsv.write_lines (n := 0)]
  · exact hcsv.records_quotes
  · rintro row hrow
    rw [List.mem_singleton.mp hrow]
    exact ⟨rfl, fun field hfield => absurd hfield List.not_mem_nil⟩

end Library.Documented

end Library

section Reading

variable {α β ε : Type} {f : α → Except ε β}

/-- A list is read as the list of what its elements are read as. -/
theorem mapM_eq_ok {xs : List α} {ys : List β} :
    xs.mapM f = .ok ys ↔ List.Forall₂ (fun x y => f x = .ok y) xs ys := by
  induction xs generalizing ys with
  | nil =>
    rw [List.forall₂_nil_left_iff]
    exact ⟨fun h => (Except.ok.inj h).symm, fun h => h ▸ rfl⟩
  | cons x xs ih =>
    rw [List.mapM_cons, List.forall₂_cons_left_iff]
    simp only [← ih]
    cases f x <;> cases xs.mapM f <;> simp [bind, Except.bind, pure, Except.pure, eq_comm]

/-- Reading a list fails with the reason of an element that cannot be read. -/
theorem mapM_eq_error {xs : List α} (h : ∃ x ∈ xs, ∀ y, f x ≠ .ok y) :
    ∃ x ∈ xs, ∃ reason, f x = .error reason ∧ xs.mapM f = .error reason := by
  induction xs with
  | nil => simp at h
  | cons x xs ih =>
    rw [List.mapM_cons]
    cases hx : f x with
    | error reason => exact ⟨x, List.mem_cons_self, reason, hx, rfl⟩
    | ok y =>
      have hrest : ∃ z ∈ xs, ∀ y, f z ≠ .ok y := by
        obtain ⟨z, hz, hbad⟩ := h
        rcases List.mem_cons.mp hz with rfl | hz
        · exact absurd hx (hbad y)
        · exact ⟨z, hz, hbad⟩
      obtain ⟨z, hz, reason, hreason, hall⟩ := ih hrest
      exact ⟨z, List.mem_cons_of_mem x hz, reason, hreason, by rw [hall]; rfl⟩

end Reading

end Csv

end SchurForm
