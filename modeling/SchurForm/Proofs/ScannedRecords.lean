import SchurForm.Proofs.DocumentedRecords
import SchurForm.Proofs.EncodedText
import SchurForm.Proofs.WrittenNumbers

/-!
# The records of a text

Without quotes, the scan of a file does what its format says: the text is split at line ends, empty
lines are dropped, and each line is split at commas. The invariant of the scan is that what it has
read of the current line, followed by anything, splits into the finished fields and what follows the
open one. So the library that the program runs with behaves as documented.
-/

namespace SchurForm

namespace Csv

/-- The rows of fields in some bytes without quotes. -/
def rowsOfBytes (bytes : Bytes) : List (List Bytes) :=
  ((bytes.splitOnP isLineEnd).filter fun line => !line.isEmpty).map fun line =>
    line.splitOn comma

namespace Scan

/-- Outside quotes, a scan has finished some rows and read some bytes of a line, last byte first. -/
structure Stands (s : Scan) (rows : List (List Bytes)) (line : Bytes) : Prop where
  rows : s.records.reverse.map Record.fields = rows
  place : if line = [] then s.place = .beforeRecord else s.place = .beforeField ∨ s.place = .inField
  fields : ∀ more, (line.reverse ++ more).splitOn comma =
    s.fields.reverse ++ more.splitOnPPrepend (· == comma) s.field

variable {s : Scan} {rows : List (List Bytes)} {line : Bytes} {b : UInt8}

/-- At the start of a file there are no rows and an empty line. -/
theorem stands_start (skipped : Nat) : (start skipped).Stands [] [] :=
  ⟨rfl, rfl, fun _ => rfl⟩

/-- The fields of the line as far as it has been read. -/
theorem Stands.splitOn_line (h : s.Stands rows line) :
    (s.field.reverse :: s.fields).reverse = line.reverse.splitOn comma := by
  have hline := h.fields []
  rw [List.append_nil, List.splitOnPPrepend_nil] at hline
  rw [hline, List.reverse_cons]

/-- Counting a byte keeps rows and line. -/
theorem Stands.advance (h : s.Stands rows line) (b : UInt8) : (s.advance b).Stands rows line :=
  ⟨h.rows, h.place, h.fields⟩

/-- The finished line is a new row. -/
theorem Stands.endRecord (h : s.Stands rows line) :
    s.endRecord.Stands (rows ++ [line.reverse.splitOn comma]) [] := by
  refine ⟨?_, rfl, fun _ => rfl⟩
  rw [Scan.endRecord, List.reverse_cons, List.map_append, h.rows, ← h.splitOn_line]
  rfl

/-- A byte that ends no record is read into the line. -/
theorem Stands.plain (h : s.Stands rows line) (hb : isLineEnd b = false) :
    (s.plain b).Stands rows (b :: line) := by
  have hmore : ∀ more, ((b :: line).reverse ++ more).splitOn comma =
      s.fields.reverse ++ (b :: more).splitOnPPrepend (· == comma) s.field := fun more => by
    rw [← h.fields, List.reverse_cons, List.append_assoc, List.singleton_append]
  rw [Scan.plain]
  by_cases hcomma : b = comma
  · rw [if_pos hcomma]
    refine ⟨h.rows, .inl rfl, fun more => ?_⟩
    rw [hmore, List.splitOnPPrepend_cons_pos (by simp [hcomma]), endField, List.reverse_cons,
      List.append_assoc]
    rfl
  · rw [if_neg hcomma, if_neg (by simp [hb])]
    refine ⟨h.rows, .inr rfl, fun more => ?_⟩
    rw [hmore, List.splitOnPPrepend_cons_neg (by simp [hcomma])]
    rfl

/-- Blank lines are passed over. -/
theorem step_of_blank (hplace : s.place = .beforeRecord) (hb : isLineEnd b = true) :
    s.step b = s.advance b := by
  have hadvance : (s.advance b).place = .beforeRecord := hplace
  simp only [Scan.step, hadvance, hb, if_true]

/-- Without quotes, every other byte is a plain one. -/
theorem step_of_plain (hb : b ≠ quote)
    (hplace : s.place = .beforeRecord ∧ isLineEnd b = false ∨
      s.place = .beforeField ∨ s.place = .inField) :
    s.step b = (s.advance b).plain b := by
  have hadvance : (s.advance b).place = s.place := rfl
  rcases hplace with ⟨h, hend⟩ | h | h
  · simp only [Scan.step, hadvance, h, hend, Scan.first, if_neg hb]
    rfl
  · simp only [Scan.step, hadvance, h, Scan.first, if_neg hb]
  · simp only [Scan.step, hadvance, h]

/-- A byte that ends no record is read into the line. -/
theorem Stands.step (h : s.Stands rows line) (hb : b ≠ quote) (hend : isLineEnd b = false) :
    (s.step b).Stands rows (b :: line) := by
  have hplace := h.place
  rw [step_of_plain hb]
  · exact (h.advance b).plain hend
  · split_ifs at hplace
    · exact .inl ⟨hplace, hend⟩
    · exact .inr hplace

/-- A line end finishes the line if something of it was read. -/
theorem Stands.step_lineEnd (h : s.Stands rows line) (hend : isLineEnd b = true) :
    (s.step b).Stands (if line = [] then rows else rows ++ [line.reverse.splitOn comma]) [] := by
  have hplace := h.place
  by_cases hline : line = []
  · rw [if_pos hline] at hplace ⊢
    rw [step_of_blank hplace hend]
    exact hline ▸ h.advance b
  · rw [if_neg hline] at hplace ⊢
    have hquote : b ≠ quote := fun heq => absurd hend (heq ▸ by decide)
    have hcomma : b ≠ comma := fun heq => absurd hend (heq ▸ by decide)
    rw [step_of_plain hquote (.inr hplace), Scan.plain, if_neg hcomma, if_pos hend]
    exact (h.advance b).endRecord

/-- At the end of the file the line is a row if something of it was read. -/
theorem Stands.finish (h : s.Stands rows line) :
    s.finish.map Record.fields =
      if line = [] then rows else rows ++ [line.reverse.splitOn comma] := by
  have hplace := h.place
  by_cases hline : line = []
  · rw [if_pos hline] at hplace ⊢
    simp only [Scan.finish, hplace, h.rows]
  · rw [if_neg hline] at hplace ⊢
    have hended := h.endRecord.rows
    rcases hplace with hplace | hplace <;> simp only [Scan.finish, hplace, hended]

/-- The rows that the rest of a file adds. -/
theorem Stands.foldl {bytes : Bytes} (h : s.Stands rows line) (hquotes : quote ∉ bytes) :
    (bytes.foldl Scan.step s).finish.map Record.fields = rows ++
      ((bytes.splitOnPPrepend isLineEnd line).filter fun line => !line.isEmpty).map
        fun line => line.splitOn comma := by
  induction bytes generalizing s rows line with
  | nil =>
    rw [List.foldl_nil, h.finish, List.splitOnPPrepend_nil]
    split_ifs with hline
    · simp [hline]
    · simp [hline]
  | cons b bytes ih =>
    obtain ⟨hb, hrest⟩ : quote ≠ b ∧ quote ∉ bytes := by simpa using hquotes
    rw [List.foldl_cons]
    by_cases hend : isLineEnd b = true
    · rw [ih (h.step_lineEnd hend) hrest, List.splitOnPPrepend_cons_pos hend]
      split_ifs with hline
      · simp [hline]
      · simp [hline]
    · rw [Bool.not_eq_true] at hend
      rw [ih (h.step (Ne.symm hb) hend) hrest, List.splitOnPPrepend_cons_neg hend]

end Scan

/-- Without quotes, the scanner finds the rows of the bytes. -/
theorem map_fields_foldl {bytes : Bytes} (hquotes : quote ∉ bytes) (skipped : Nat) :
    (bytes.foldl Scan.step (.start skipped)).finish.map Record.fields = rowsOfBytes bytes := by
  rw [(Scan.stands_start skipped).foldl hquotes, List.nil_append, List.splitOnPPrepend_nil_right]
  rfl

section Texts

/-- Testing for the byte of an ASCII character is testing for the character. -/
theorem asciiMark_beq {d : Char} (hd : d.toNat < 0x80) :
    Bytes.asciiMark (· == UInt8.ofNat d.toNat) = (· == d) := by
  funext c
  rw [Bytes.asciiMark, Bool.eq_iff_iff, Bool.and_eq_true, decide_eq_true_eq, beq_iff_eq, beq_iff_eq]
  constructor
  · rintro ⟨hc, hbytes⟩
    have hcodes := congrArg UInt8.toNat hbytes
    rw [UInt8.toNat_ofNat_of_lt' (hc.trans (by decide)),
      UInt8.toNat_ofNat_of_lt' (hd.trans (by decide))] at hcodes
    exact Char.toNat_inj.mp hcodes
  · rintro rfl
    exact ⟨hd, rfl⟩

/-- A test for one of two kinds of bytes is a test for one of two kinds of characters. -/
theorem asciiMark_or (q r : UInt8 → Bool) :
    Bytes.asciiMark (fun b => q b || r b) =
      fun c => Bytes.asciiMark q c || Bytes.asciiMark r c := by
  funext c
  exact Bool.and_or_distrib_left _ _ _

/-- The bytes that end a line are the characters that do. -/
theorem asciiMark_isLineEnd : Bytes.asciiMark isLineEnd = isBreak := by
  change Bytes.asciiMark (fun b => b == UInt8.ofNat '\n'.toNat || b == UInt8.ofNat '\r'.toNat) = _
  rw [asciiMark_or, asciiMark_beq (by decide), asciiMark_beq (by decide)]
  rfl

/-- Only an ASCII character has its byte. -/
theorem asciiOnly_beq {d : UInt8} (hd : d.toNat < 0x80) : Bytes.AsciiOnly (· == d) := by
  intro b hb
  rw [beq_eq_false_iff_ne]
  rintro rfl
  exact absurd hb (Nat.not_le.mpr hd)

/-- Only ASCII characters end a line. -/
theorem asciiOnly_isLineEnd : Bytes.AsciiOnly isLineEnd := fun b hb =>
  Bool.or_eq_false_iff.mpr
    ⟨asciiOnly_beq (by decide : lineFeed.toNat < 0x80) b hb,
      asciiOnly_beq (by decide : carriageReturn.toNat < 0x80) b hb⟩

/-- The rows of the bytes of a text are the bytes of its rows. -/
theorem rowsOfBytes_ofText (text : List Char) :
    rowsOfBytes (Bytes.ofText text) = (rowsOfText text).map fun row => row.map Bytes.ofText := by
  have hempty : ((fun line : Bytes => !line.isEmpty) ∘ Bytes.ofText) =
      fun line => !line.isEmpty := by
    funext line
    cases line with
    | nil => rfl
    | cons c line => simp
  have hfields : (fun line : Bytes => line.splitOn comma) ∘ Bytes.ofText =
      (fun row => row.map Bytes.ofText) ∘ fun line => line.splitOn ',' := by
    funext line
    have hmark : Bytes.asciiMark (· == comma) = (· == ',') :=
      asciiMark_beq (by decide : ','.toNat < 0x80)
    rw [Function.comp_apply, Function.comp_apply, List.splitOn_eq_splitOnP,
      Bytes.splitOnP_ofText (asciiOnly_beq (by decide)), hmark, List.splitOn_eq_splitOnP]
  rw [rowsOfBytes, rowsOfText, Bytes.splitOnP_ofText asciiOnly_isLineEnd, asciiMark_isLineEnd,
    List.filter_map, hempty, List.map_map, hfields, List.map_map]

/-- A text without quotes has no byte of a quote. -/
theorem quote_not_mem_ofText {text : List Char} (h : '"' ∉ text) : quote ∉ Bytes.ofText text := by
  intro hmem
  obtain ⟨c, hc, hbyte⟩ := List.mem_flatMap.mp hmem
  have hmark : Bytes.asciiMark (· == quote) = (· == '"') :=
    asciiMark_beq (by decide : '"'.toNat < 0x80)
  have hother : Bytes.asciiMark (· == quote) c = false := by
    rw [hmark, beq_eq_false_iff_ne]
    rintro rfl
    exact h hc
  have hbytes := Bytes.utf8EncodeChar_unmarked (asciiOnly_beq (by decide)) hother hbyte
  simp at hbytes

/-- The mark that is skipped is the character at the start of the text. -/
theorem drop_byteOrderMark (text : List Char) :
    (Bytes.ofText text).drop
      (if byteOrderMark.isPrefixOf (Bytes.ofText text) then byteOrderMark.length else 0) =
      Bytes.ofText (withoutMark text) := by
  have hmark : ∀ rest, Bytes.nextChar? (byteOrderMark ++ rest) = some ('\uFEFF', rest) :=
    Bytes.nextChar?_utf8EncodeChar '\uFEFF'
  rw [withoutMark]
  cases text with
  | nil => rfl
  | cons c text =>
    by_cases hc : c = '\uFEFF'
    · subst hc
      rfl
    · have hmarked : ¬byteOrderMark.isPrefixOf (Bytes.ofText (c :: text)) := by
        intro hmarked
        obtain ⟨rest, hrest⟩ := List.isPrefixOf_iff_prefix.mp hmarked
        have hread := Bytes.nextChar?_utf8EncodeChar c (Bytes.ofText text)
        rw [← Bytes.ofText_cons, ← hrest, hmark] at hread
        exact hc (congrArg Prod.fst (Option.some.inj hread)).symm
      rw [if_neg hmarked, if_neg (by simpa using hc), List.drop_zero]

/-- The fields of the records of a text without quotes. -/
theorem map_fields_records {text : List Char} (hquotes : '"' ∉ text) :
    (records (Bytes.ofText text)).map Record.fields =
      (rowsOfText (withoutMark text)).map fun row => row.map Bytes.ofText := by
  have hrest : '"' ∉ withoutMark text := by
    rw [withoutMark]
    split_ifs
    · exact fun h => hquotes (List.mem_of_mem_tail h)
    · exact hquotes
  rw [records, drop_byteOrderMark, map_fields_foldl (quote_not_mem_ofText hrest),
    rowsOfBytes_ofText]

end Texts

/-- A field that holds the bytes of a text is read as this text without white space around it. -/
theorem Record.fieldText_ofText (r : Record) (index : Nat) (field : List Char) :
    r.fieldText index (Bytes.ofText field) = .ok (Text.trim field) := by
  obtain ⟨trimmed, hbytes, htrim⟩ := Text.trimAscii_ofText field
  rw [Record.fieldText, hbytes]
  split_ifs
  · rw [Bytes.decodeText_ofText]
  · rw [Bytes.decodeText_ofText]
    exact congrArg Except.ok htrim

/-- Fields that are texts are read as these texts without white space around them. -/
theorem Record.texts_eq_ok {r : Record} {row : List (List Char)}
    (h : r.fields = row.map Bytes.ofText) : r.texts = .ok (row.map Text.trim) := by
  rw [Record.texts, h]
  refine mapM_eq_ok.mpr (List.forall₂_iff_get.mpr ⟨by simp, fun i hi hi' => ?_⟩)
  simp [Record.fieldText_ofText]

/-- The records of a text without quotes are read as the rows of the text, without white space
around their fields. -/
theorem texts_records {text : List Char} (hquotes : '"' ∉ text) :
    (records (Bytes.ofText text)).map Record.texts =
      (rowsOfText (withoutMark text)).map fun row => .ok (row.map Text.trim) := by
  have hfields : List.Forall₂ Eq ((records (Bytes.ofText text)).map Record.fields)
      ((rowsOfText (withoutMark text)).map fun row => row.map Bytes.ofText) := by
    rw [List.forall₂_eq_eq_eq]
    exact map_fields_records hquotes
  rw [List.forall₂_map_left_iff, List.forall₂_map_right_iff] at hfields
  rw [← List.forall₂_eq_eq_eq, List.forall₂_map_left_iff, List.forall₂_map_right_iff]
  exact hfields.imp fun r row h => Record.texts_eq_ok h

/-- A record has as many texts as fields. -/
theorem Record.length_of_texts {r : Record} {texts : List (List Char)} (h : r.texts = .ok texts) :
    texts.length = r.fields.length := by
  rw [← (mapM_eq_ok.mp h).length_eq, List.length_zipIdx]

/-- A record whose texts spell numbers holds these numbers. -/
theorem Record.row_eq_ok {r : Record} {texts : List (List Char)} {row : List Float}
    (h : r.texts = .ok texts) (hrow : SpellsRow texts row) : r.row row.length = .ok row := by
  have hlength : r.fields.length = row.length := by rw [← r.length_of_texts h, hrow.length_eq]
  rw [Record.row, if_pos hlength, Record.numbers, h]
  refine mapM_eq_ok.mpr (List.forall₂_iff_get.mpr ⟨by simp [hrow.length_eq], fun i hi hi' => ?_⟩)
  rw [List.length_zipIdx] at hi
  have hread : Decimal.read texts[i] = .ok row[i] := (List.forall₂_iff_get.mp hrow).2 i hi hi'
  simp only [List.get_eq_getElem, List.getElem_zipIdx, Record.number, hread]

/-- Records whose texts spell rows of one length hold these rows. -/
theorem forall₂_row {n : Nat} {rs : List Record} {texts : List (List (List Char))}
    {rows : List (List Float)} (htexts : List.Forall₂ (fun r t => r.texts = .ok t) rs texts)
    (hrows : List.Forall₂ SpellsRow texts rows) (hlengths : ∀ row ∈ rows, row.length = n) :
    List.Forall₂ (fun r row => r.fields.length = n ∧ r.row n = .ok row) rs rows := by
  induction htexts generalizing rows with
  | nil =>
    rw [List.forall₂_nil_left_iff] at hrows
    exact hrows ▸ .nil
  | cons hr _ ih =>
    obtain ⟨row, rows, hrow, hrest, rfl⟩ := List.forall₂_cons_left_iff.mp hrows
    have hlength : row.length = n := hlengths row List.mem_cons_self
    refine .cons ⟨?_, hlength ▸ Record.row_eq_ok hr hrow⟩
      (ih hrest fun other hother => hlengths other (List.mem_cons_of_mem row hother))
    rw [← Record.length_of_texts hr, hrow.length_eq, hlength]

/-- A digit needs no quotes. -/
theorem isPlain_of_isDigit {c : Char} (hc : c.isDigit = true) : isPlain c = true := by
  have hrange : 48 ≤ c.toNat ∧ c.toNat ≤ 57 := by
    rw [Char.isDigit, Bool.and_eq_true, decide_eq_true_eq, decide_eq_true_eq] at hc
    exact ⟨UInt32.le_iff_toNat_le.mp hc.1, UInt32.le_iff_toNat_le.mp hc.2⟩
  refine isPlain_iff.mpr ⟨by omega, by omega, ?_, ?_⟩
  all_goals
    rintro rfl
    exact absurd hrange (by decide)

/-- A finite number in any style needs no quotes. -/
theorem plainField_write (style : Decimal.Style) {x : Float} (hx : x.isFinite = true) :
    PlainField (style.write x).toList := by
  obtain ⟨hne, hmarks⟩ := Decimal.marks_write style hx
  refine ⟨hne, fun c hc => ?_⟩
  rcases hmarks c hc with hdigit | rfl | rfl | rfl
  · exact isPlain_of_isDigit hdigit
  all_goals decide

/-- Wording a reason leaves results as they are. -/
theorem mapError_eq_ok {ε ε' β : Type} {f : ε → ε'} {r : Except ε β} {b : β}
    (h : r.mapError f = .ok b) : r = .ok b := by
  cases r with
  | error reason => nomatch h
  | ok b' => exact congrArg Except.ok (Except.ok.inj h)

/-- The library that the program runs with behaves as documented. -/
theorem documented_standard : standard.Documented where
  numberText_plain := plainField_write .table
  read_numberText := Decimal.read_write .table
  byteText_digit h := Nat.toDigits_of_lt_base (UInt8.lt_iff_toNat_lt.mp h)
  write_lines _ := rfl
  records_ofText hquotes := by
    have htexts := congrArg (List.map (Except.mapError Fault.message)) (texts_records hquotes)
    rw [List.map_map, List.map_map] at htexts
    exact htexts
  records_quotes := rfl
  rows_numbers {n content texts rows} htexts hlengths hrows := by
    have hread : List.Forall₂ (fun r row => r.fields.length = n ∧ r.row n = .ok row)
        (records content) rows := by
      refine forall₂_row ?_ hrows hlengths
      change (records content).map (fun r => r.texts.mapError Fault.message) = _ at htexts
      rw [← List.forall₂_eq_eq_eq, List.forall₂_map_left_iff, List.forall₂_map_right_iff] at htexts
      exact htexts.imp fun r t => mapError_eq_ok
    -- the number of fields that is expected is that of the first record
    have hall : (records content).map (fun r => (r.row n).mapError Fault.message) =
        rows.map .ok := by
      rw [← List.forall₂_eq_eq_eq, List.forall₂_map_left_iff, List.forall₂_map_right_iff]
      exact hread.imp fun r row h => by rw [h.2]; rfl
    change (records content).map (fun r =>
      (r.row (((records content).head?.map fun r => r.fields.length).getD 0)).mapError
        Fault.message) = _
    generalize records content = rs at hread hall ⊢
    cases hread with
    | nil => rfl
    | cons hfirst _ =>
      rw [← hfirst.1] at hall
      exact hall

end Csv

end SchurForm
