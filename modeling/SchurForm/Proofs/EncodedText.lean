import Mathlib.Data.List.DropRight
import SchurForm.Csv.Scan

/-!
# Texts as bytes

Every text is read back from its UTF-8 bytes. All bytes of a character that is not ASCII are at
least `0x80`, so whatever looks for ASCII bytes only, splitting at separators and trimming blanks,
does to the bytes of a text what it would do to its characters.
-/

namespace SchurForm

namespace Bytes

section Characters

/-- An ASCII character takes one byte, its code. -/
theorem utf8EncodeChar_ascii {c : Char} (h : c.toNat < 0x80) :
    String.utf8EncodeChar c = [UInt8.ofNat c.toNat] :=
  if_pos (Nat.le_of_lt_succ h)

/-- No byte of a character that is not ASCII is an ASCII byte. -/
theorem le_of_mem_utf8EncodeChar {c : Char} (h : 0x80 ≤ c.toNat) {b : UInt8}
    (hb : b ∈ String.utf8EncodeChar c) : 0x80 ≤ b.toNat := by
  rw [Char.toNat] at h
  simp only [String.utf8EncodeChar] at hb
  split at hb
  · omega
  · split_ifs at hb <;> simp only [List.mem_cons, List.not_mem_nil, or_false] at hb <;>
      rcases hb with rfl | rfl | rfl | rfl <;> rw [UInt8.toNat_ofNat'] <;> omega

/-- Every character takes at least a byte. -/
theorem utf8EncodeChar_ne_nil (c : Char) : String.utf8EncodeChar c ≠ [] := by
  simp only [String.utf8EncodeChar]
  split_ifs <;> simp

/-- A first byte with its continuation bytes reads as the character of their code. -/
theorem nextChar?_eq_some {b : UInt8} {t rest : Bytes} {width high : Nat} {c : Char}
    (hlead : lead? b = some (width, high)) (hlength : t.length = width - 1)
    (htail : t.all isContinuation)
    (hcode : t.foldl (fun code d => 64 * code + d.toNat % 64) high = c.toNat)
    (hleast : leastCode width ≤ c.toNat) : nextChar? (b :: (t ++ rest)) = some (c, rest) := by
  have hvalid : c.toNat.isValidChar := c.valid
  simp [nextChar?, hlead, ← hlength, htail, hcode, hleast, hvalid]

/-- A byte that starts a character, by the bits that tell how many bytes follow. -/
theorem lead?_ofNat {n : Nat} (h : n < 0x100) :
    lead? (UInt8.ofNat n) =
      if n < 0x80 then some (1, n)
      else if n < 0xC0 then none
      else if n < 0xE0 then some (2, n - 0xC0)
      else if n < 0xF0 then some (3, n - 0xE0)
      else if n < 0xF8 then some (4, n - 0xF0)
      else none := by
  rw [lead?, UInt8.toNat_ofNat_of_lt' h]

/-- The six bits that a continuation byte adds to a code. -/
theorem continuation_ofNat {n : Nat} (h : n < 0x40) :
    isContinuation (UInt8.ofNat (n + 0x80)) ∧ (UInt8.ofNat (n + 0x80)).toNat % 64 = n := by
  have hsmall : n + 0x80 < 0x100 := by omega
  have hbyte : (UInt8.ofNat (n + 0x80)).toNat = n + 0x80 := UInt8.toNat_ofNat_of_lt' hsmall
  rw [isContinuation, hbyte]
  refine ⟨?_, by omega⟩
  rw [beq_iff_eq]
  omega

/-- The bytes of a character are read as this character, whatever follows. -/
theorem nextChar?_utf8EncodeChar (c : Char) (rest : Bytes) :
    nextChar? (String.utf8EncodeChar c ++ rest) = some (c, rest) := by
  have hrange : c.toNat < 0x110000 := by
    have hvalid : c.toNat.isValidChar := c.valid
    rw [Nat.isValidChar] at hvalid
    omega
  have hlast := continuation_ofNat (Nat.mod_lt c.toNat (by decide : 0 < 0x40))
  have hmiddle := continuation_ofNat (Nat.mod_lt (c.toNat / 64) (by decide : 0 < 0x40))
  have hhigh := continuation_ofNat (Nat.mod_lt (c.toNat / 4096) (by decide : 0 < 0x40))
  change nextChar? ((if c.toNat ≤ 0x7F then [UInt8.ofNat c.toNat]
    else if c.toNat ≤ 0x7FF then
      [UInt8.ofNat (c.toNat / 64 % 0x20 + 0xC0), UInt8.ofNat (c.toNat % 0x40 + 0x80)]
    else if c.toNat ≤ 0xFFFF then
      [UInt8.ofNat (c.toNat / 4096 % 0x10 + 0xE0), UInt8.ofNat (c.toNat / 64 % 0x40 + 0x80),
        UInt8.ofNat (c.toNat % 0x40 + 0x80)]
    else
      [UInt8.ofNat (c.toNat / 262144 % 0x08 + 0xF0), UInt8.ofNat (c.toNat / 4096 % 0x40 + 0x80),
        UInt8.ofNat (c.toNat / 64 % 0x40 + 0x80), UInt8.ofNat (c.toNat % 0x40 + 0x80)]) ++ rest) = _
  -- one case for each number of bytes
  split_ifs with hone htwo hthree
  · have hlead : lead? (UInt8.ofNat c.toNat) = some (1, c.toNat) := by
      rw [lead?_ofNat (by omega), if_pos (by omega)]
    exact nextChar?_eq_some (t := []) hlead rfl rfl rfl (Nat.zero_le _)
  · have hlead : lead? (UInt8.ofNat (c.toNat / 64 % 0x20 + 0xC0)) = some (2, c.toNat / 64) := by
      rw [lead?_ofNat (by omega), if_neg (by omega), if_neg (by omega), if_pos (by omega)]
      simp only [Option.some.injEq, Prod.mk.injEq, true_and]
      omega
    refine nextChar?_eq_some (t := [_]) hlead rfl
      (by simp only [List.all_cons, List.all_nil, hlast.1, Bool.and_self]) ?_ ?_
    · simp only [List.foldl_cons, List.foldl_nil, hlast.2]
      omega
    · simp only [leastCode]
      omega
  · have hlead : lead? (UInt8.ofNat (c.toNat / 4096 % 0x10 + 0xE0)) = some (3, c.toNat / 4096) := by
      rw [lead?_ofNat (by omega), if_neg (by omega), if_neg (by omega), if_neg (by omega),
        if_pos (by omega)]
      simp only [Option.some.injEq, Prod.mk.injEq, true_and]
      omega
    refine nextChar?_eq_some (t := [_, _]) hlead rfl 
      (by simp only [List.all_cons, List.all_nil, hlast.1, hmiddle.1, Bool.and_self]) ?_ ?_
    · simp only [List.foldl_cons, List.foldl_nil, hlast.2, hmiddle.2]
      omega
    · simp only [leastCode]
      omega
  · have hlead : lead? (UInt8.ofNat (c.toNat / 262144 % 0x08 + 0xF0)) =
        some (4, c.toNat / 262144) := by
      rw [lead?_ofNat (by omega), if_neg (by omega), if_neg (by omega), if_neg (by omega),
        if_neg (by omega), if_pos (by omega)]
      simp only [Option.some.injEq, Prod.mk.injEq, true_and]
      omega
    refine nextChar?_eq_some (t := [_, _, _]) hlead rfl
      (by simp only [List.all_cons, List.all_nil, hlast.1, hmiddle.1, hhigh.1, Bool.and_self]) ?_ ?_
    · simp only [List.foldl_cons, List.foldl_nil, hlast.2, hmiddle.2, hhigh.2]
      omega
    · simp only [leastCode]
      omega

end Characters

/-- The bytes of a text are read as its characters, with nothing left. -/
theorem chars_ofText {fuel : Nat} {cs : List Char} (h : cs.length ≤ fuel) :
    chars fuel (ofText cs) = (cs, []) := by
  induction cs generalizing fuel with
  | nil => cases fuel <;> rfl
  | cons c cs ih =>
    obtain ⟨fuel, rfl⟩ : ∃ k, fuel = k + 1 := Nat.exists_eq_add_one.mpr (Nat.zero_lt_of_lt h)
    rw [ofText_cons, chars, nextChar?_utf8EncodeChar]
    simp only [ih (Nat.le_of_succ_le_succ h)]

/-- A text has no more characters than bytes. -/
theorem length_le_length_ofText (cs : List Char) : cs.length ≤ (ofText cs).length := by
  induction cs with
  | nil => exact le_rfl
  | cons c cs ih =>
    have hfirst := List.length_pos_iff.mpr (utf8EncodeChar_ne_nil c)
    rw [ofText_cons, List.length_append, List.length_cons]
    omega

/-- Every text is read back from its bytes. -/
theorem decodeText_ofText (cs : List Char) : decodeText (ofText cs) = .ok cs := by
  rw [decodeText, chars_ofText (length_le_length_ofText cs)]
  rfl

section Marks

variable {q : UInt8 → Bool} {cs : List Char}

/-- The ASCII characters whose byte is looked for. -/
def asciiMark (q : UInt8 → Bool) (c : Char) : Bool :=
  decide (c.toNat < 0x80) && q (UInt8.ofNat c.toNat)

/-- Only ASCII bytes are looked for. -/
def AsciiOnly (q : UInt8 → Bool) : Prop :=
  ∀ b : UInt8, 0x80 ≤ b.toNat → q b = false

/-- A marked character takes one byte, which is marked. -/
theorem utf8EncodeChar_mark {c : Char} (h : asciiMark q c = true) :
    String.utf8EncodeChar c = [UInt8.ofNat c.toNat] ∧ q (UInt8.ofNat c.toNat) = true := by
  rw [asciiMark, Bool.and_eq_true, decide_eq_true_eq] at h
  exact ⟨utf8EncodeChar_ascii h.1, h.2⟩

/-- The bytes of a character that is not marked are not marked. -/
theorem utf8EncodeChar_unmarked (hq : AsciiOnly q) {c : Char} (h : asciiMark q c = false)
    {b : UInt8} (hb : b ∈ String.utf8EncodeChar c) : q b = false := by
  by_cases hascii : c.toNat < 0x80
  · rw [utf8EncodeChar_ascii hascii, List.mem_singleton] at hb
    rw [hb]
    simpa [asciiMark, hascii] using h
  · exact hq b (le_of_mem_utf8EncodeChar (Nat.not_lt.mp hascii) hb)

/-- Bytes that are not looked for stay in front of the first piece. -/
theorem splitOnP_append_of_forall {α : Type} {p : α → Bool} {xs ys : List α}
    (h : ∀ x ∈ xs, p x = false) :
    (xs ++ ys).splitOnP p = (ys.splitOnP p).modifyHead (xs ++ ·) := by
  induction xs with
  | nil =>
    rw [List.nil_append]
    cases ys.splitOnP p <;> rfl
  | cons x xs ih =>
    rw [List.cons_append, List.splitOnP_cons_eq_if_modifyHead,
      if_neg (by simp [h x List.mem_cons_self]), ih fun y hy => h y (List.mem_cons_of_mem x hy),
      List.modifyHead_modifyHead]
    rfl

/-- Splitting the bytes of a text at ASCII bytes splits the text at their characters. -/
theorem splitOnP_ofText (hq : AsciiOnly q) (cs : List Char) :
    (ofText cs).splitOnP q = (cs.splitOnP (asciiMark q)).map ofText := by
  induction cs with
  | nil => rfl
  | cons c cs ih =>
    rw [ofText_cons, List.splitOnP_cons_eq_if_modifyHead]
    by_cases hc : asciiMark q c = true
    · obtain ⟨hbytes, hbyte⟩ := utf8EncodeChar_mark hc
      rw [hbytes, List.singleton_append, List.splitOnP_cons_eq_if_modifyHead, if_pos hbyte,
        if_pos hc, ih]
      rfl
    · rw [splitOnP_append_of_forall fun b hb =>
        utf8EncodeChar_unmarked hq (Bool.eq_false_iff.mpr hc) hb, if_neg hc, ih]
      cases hpieces : cs.splitOnP (asciiMark q) with
      | nil => exact absurd hpieces (List.splitOnP_ne_nil _ cs)
      | cons piece pieces => rfl

/-- Dropping marked bytes at the start drops marked characters. -/
theorem dropWhile_ofText (hq : AsciiOnly q) (cs : List Char) :
    (ofText cs).dropWhile q = ofText (cs.dropWhile (asciiMark q)) := by
  induction cs with
  | nil => rfl
  | cons c cs ih =>
    by_cases hc : asciiMark q c = true
    · obtain ⟨hbytes, hbyte⟩ := utf8EncodeChar_mark hc
      rw [ofText_cons, hbytes, List.singleton_append, List.dropWhile_cons_of_pos hbyte,
        List.dropWhile_cons_of_pos hc, ih]
    · rw [List.dropWhile_cons_of_neg hc, ofText_cons]
      obtain ⟨b, bytes, hbytes⟩ := List.exists_cons_of_ne_nil (utf8EncodeChar_ne_nil c)
      have hb := utf8EncodeChar_unmarked hq (Bool.eq_false_iff.mpr hc)
        (hbytes ▸ List.mem_cons_self : b ∈ String.utf8EncodeChar c)
      rw [hbytes, List.cons_append, List.dropWhile_cons_of_neg (by simp [hb])]

/-- Dropping marked bytes at the end drops marked characters. -/
theorem rdropWhile_ofText (hq : AsciiOnly q) (cs : List Char) :
    (ofText cs).rdropWhile q = ofText (cs.rdropWhile (asciiMark q)) := by
  induction cs using List.reverseRecOn with
  | nil => rfl
  | append_singleton cs c ih =>
    by_cases hc : asciiMark q c = true
    · obtain ⟨hbytes, hbyte⟩ := utf8EncodeChar_mark hc
      rw [ofText_append, ofText_cons, ofText_nil, List.append_nil, hbytes,
        List.rdropWhile_concat_pos q _ _ hbyte, List.rdropWhile_concat_pos _ _ _ hc, ih]
    · rw [List.rdropWhile_concat_neg _ _ _ hc, ofText_append, ofText_cons, ofText_nil,
        List.append_nil]
      obtain ⟨bytes, b, hbytes⟩ := List.eq_nil_or_concat' (String.utf8EncodeChar c) |>.resolve_left
        (utf8EncodeChar_ne_nil c)
      have hb := utf8EncodeChar_unmarked hq (Bool.eq_false_iff.mpr hc)
        (hbytes ▸ List.mem_append_right bytes List.mem_cons_self : b ∈ String.utf8EncodeChar c)
      rw [hbytes, ← List.append_assoc, List.rdropWhile_concat_neg _ _ _ (by simp [hb])]

end Marks

end Bytes

namespace Text

/-- Trimming is dropping blanks on both sides. -/
theorem trim_eq (cs : List Char) : trim cs = (cs.dropWhile isBlank).rdropWhile isBlank :=
  rfl

section Trimming

variable {α : Type} {p q : α → Bool}

/-- Dropping more in front and less behind can be done in either order. -/
theorem dropWhile_rdropWhile (h : ∀ x, p x = true → q x = true) (xs : List α) :
    (xs.rdropWhile p).dropWhile q = (xs.dropWhile q).rdropWhile p := by
  induction xs using List.reverseRecOn with
  | nil => rfl
  | append_singleton xs x ih =>
    rw [List.dropWhile_append]
    by_cases hx : p x = true
    · rw [List.rdropWhile_concat_pos p _ _ hx, ih]
      split_ifs with hempty
      · rw [List.isEmpty_iff.mp hempty, List.dropWhile_cons_of_pos (h x hx)]
        rfl
      · rw [List.rdropWhile_concat_pos p _ _ hx]
    · rw [List.rdropWhile_concat_neg p _ _ hx, List.dropWhile_append]
      split_ifs
      · by_cases hdrop : q x = true
        · rw [List.dropWhile_cons_of_pos hdrop]
          rfl
        · rw [List.dropWhile_cons_of_neg hdrop]
          exact (List.rdropWhile_concat_neg p [] x hx).symm
      · rw [List.rdropWhile_concat_neg p _ _ hx]

/-- What a weaker test drops, it drops also after a stronger one. -/
theorem dropWhile_dropWhile (h : ∀ x, p x = true → q x = true) (xs : List α) :
    (xs.dropWhile p).dropWhile q = xs.dropWhile q := by
  induction xs with
  | nil => rfl
  | cons x xs ih =>
    by_cases hx : p x = true
    · rw [List.dropWhile_cons_of_pos hx, List.dropWhile_cons_of_pos (h x hx), ih]
    · rw [List.dropWhile_cons_of_neg hx]

/-- The same at the end of a list. -/
theorem rdropWhile_rdropWhile (h : ∀ x, p x = true → q x = true) (xs : List α) :
    (xs.rdropWhile p).rdropWhile q = xs.rdropWhile q := by
  rw [List.rdropWhile, List.rdropWhile, List.reverse_reverse, dropWhile_dropWhile h]
  rfl

end Trimming

/-- Blanks in the sense of ASCII are white space. -/
theorem isBlank_of_asciiBlank {c : Char} (h : Bytes.asciiMark Csv.isAsciiBlank c = true) :
    isBlank c = true := by
  obtain ⟨hascii, hblank⟩ : c.toNat < 0x80 ∧ Csv.isAsciiBlank (UInt8.ofNat c.toNat) = true := by
    simpa [Bytes.asciiMark] using h
  have hcodes : ∀ n < 0x80, Csv.isAsciiBlank (UInt8.ofNat n) = true →
      blankRanges.any (fun r => decide (r.1 ≤ n) && decide (n ≤ r.2)) = true := by
    decide
  exact hcodes c.toNat hascii hblank

/-- The blanks that are trimmed as bytes are ASCII characters. -/
theorem asciiOnly_isAsciiBlank : Bytes.AsciiOnly Csv.isAsciiBlank := by
  intro b hb
  simp only [Csv.isAsciiBlank, Bool.or_eq_false_iff, beq_eq_false_iff_ne, ne_eq]
  refine ⟨⟨⟨⟨?_, ?_⟩, ?_⟩, ?_⟩, ?_⟩ <;> rintro rfl <;> exact absurd hb (by decide)

/-- Trimming the bytes of a field of ASCII blanks makes no difference to the trimmed text. -/
theorem trimAscii_ofText (cs : List Char) :
    ∃ ds, Csv.trimAscii (Bytes.ofText cs) = Bytes.ofText ds ∧ trim ds = trim cs := by
  let mark := Bytes.asciiMark Csv.isAsciiBlank
  refine ⟨(cs.dropWhile mark).rdropWhile mark, ?_, ?_⟩
  · change ((Bytes.ofText cs).dropWhile Csv.isAsciiBlank).rdropWhile Csv.isAsciiBlank = _
    rw [Bytes.dropWhile_ofText asciiOnly_isAsciiBlank,
      Bytes.rdropWhile_ofText asciiOnly_isAsciiBlank]
  · have hmark : ∀ c, mark c = true → isBlank c = true := fun c => isBlank_of_asciiBlank
    rw [trim_eq, trim_eq, dropWhile_rdropWhile hmark, dropWhile_dropWhile hmark,
      rdropWhile_rdropWhile hmark]

end Text

end SchurForm
