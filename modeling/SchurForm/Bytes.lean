/-!
# Bytes

Files are lists of bytes. Numbers are stored with their least significant byte first. Text is UTF-8,
and decoding tells how many bytes of a malformed text are well formed.
-/

namespace SchurForm

/-- The content of a file. -/
abbrev Bytes := List UInt8

namespace Bytes

/-- ASCII characters as bytes. -/
def ofAscii (cs : List Char) : Bytes :=
  cs.map fun c => UInt8.ofNat c.toNat

/-- The bytes of a text. -/
def ofText (cs : List Char) : Bytes :=
  cs.flatMap String.utf8EncodeChar

/-- The empty text has no bytes. -/
@[simp] theorem ofText_nil : ofText [] = [] :=
  rfl

/-- The bytes of the first character come first. -/
@[simp] theorem ofText_cons (c : Char) (cs : List Char) :
    ofText (c :: cs) = String.utf8EncodeChar c ++ ofText cs :=
  rfl

/-- The bytes of two texts in a row. -/
@[simp] theorem ofText_append (cs ds : List Char) : ofText (cs ++ ds) = ofText cs ++ ofText ds :=
  List.flatMap_append

/-- The lowest bytes of a number, least significant first. -/
def littleEndian : Nat → Nat → Bytes
  | 0, _ => []
  | width + 1, n => UInt8.ofNat (n % 256) :: littleEndian width (n / 256)

/-- The number whose bytes are given, least significant first. -/
def ofLittleEndian : Bytes → Nat
  | [] => 0
  | b :: rest => b.toNat + 256 * ofLittleEndian rest

/-- The first `count` bytes and the rest, if there are that many. -/
def split? (count : Nat) (bytes : Bytes) : Option (Bytes × Bytes) :=
  if count ≤ bytes.length then some (bytes.splitAt count) else none

/-- How many bytes the character has that starts with the given byte, and the bits of its code that
the byte holds. -/
def lead? (b : UInt8) : Option (Nat × Nat) :=
  let n := b.toNat
  if n < 0x80 then some (1, n)
  else if n < 0xC0 then none
  else if n < 0xE0 then some (2, n - 0xC0)
  else if n < 0xF0 then some (3, n - 0xE0)
  else if n < 0xF8 then some (4, n - 0xF0)
  else none

/-- A byte inside a character of several bytes. -/
def isContinuation (b : UInt8) : Bool :=
  b.toNat / 64 == 2

/-- The least code that needs the given number of bytes. -/
def leastCode : Nat → Nat
  | 2 => 0x80
  | 3 => 0x800
  | 4 => 0x10000
  | _ => 0

/-- The first character of a UTF-8 text and the bytes behind it. -/
def nextChar? : Bytes → Option (Char × Bytes)
  | [] => none
  | b :: rest =>
    match lead? b with
    | none => none
    | some (width, high) =>
      let tail := rest.take (width - 1)
      let code := tail.foldl (fun code c => 64 * code + c.toNat % 64) high
      if tail.length = width - 1 ∧ tail.all isContinuation ∧ leastCode width ≤ code ∧
          code.isValidChar then
        some (Char.ofNat code, rest.drop (width - 1))
      else none

/-- The characters at the start of a text, at most `fuel` of them, and the bytes behind them. -/
def chars : Nat → Bytes → List Char × Bytes
  | 0, bytes => ([], bytes)
  | fuel + 1, bytes =>
    match nextChar? bytes with
    | none => ([], bytes)
    | some (c, rest) =>
      let more := chars fuel rest
      (c :: more.1, more.2)

/-- The characters of a UTF-8 text, or the number of well-formed bytes at its start. -/
def decodeText (bytes : Bytes) : Except Nat (List Char) :=
  let (cs, rest) := chars bytes.length bytes
  if rest.isEmpty then .ok cs else .error (bytes.length - rest.length)

end Bytes

end SchurForm
