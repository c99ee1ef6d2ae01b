import SchurForm.Bytes
import SchurForm.Npy.Literal

/-!
# Headers of array files

An array file starts with a magic number, a version, the length of the header, and the header: a
dictionary with the type of the entries, their order in storage, and the shape, padded with blanks
and ended by a line feed.
-/

namespace SchurForm

namespace Npy

/-- What an array file says about the array that follows. -/
structure Header where
  /-- The type of an entry. -/
  descriptor : Literal
  /-- Whether columns are stored one after the other, rather than rows. -/
  columnMajor : Bool
  shape : List Nat

/-- Why a header cannot be read. -/
inductive HeaderFault where
  | magic
  | version (major minor : Nat)
  | newline
  | notAscii
  /-- The first `index` bytes are text. -/
  | notText (index : Nat)
  /-- The text has no literal behind its first `index` characters. -/
  | malformed (text : List Char) (index : Nat)
  | notDictionary (value : Literal)
  | unknownKey (key : Literal)
  | illegalValue (key : String) (value : Literal)
  | missingKey (key : String)

/-- The wording of a fault. -/
def HeaderFault.message : HeaderFault → String
  | .magic => "start does not match magic string"
  | .version major minor => s!"unknown version number: {major}.{minor}"
  | .newline => "newline missing at end of header"
  | .notAscii =>
    "non-ascii in array format string; this is not supported in .npy format versions 1.0 and 2.0"
  | .notText index =>
    "error parsing array format string as UTF-8: invalid utf-8 sequence of 1 bytes from index " ++
      toString index
  | .malformed text index =>
    "error parsing metadata dict: syntax error: " ++ s!" --> 1:{index + 1}\n  |\n1 | " ++
      String.ofList text ++ "\n  | " ++ String.ofList (List.replicate index ' ') ++
      "^---\n  |\n  = expected value"
  | .notDictionary value => "metadata is not a dict: " ++ String.ofList value.render
  | .unknownKey key => "unknown key: " ++ String.ofList key.render
  | .illegalValue key value =>
    "illegal value for key " ++ key ++ ": " ++ String.ofList value.render
  | .missingKey key => "missing key: " ++ key

namespace Header

/-- The bytes that every array file starts with. -/
def magic : Bytes := [0x93, 0x4E, 0x55, 0x4D, 0x50, 0x59]

/-- The shape in a dictionary: a tuple of lengths of at most 64 bits. -/
def readShape (value : Literal) : Except HeaderFault (List Nat) :=
  let length? : Literal → Option Nat
    | .whole (.ofNat n) => if n < twoPow 64 then some n else none
    | _ => none
  match value with
  | .tuple items =>
    match items.mapM length? with
    | some shape => .ok shape
    | none => .error (.illegalValue "shape" value)
  | _ => .error (.illegalValue "shape" value)

/-- The entries of a header that have been read so far. -/
structure Partial where
  descriptor : Option Literal
  columnMajor : Option Bool
  shape : Option (List Nat)

/-- One more entry of the dictionary; a repeated key replaces the earlier entry. -/
def Partial.add (p : Partial) (entry : Literal × Literal) : Except HeaderFault Partial :=
  match entry.1 with
  | .text key =>
    if key = "descr".toList then .ok { p with descriptor := some entry.2 }
    else if key = "fortran_order".toList then
      match entry.2 with
      | .truth b => .ok { p with columnMajor := some b }
      | value => .error (.illegalValue "fortran_order" value)
    else if key = "shape".toList then do
      let shape ← readShape entry.2
      return { p with shape := some shape }
    else .error (.unknownKey entry.1)
  | key => .error (.unknownKey key)

/-- The header that a dictionary stands for. -/
def ofLiteral : Literal → Except HeaderFault Header
  | .dictionary entries => do
    let p ← entries.foldlM Partial.add ⟨none, none, none⟩
    match p.descriptor, p.columnMajor, p.shape with
    | none, _, _ => .error (.missingKey "descr")
    | _, none, _ => .error (.missingKey "fortran_order")
    | _, _, none => .error (.missingKey "shape")
    | some descriptor, some columnMajor, some shape => .ok { descriptor, columnMajor, shape }
  | value => .error (.notDictionary value)

/-- The header in the bytes that are set aside for it. Only from the third version on may it hold
other characters than those of ASCII. -/
def ofBytes (major : Nat) (bytes : Bytes) : Except HeaderFault Header :=
  if bytes.getLast? ≠ some 0x0A then .error .newline
  else
    let content := bytes.dropLast
    if major < 3 ∧ content.any (fun b => 0x80 ≤ b) then .error .notAscii
    else
      match Bytes.decodeText content with
      | .error index => .error (.notText index)
      | .ok text =>
        match Literal.ofText text with
        | .error index => .error (.malformed text index)
        | .ok value => ofLiteral value

/-- The dictionary as it is written. -/
def text (h : Header) : List Char :=
  let order := Literal.truth h.columnMajor
  let shape := Literal.tuple (h.shape.map fun n => .whole (Int.ofNat n))
  (Literal.dictionary [(.text "descr".toList, h.descriptor),
    (.text "fortran_order".toList, order), (.text "shape".toList, shape)]).render

/-- The start of an array file up to the entries, in the first version, which has two bytes for the
length of the header. Its own length is a multiple of 64. -/
def write (h : Header) : Bytes :=
  let used := magic.length + 4 + h.text.length + 1
  let padded := h.text ++ List.replicate ((64 - used % 64) % 64) ' ' ++ ['\n']
  magic ++ [1, 0] ++ Bytes.littleEndian 2 padded.length ++ Bytes.ofAscii padded

end Header

end Npy

end SchurForm
