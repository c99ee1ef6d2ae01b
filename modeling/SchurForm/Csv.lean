import SchurForm.Bytes
import SchurForm.Decimal.Reader
import SchurForm.Text.Blank

/-!
# Comma-separated records

A file of comma-separated records has no header. A record is a line of fields; blank lines are no
records. A field that begins with a quote runs to the next single quote, two quotes in a row
standing for one. Whatever follows the closing quote is taken as it stands. A record without fields
is written as a quoted empty field, so that its line is not blank.
-/

namespace SchurForm

namespace Csv

/-- Where a record begins: the records before it, the line it is looked for in, and the bytes in
front of it. -/
structure Position where
  record : Nat
  line : Nat
  byte : Nat
  deriving DecidableEq, Repr

/-- A record with its fields as they stand in the file, quotes removed. -/
structure Record where
  position : Position
  fields : List Bytes
  deriving DecidableEq, Repr

/-- Why a file of records cannot be read. -/
inductive Fault where
  /-- A record has another number of fields than the records before it. -/
  | unequalLengths (position : Position) (expected length : Nat)
  /-- A field is no number. -/
  | badNumber (position : Position) (field : Nat) (reason : Decimal.ReadError)
  /-- A field is no text; its first `index` bytes are. -/
  | notText (position : Position) (field index : Nat)
  deriving DecidableEq, Repr

/-- A position as it is written in messages. -/
def Position.text (p : Position) : String :=
  s!"record {p.record} (line: {p.line}, byte: {p.byte})"

/-- The wording of a fault. -/
def Fault.message : Fault → String
  | .unequalLengths p expected length =>
    "CSV error: " ++ p.text ++
      s!": found record with {length} fields, but the previous record has {expected} fields"
  | .badNumber p field reason =>
    "CSV deserialize error: " ++ p.text ++ s!": field {field}: " ++ reason.message
  | .notText p field index =>
    s!"CSV parse error: record {p.record} (line {p.line}, field: {field}, byte: {p.byte}): " ++
      s!"invalid utf-8: invalid UTF-8 in field {field} near byte index {index}"

/-- One line of a file. Fields are numbers and flags, which need no quotes. -/
def line (fields : List (List Char)) : List Char :=
  let content := [','].intercalate fields
  (if content.isEmpty then ['"', '"'] else content) ++ ['\n']

/-- A file with the given records. -/
def write (records : List (List (List Char))) : Bytes :=
  Bytes.ofText (records.flatMap line)

end Csv

end SchurForm
