import SchurForm.Csv
import SchurForm.Csv.Library
import SchurForm.Decimal.Style

/-!
# Splitting a file into records

The file is scanned byte by byte. A line feed or a carriage return ends a record, so the line feed
behind a carriage return belongs to the search for the next record, which also passes over blank
lines. A record that the end of the file cuts short counts, even within quotes.
-/

namespace SchurForm

namespace Csv

/-- Where in a record the scan is. -/
inductive Place where
  /-- No byte of the record has been seen. -/
  | beforeRecord
  | beforeField
  | inField
  | inQuotes
  /-- Behind a quote inside quotes: the end of the quoted part or the first of two quotes. -/
  | afterQuote
  deriving DecidableEq, Repr

/-- The state of a scan. Lists are kept with their last element first. -/
structure Scan where
  place : Place
  /-- The bytes of the field that is being read. -/
  field : Bytes
  /-- The finished fields of the record that is being read. -/
  fields : List Bytes
  /-- The finished records. -/
  records : List Record
  /-- Where the search for the record began. -/
  origin : Position
  /-- The next line and byte, and the number of finished records. -/
  here : Position
  deriving Repr

/-- The byte between two fields. -/
def comma : UInt8 := 0x2C

/-- The byte around a field that needs quotes. -/
def quote : UInt8 := 0x22

/-- The byte at the end of a line. -/
def lineFeed : UInt8 := 0x0A

/-- The byte that can stand in place of a line feed or before one. -/
def carriageReturn : UInt8 := 0x0D

/-- A byte that ends a record. -/
def isLineEnd (b : UInt8) : Bool :=
  b == lineFeed || b == carriageReturn

namespace Scan

/-- A scan that has passed over that many bytes and read nothing. -/
def start (skipped : Nat) : Scan :=
  { place := .beforeRecord, field := [], fields := [], records := [], origin := ⟨0, 1, 0⟩
    here := ⟨0, 1, skipped⟩ }

/-- The field is finished. -/
def endField (s : Scan) : Scan :=
  { s with place := .beforeField, field := [], fields := s.field.reverse :: s.fields }

/-- The record is finished, its last field included. -/
def endRecord (s : Scan) : Scan :=
  let next : Position := { s.here with record := s.here.record + 1 }
  { place := .beforeRecord, field := [], fields := []
    records := ⟨s.origin, (s.field.reverse :: s.fields).reverse⟩ :: s.records
    origin := next, here := next }

/-- The byte belongs to the field. -/
def push (s : Scan) (place : Place) (b : UInt8) : Scan :=
  { s with place, field := b :: s.field }

/-- A byte outside quotes that may end the field or the record. -/
def plain (s : Scan) (b : UInt8) : Scan :=
  if b = comma then s.endField
  else if isLineEnd b then s.endRecord
  else s.push .inField b

/-- The first byte of a field. -/
def first (s : Scan) (b : UInt8) : Scan :=
  if b = quote then { s with place := .inQuotes } else s.plain b

/-- The position behind the byte. -/
def advance (s : Scan) (b : UInt8) : Scan :=
  { s with here := { s.here with
      line := if b = lineFeed then s.here.line + 1 else s.here.line
      byte := s.here.byte + 1 } }

/-- Read one byte. -/
def step (s : Scan) (b : UInt8) : Scan :=
  let s := s.advance b
  match s.place with
  | .beforeRecord => if isLineEnd b then s else s.first b
  | .beforeField => s.first b
  | .inField => s.plain b
  | .inQuotes => if b = quote then { s with place := .afterQuote } else s.push .inQuotes b
  | .afterQuote => if b = quote then s.push .inQuotes b else s.plain b

/-- The end of the file. -/
def finish (s : Scan) : List Record :=
  match s.place with
  | .beforeRecord => s.records.reverse
  | _ => s.endRecord.records.reverse

end Scan

/-- The mark that may stand at the start of a text. -/
def byteOrderMark : Bytes := [0xEF, 0xBB, 0xBF]

/-- The records of a file. A byte order mark counts in positions but is not read. -/
def records (bytes : Bytes) : List Record :=
  let skipped := if byteOrderMark.isPrefixOf bytes then byteOrderMark.length else 0
  ((bytes.drop skipped).foldl Scan.step (.start skipped)).finish

/-- Blank in the sense of ASCII. -/
def isAsciiBlank (b : UInt8) : Bool :=
  b == 0x20 || b == 0x09 || b == 0x0A || b == 0x0C || b == 0x0D

/-- A field without ASCII blanks on either side. -/
def trimAscii (field : Bytes) : Bytes :=
  ((field.dropWhile isAsciiBlank).reverse.dropWhile isAsciiBlank).reverse

/-- A field of a record as text without white space on either side. Where a field is no text, the
place of its first bad byte is counted from the start of the field in the first record, and from its
first byte that is not blank in later ones. -/
def Record.fieldText (r : Record) (index : Nat) (field : Bytes) : Except Fault (List Char) :=
  match Bytes.decodeText (if r.position.record = 0 then field else trimAscii field) with
  | .ok cs => .ok (Text.trim cs)
  | .error valid => .error (.notText r.position index valid)

/-- The fields of a record as texts without white space on either side. -/
def Record.texts (r : Record) : Except Fault (List (List Char)) :=
  r.fields.zipIdx.mapM fun f => r.fieldText f.2 f.1

/-- The number in a field. -/
def Record.number (r : Record) (index : Nat) (text : List Char) : Except Fault Float :=
  match Decimal.read text with
  | .ok x => .ok x
  | .error reason => .error (.badNumber r.position index reason)

/-- The fields of a record as numbers. -/
def Record.numbers (r : Record) : Except Fault (List Float) := do
  (← r.texts).zipIdx.mapM fun t => r.number t.2 t.1

/-- The record as numbers, `expected` of them. -/
def Record.row (expected : Nat) (r : Record) : Except Fault (List Float) :=
  if r.fields.length = expected then r.numbers
  else .error (.unequalLengths r.position expected r.fields.length)

/-- The library that the program runs with. A record whose length is not that of the first one has
no row. -/
def standard : Library where
  numberText x := (Decimal.Style.table.write x).toList
  byteText b := Nat.toDigits 10 b.toNat
  write := write
  records bytes := (records bytes).map fun r => r.texts.mapError Fault.message
  rows bytes :=
    let rs := records bytes
    let expected := (rs.head?.map fun r => r.fields.length).getD 0
    rs.map fun r => (r.row expected).mapError Fault.message

end Csv

end SchurForm
