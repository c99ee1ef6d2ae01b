import SchurForm.Bytes

/-!
# A library for comma-separated records

Files of records are read and written through a library: it knows how records are split into fields,
when a field needs quotes and how a number is spelled. `Library` is what the program asks of it. The
program does not depend on which library answers, and neither does what is proved about its files:
that only needs the behaviour a library documents.
-/

namespace SchurForm

namespace Csv

/-- A library that reads and writes files of records. Whatever is wrong with a record is told in a
message. -/
structure Library where
  /-- The text of a number. -/
  numberText : Float → List Char
  /-- The text of a byte. -/
  byteText : UInt8 → List Char
  /-- A file with the given records, all of the same length. -/
  write : List (List (List Char)) → Bytes
  /-- The records of a file, of any lengths, without white space around their fields. -/
  records : Bytes → List (Except String (List (List Char)))
  /-- The records of a file, all of the same length, as lists of numbers. -/
  rows : Bytes → List (Except String (List Float))

end Csv

end SchurForm
