import SchurForm.Mat
import SchurForm.Npy.Header

/-!
# Array files

An array file holds the entries of an array behind a header. Arrays are written with rows one after
the other and the least significant byte of an entry first. Either order of storage and either order
of bytes is read, as long as the entries are binary64 numbers and the array has two dimensions.
-/

namespace SchurForm

namespace Npy

/-- Why an array file holds no matrix. -/
inductive Fault where
  /-- The file ends within its header. -/
  | truncated
  | header (fault : HeaderFault)
  | lengthOverflow
  | entryType (descriptor : Literal)
  | missingEntries
  | extraBytes (count : Nat)
  | dimensions (count : Nat)

/-- The wording of a fault. -/
def Fault.message : Fault → String
  | .truncated => "I/O error: failed to fill whole buffer"
  | .header fault => "error parsing header: " ++ fault.message
  | .lengthOverflow => "overflow computing length from shape"
  | .entryType descriptor =>
    "incorrect descriptor (" ++ String.ofList descriptor.render ++ ") for this type"
  | .missingEntries => "reached EOF before reading all data"
  | .extraBytes count => s!"file had {count} extra bytes before EOF"
  | .dimensions count =>
    s!"ndim {count} of array did not match Dimension type with NDIM = Some(2)"

/-- The next bytes of a header. -/
def take (count : Nat) (bytes : Bytes) : Except Fault (Bytes × Bytes) :=
  match Bytes.split? count bytes with
  | some parts => .ok parts
  | none => .error .truncated

/-- How many bytes hold the length of the header in a version. -/
def lengthWidth (major minor : Nat) : Except Fault Nat :=
  if minor = 0 ∧ major = 1 then .ok 2
  else if minor = 0 ∧ (major = 2 ∨ major = 3) then .ok 4
  else .error (.header (.version major minor))

/-- The header of a file and the bytes behind it. -/
def readHeader (bytes : Bytes) : Except Fault (Header × Bytes) := do
  let (magic, rest) ← take Header.magic.length bytes
  if magic ≠ Header.magic then throw (.header .magic)
  let (version, rest) ← take 2 rest
  let major := (version.getD 0 0).toNat
  let width ← lengthWidth major (version.getD 1 0).toNat
  let (length, rest) ← take width rest
  let (header, rest) ← take (Bytes.ofLittleEndian length) rest
  match Header.ofBytes major header with
  | .ok h => return (h, rest)
  | .error fault => throw (.header fault)

/-- The number of entries of an array, if the array has an address range for them. -/
def entryCount? (shape : List Nat) : Option Nat := do
  let count ← shape.foldlM (fun n k => if n * k < twoPow 64 then some (n * k) else none) 1
  if 8 * count < twoPow 63 then some count else none

/-- The order of the bytes of an entry: `some true` if the least significant one comes first, and
`none` if the entries are no binary64 numbers. -/
def leastFirst? : Literal → Option Bool
  | .text name =>
    if name = "<f8".toList then some true
    else if name = ">f8".toList then some false
    else none
  | _ => none

/-- The entries in a list of bytes, eight bytes each. -/
def entries (leastFirst : Bool) : Nat → Bytes → List Float
  | 0, _ => []
  | count + 1, bytes =>
    let entry := bytes.take 8
    let bits := Bytes.ofLittleEndian (if leastFirst then entry else entry.reverse)
    Float.ofBits (UInt64.ofNat bits) :: entries leastFirst count (bytes.drop 8)

/-- The matrix in an array file. -/
def read (bytes : Bytes) : Except Fault (Table Float) := do
  let (header, rest) ← readHeader bytes
  let some count := entryCount? header.shape | throw .lengthOverflow
  let some leastFirst := leastFirst? header.descriptor | throw (.entryType header.descriptor)
  if rest.length < 8 * count then throw .missingEntries
  if 8 * count < rest.length then throw (.extraBytes (rest.length - 8 * count))
  match header.shape with
  | [rows, cols] =>
    let data := (entries leastFirst count rest).toArray
    return Table.ofFn rows cols fun i j =>
      data.getD (if header.columnMajor then j * rows + i else i * cols + j) 0
  | shape => throw (.dimensions shape.length)

/-- The bytes of an entry. -/
def entryBytes (x : Float) : Bytes :=
  Bytes.littleEndian 8 x.toBits.toNat

/-- A file with the given entries. -/
def writeArray (shape : List Nat) (xs : List Float) : Bytes :=
  (Header.mk (.text "<f8".toList) false shape).write ++ xs.flatMap entryBytes

/-- A file that holds a matrix. -/
def write (t : Table Float) : Bytes :=
  writeArray [t.rows, t.cols] t.mat.toLists.flatten

/-- A file that holds a vector. -/
def writeList (xs : List Float) : Bytes :=
  writeArray [xs.length] xs

end Npy

end SchurForm
