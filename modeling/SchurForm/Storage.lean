import SchurForm.FormError
import SchurForm.Mat

/-!
# Column-major storage

Callers with flat storage hand over columns one after the other, column `j` starting at offset
`j * ld` with a leading dimension `ld`. A view reads such storage as a matrix; storing a matrix
changes the positions of the view and no others. All bounds are checked here.

Lengths are machine words. The number of entries that a matrix needs is counted modulo the number of
words, so with a huge leading dimension the count can come out small; the view is then refused,
since its columns leave the storage.
-/

namespace SchurForm

namespace Storage

variable {α : Type}

/-- The number of machine words. -/
def wordCount : Nat := twoPow 64

/-- The number of entries from the first to the last one of a matrix with the given leading
dimension. -/
def span (rows cols ld : Nat) : Nat :=
  if rows = 0 ∨ cols = 0 then 0 else ld * (cols - 1) + rows

/-- The number of entries that a matrix with the given leading dimension is counted to need: its
span as a machine word, which wraps around. -/
def extent (rows cols ld : Nat) : Nat :=
  span rows cols ld % wordCount

/-- A leading dimension is at least one and at least the number of rows. -/
def requireLeadingDimension (rows ld position : Nat) (name : String) :
    Except (FormError α) Unit :=
  if ld < max rows 1 then
    .error (.invalidArgument position name (.leadingDimension ld rows))
  else .ok ()

/-- Storage is long enough for a matrix. -/
def requireStorage (length rows cols ld position : Nat) (name : String) :
    Except (FormError α) Unit :=
  let needed := extent rows cols ld
  if length < needed then
    .error (.invalidArgument position name (.storageTooShort rows cols ld needed length))
  else .ok ()

/-- An array has an entry for every position. -/
def requireLength (length n position : Nat) (name : String) : Except (FormError α) Unit :=
  if length < n then
    .error (.invalidArgument position name (.arrayTooShort n length))
  else .ok ()

/-- The largest number of entries, or of bytes, that a view can span. -/
def addressLimit : Nat := twoPow 63 - 1

/-- The distance between the starts of two columns. -/
def stride (ld : Nat) : Nat := max ld 1

/-- How far it is from a column to the next one. Distances are signed words, so one in the upper
half of the words leads backwards. -/
def stepSize (ld : Nat) : Nat :=
  if addressLimit < stride ld ∧ stride ld < wordCount then wordCount - stride ld else stride ld

/-- The largest distance from the start that walking along both dimensions can reach. -/
def largestOffset (rows cols ld : Nat) : Nat :=
  (rows - 1) + (cols - 1) * stepSize ld

/-- Why there is no view of the given size over the required storage. Views that are written to must
not have two entries in one position. Storage that holds more than can be addressed does not
exist. -/
def viewFault? (rows cols ld : Nat) (writable : Bool) : Option ShapeFault :=
  let count := max rows 1 * max cols 1
  let offset := largestOffset rows cols ld
  let length := extent rows cols ld
  if addressLimit < count ∨ addressLimit < 8 * offset then some .tooLarge
  else if rows = 0 ∨ cols = 0 then
    if length < offset then some .outOfBounds else none
  else if length ≤ offset ∨ addressLimit < 8 * length then some .outOfBounds
  else if writable ∧ 1 < rows ∧ 1 < cols ∧ stepSize ld < rows then some .overlapping
  else none

/-- Check that storage holds a view of the given size. -/
def requireView (length rows cols ld position : Nat) (name : String) (writable : Bool) :
    Except (FormError α) Unit := do
  requireStorage length rows cols ld position name
  match viewFault? rows cols ld writable with
  | some fault => .error (.shape fault)
  | none => .ok ()

/-- The matrix that storage holds. -/
def load [Zero α] (data : Array α) (ld rows cols : Nat) : Mat rows cols α :=
  Mat.ofFn fun i j => data.getD (j * stride ld + i) 0

/-- The column of the view that a position can belong to. -/
def columnOf (cols ld offset : Nat) : Nat :=
  min (offset / stride ld) (cols - 1)

/-- Storage with the positions of a view replaced by the entries of a matrix. -/
def store [Zero α] {rows cols : Nat} (data : Array α) (ld : Nat) (a : Mat rows cols α) : Array α :=
  data.mapIdx fun offset old =>
    let j := columnOf cols ld offset
    let i := offset - j * stride ld
    if 0 < cols ∧ i < rows then a.get i j else old

/-- An array with its first entries replaced by those of a vector. -/
def storeFront [Zero α] {n : Nat} (data : Array α) (v : Vec n α) : Array α :=
  data.mapIdx fun i old => if i < n then v.get i else old

/-- Flags with the first ones replaced. -/
def storeFlags (data : Array Bool) (flags : List Bool) : Array Bool :=
  data.mapIdx fun i old => flags.getD i old

end Storage

end SchurForm
