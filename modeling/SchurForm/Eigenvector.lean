import SchurForm.Selection

/-!
# Eigenvector columns

What the eigenvectors of standard forms and of pencils share: the vector found by back-substitution
in the leading rows, its expansion by an orthogonal factor, normalization, and the packing of the
columns of all selected blocks. A block whose vector cannot be computed without underflow keeps zero
columns and is listed as failed; it does not disturb the others.
-/

namespace SchurForm

/-- How an eigenvector is scaled. -/
inductive Normalization where
  /-- The largest sum of the magnitudes of the two parts of a component is one. -/
  | maxAbs
  /-- The Euclidean length is one; for a pair the squares of both parts count. -/
  | euclidean
  deriving DecidableEq, Repr

variable {α : Type} [Scalar α]

open Scalar

/-- A back-substituted vector in the leading rows of a form, with the product of all scale factors
applied on the way. -/
structure LeadingVector (rows : Nat) (α : Type) where
  re : Vec rows α
  im : Vec rows α
  scale : α
  /-- A pivot was lifted to the floor on the way. -/
  perturbed : Bool

/-- Multiply both parts by a number. -/
def LeadingVector.times {rows : Nat} (x : LeadingVector rows α) (factor : α) :
    LeadingVector rows α :=
  { x with re := x.re.map fun v => v * factor, im := x.im.map fun v => v * factor }

/-- The vector is worthless: its scale vanished or an entry is no longer finite. -/
def LeadingVector.isLost {rows : Nat} (x : LeadingVector rows α) : Bool :=
  decide (x.scale < minPositive) || !(x.re.allFinite && x.im.allFinite)

/-- One eigenvector: one column for a real eigenvalue, two for a conjugate pair. -/
inductive Eigenvector (n : Nat) (α : Type) where
  | real (x : Vec n α)
  | complex (re im : Vec n α)

/-- The columns of an eigenvector, real part first. -/
def Eigenvector.columns {n : Nat} : Eigenvector n α → List (Vec n α)
  | .real x => [x]
  | .complex re im => [re, im]

/-- The vector in all rows: multiplied by the leading columns of a factor if there is one, else
continued by zeros. -/
def inAllRows {n rows : Nat} (factor : Option (Mat n n α)) (x : Vec rows α) : Vec n α :=
  match factor with
  | some q => Vec.ofFn fun i => sumTo rows fun k => q.get i k * x.get k
  | none => Vec.ofFn fun i => x.get i

/-- The size of a vector with the given parts. -/
def Normalization.sizeOf {n : Nat} : Normalization → Vec n α → Vec n α → α
  | .maxAbs, re, im => maxTo n fun i => abs (re.get i) + abs (im.get i)
  | .euclidean, re, im => sqrt (re.dot re + im.dot im)

/-- The size of a real vector. -/
def Normalization.sizeOfReal {n : Nat} : Normalization → Vec n α → α
  | .maxAbs, x => x.supNorm
  | .euclidean, x => sqrt (x.dot x)

/-- A size by which a vector can be divided. -/
def usableSize (size : α) : Bool :=
  !(size == 0) && isFinite size

/-- Expand and normalize the vector of a real eigenvalue. -/
def Eigenvector.ofReal? {n rows : Nat} (norm : Normalization) (factor : Option (Mat n n α))
    (x : Vec rows α) : Option (Eigenvector n α) :=
  let x := inAllRows factor x
  let size := norm.sizeOfReal x
  if usableSize size then some (.real (x.map fun v => v / size)) else none

/-- Expand and normalize the vector of a conjugate pair. -/
def Eigenvector.ofComplex? {n rows : Nat} (norm : Normalization) (factor : Option (Mat n n α))
    (re im : Vec rows α) : Option (Eigenvector n α) :=
  let re := inAllRows factor re
  let im := inAllRows factor im
  let size := norm.sizeOf re im
  if usableSize size then
    some (.complex (re.map fun v => v / size) (im.map fun v => v / size))
  else none

/-- Expand and normalize a back-substituted vector, if it is worth anything. -/
def LeadingVector.eigenvector? {n rows : Nat} (norm : Normalization) (factor : Option (Mat n n α))
    (isPair : Bool) (x : LeadingVector rows α) : Option (Eigenvector n α) :=
  if x.isLost then none
  else if isPair then Eigenvector.ofComplex? norm factor x.re x.im
  else Eigenvector.ofReal? norm factor x.re

/-- The eigenvectors of all selected blocks. -/
structure Eigenvectors (n : Nat) (α : Type) where
  /-- One column for a real eigenvalue and two for a pair, in the order of the blocks. -/
  columns : List (Vec n α)
  /-- The first rows of the blocks without a vector, whose columns are zero. -/
  failed : List Nat

namespace Eigenvectors

variable {n : Nat}

/-- Every selected block has its vector. -/
def isComplete (x : Eigenvectors n α) : Bool :=
  x.failed.isEmpty

/-- The columns side by side. -/
def matrix (x : Eigenvectors n α) : Mat n x.columns.length α :=
  Mat.ofFn fun i j => ((x.columns[j]?).map fun c => c.get i).getD 0

end Eigenvectors

/-- Every block with the blocks above it, of which the nearest comes first. -/
def withBlocksAbove : List (Block α) → List (Block α) → List (Block α × List (Block α))
  | _, [] => []
  | above, b :: rest => (b, above) :: withBlocksAbove (b :: above) rest

/-- The selected blocks, each with the blocks above it. -/
def selectedWithAbove (blocks : List (Block α)) (selected : List Bool) :
    List (Block α × List (Block α)) :=
  (withBlocksAbove [] blocks).filter fun entry => flagAt selected entry.1.start

/-- Compute the vectors of the given blocks and pack their columns. -/
def packColumns {n : Nat} (find : Block α → List (Block α) → Option (Eigenvector n α))
    (chosen : List (Block α × List (Block α))) : Eigenvectors n α :=
  let results := chosen.map fun entry => (entry.1, find entry.1 entry.2)
  { columns := results.flatMap fun result =>
      match result.2 with
      | some vector => vector.columns
      | none => List.replicate result.1.size Vec.zero
    failed := results.filterMap fun result =>
      match result.2 with
      | some _ => none
      | none => some result.1.start }

end SchurForm
