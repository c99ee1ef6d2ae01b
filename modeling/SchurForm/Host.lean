import SchurForm.Csv.Library

/-!
# The surroundings of a run

A run of the program reads and writes files, makes directories, prints lines and looks at a clock.
`Host` lists these requests for any kind of effect, and names the library for files of records; what
a run does is then a function of the answers it gets, whether they come from a machine or from a
value in memory.
-/

namespace SchurForm

/-- Why a file system refuses a request. -/
inductive StoreFault where
  | notFound
  | permissionDenied
  | alreadyExists
  | notADirectory
  | isADirectory
  /-- A reason that the file system words itself. -/
  | other (code : Nat) (text : String)
  deriving DecidableEq, Repr

namespace StoreFault

/-- The number by which the file system knows the reason. -/
def code : StoreFault → Nat
  | notFound => 2
  | permissionDenied => 13
  | alreadyExists => 17
  | notADirectory => 20
  | isADirectory => 21
  | other code _ => code

/-- The kind of a fault of the store. -/
def kind : StoreFault → String
  | notFound => "NotFound"
  | permissionDenied => "PermissionDenied"
  | alreadyExists => "AlreadyExists"
  | notADirectory => "NotADirectory"
  | isADirectory => "IsADirectory"
  | other _ _ => "Uncategorized"

/-- The text of a fault of the store. -/
def text : StoreFault → String
  | notFound => "No such file or directory"
  | permissionDenied => "Permission denied"
  | alreadyExists => "File exists"
  | notADirectory => "Not a directory"
  | isADirectory => "Is a directory"
  | other _ text => text

/-- The reason of the given number. -/
def ofCode (code : Nat) (text : String) : StoreFault :=
  let known := [notFound, permissionDenied, alreadyExists, notADirectory, isADirectory]
  (known.find? fun fault => fault.code == code).getD (other code text)

/-- The wording of a reason. -/
def message (fault : StoreFault) : String :=
  fault.text ++ s!" (os error {fault.code})"

end StoreFault

/-- Why a file could not be read: already when it was opened, or only afterwards. -/
inductive ReadFault where
  | opening (fault : StoreFault)
  | reading (fault : StoreFault)
  deriving DecidableEq, Repr

/-- What a run may ask for. -/
structure Host (m : Type → Type) where
  /-- The library that files of records are read and written with. -/
  csv : Csv.Library
  readFile : String → m (Except ReadFault Bytes)
  /-- Create a file, or replace the one that is there. -/
  writeFile : String → Bytes → m (Except StoreFault Unit)
  /-- Make a directory and those above it, as far as they are missing. -/
  makeDirectories : String → m (Except StoreFault Unit)
  /-- Print a line. -/
  say : String → m Unit
  /-- Print a line about an error. -/
  complain : String → m Unit
  /-- Nanoseconds since some fixed time. -/
  clock : m Nat

end SchurForm
