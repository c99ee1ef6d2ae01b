import SchurForm.Csv.Scan
import SchurForm.FormError
import SchurForm.Host
import SchurForm.Npy
import SchurForm.Path
import SchurForm.Text.Quoted

/-!
# Matrices, vectors and selections in files

A file whose name ends in `.npy`, in any letter case, is an array file; every other file holds
comma-separated records, one matrix row each. A selection is always a file of records: one line of
zeros and ones when it is written, and flags in any arrangement over lines when it is read.
-/

namespace SchurForm

/-- Why the content of a file is refused. -/
inductive ContentFault where
  /-- A record cannot be read. -/
  | record (message : String)
  /-- A row has another length than the first one. Rows are counted from one. -/
  | unequalRow (row length expected : Nat)
  | array (fault : Npy.Fault)
  | flag (field : List Char)
  /-- The file system refused to hand over the records. -/
  | recordsUnread (fault : StoreFault)
  /-- The file system refused to hand over the array. -/
  | arrayUnread (fault : StoreFault)

/-- The wording of a fault. -/
def ContentFault.message : ContentFault → String
  | .record message => message
  | .unequalRow row length expected =>
    s!"row {row} has {length} entries, expected {expected}"
  | .array fault => fault.message
  | .flag field => "'" ++ String.ofList field ++ "' is not a selection flag"
  | .recordsUnread fault => fault.message
  | .arrayUnread fault => "I/O error: " ++ fault.message

/-- Why a run fails. -/
inductive Failure where
  /-- The file system refused a request. -/
  | store (fault : StoreFault)
  /-- A file of records could not be opened or created. -/
  | recordStore (fault : StoreFault)
  /-- An array file could not be created. -/
  | arrayStore (fault : StoreFault)
  | content (path : String) (fault : ContentFault)
  | form (error : FormError Float)

namespace Failure

/-- The kind of failure that a caller sees. -/
def kind : Failure → String
  | store fault => fault.kind
  | recordStore _ => "Other"
  | arrayStore _ => "Other"
  | content _ _ => "InvalidData"
  | form _ => "InvalidInput"

/-- The wording of a failure. -/
def message : Failure → String
  | store fault => fault.message
  | recordStore fault => fault.message
  | arrayStore fault => "I/O error: " ++ fault.message
  | content path fault => path ++ ": " ++ fault.message
  | form error => error.message

/-- Named parts in braces. -/
def braced (name : String) (parts : List (String × String)) : String :=
  name ++ " \x7b " ++ ", ".intercalate (parts.map fun p => p.1 ++ ": " ++ p.2) ++ " \x7d"

/-- The parts of a refusal of the file system. -/
def storeParts (fault : StoreFault) : String :=
  braced "Os" [("code", toString fault.code), ("kind", fault.kind),
    ("message", Text.quoted fault.text)]

/-- A failure with all its parts, as it is shown when a run ends with it. -/
def parts (failure : Failure) : String :=
  let custom (error : String) : String :=
    braced "Custom" [("kind", failure.kind), ("error", error)]
  match failure with
  | store fault => storeParts fault
  | recordStore fault => custom ("Error(Io(" ++ storeParts fault ++ "))")
  | arrayStore fault => custom ("Io(" ++ storeParts fault ++ ")")
  | content _ _ => custom (Text.quoted failure.message)
  | form _ => custom (Text.quoted failure.message)

end Failure

/-- A matrix with the given rows, all as long as the first one. -/
def Table.ofRows (rows : List (List Float)) : Table Float :=
  let entries := (rows.map List.toArray).toArray
  Table.ofFn rows.length ((rows.head?.map List.length).getD 0) fun i j =>
    (entries.getD i #[]).getD j 0

namespace MatrixFile

/-- Whether a path leads to an array file. -/
def isArray (path : String) : Bool :=
  match Path.suffix? (Path.fileName path) with
  | some suffix => suffix.map Char.toLower == ['n', 'p', 'y']
  | none => false

/-- Read rows one after another. Each must be as long as the first one, and so many were read before
them. -/
def readRows (expected : Option Nat) (count : Nat) :
    List (Except String (List Float)) → Except ContentFault (List (List Float))
  | [] => .ok []
  | .error message :: _ => .error (.record message)
  | .ok row :: rest =>
    let length := expected.getD row.length
    if row.length = length then do return row :: (← readRows (some length) (count + 1) rest)
    else .error (.unequalRow (count + 1) row.length length)

/-- The matrix in a file of records. -/
def matrixOfRecords (csv : Csv.Library) (content : Bytes) : Except ContentFault (Table Float) := do
  return Table.ofRows (← readRows none 0 (csv.rows content))

/-- The matrix in an array file. -/
def matrixOfArray (content : Bytes) : Except ContentFault (Table Float) :=
  match Npy.read content with
  | .ok t => .ok t
  | .error fault => .error (.array fault)

/-- The content of a file that holds a matrix. -/
def contentOfMatrix (path : String) (t : Table Float) (csv : Csv.Library := Csv.standard) : Bytes :=
  if isArray path then Npy.write t
  else csv.write (t.mat.toLists.map fun row => row.map csv.numberText)

/-- The content of a file that holds a vector: one record, or an array of one dimension. -/
def contentOfVector (path : String) (xs : List Float) (csv : Csv.Library) : Bytes :=
  if isArray path then Npy.writeList xs else csv.write [xs.map csv.numberText]

/-- The content of a file that holds a selection. -/
def contentOfSelection (selected : List Bool) (csv : Csv.Library) : Bytes :=
  csv.write [selected.map fun keep => csv.byteText (if keep then 1 else 0)]

/-- The flag that a field stands for. -/
def readFlag (field : List Char) : Except ContentFault Bool :=
  let word := field.map Char.toLower
  if word = ['1'] ∨ word = "true".toList then .ok true
  else if word = ['0'] ∨ word = "false".toList then .ok false
  else .error (.flag word)

/-- The flags of a record; empty fields are passed over. -/
def recordFlags (record : Except String (List (List Char))) : Except ContentFault (List Bool) :=
  match record with
  | .ok fields => (fields.filter fun field => !field.isEmpty).mapM readFlag
  | .error message => .error (.record message)

/-- The selection in a file. -/
def selectionOfRecords (csv : Csv.Library) (content : Bytes) : Except ContentFault (List Bool) := do
  return (← (csv.records content).mapM recordFlags).flatten

end MatrixFile

namespace Host

open MatrixFile

variable {m : Type → Type} [Monad m] (host : Host m)

/-- Answer a refusal as a failure of the given sort. -/
def expect {β : Type} (sort : StoreFault → Failure) (request : m (Except StoreFault β)) :
    ExceptT Failure m β :=
  ExceptT.mk do
    match ← request with
    | .ok b => return .ok b
    | .error fault => return .error (sort fault)

/-- Hand a file to a reader of its content. The functions word what the file system refuses when the
file is opened and when it is read. -/
def load {β : Type} (path : String) (opening reading : StoreFault → Failure)
    (read : Bytes → Except ContentFault β) : ExceptT Failure m β :=
  ExceptT.mk do
    match ← host.readFile path with
    | .error (.opening fault) => return .error (opening fault)
    | .error (.reading fault) => return .error (reading fault)
    | .ok content =>
      match read content with
      | .ok b => return .ok b
      | .error fault => return .error (.content path fault)

/-- The matrix in a file. -/
def loadMatrix (path : String) : ExceptT Failure m (Table Float) :=
  if isArray path then
    let unread := fun fault => Failure.content path (.arrayUnread fault)
    host.load path unread unread matrixOfArray
  else
    host.load path .store (fun fault => .content path (.recordsUnread fault))
      (matrixOfRecords host.csv)

/-- The selection in a file. -/
def loadSelection (path : String) : ExceptT Failure m (List Bool) :=
  host.load path .recordStore (fun fault => .content path (.recordsUnread fault))
    (selectionOfRecords host.csv)

/-- Write a matrix. -/
def saveMatrix (path : String) (t : Table Float) : ExceptT Failure m Unit :=
  expect (if isArray path then .arrayStore else .recordStore)
    (host.writeFile path (contentOfMatrix path t host.csv))

/-- Write a vector. -/
def saveVector (path : String) (xs : List Float) : ExceptT Failure m Unit :=
  expect (if isArray path then .store else .recordStore)
    (host.writeFile path (contentOfVector path xs host.csv))

/-- Write a selection. -/
def saveSelection (path : String) (selected : List Bool) : ExceptT Failure m Unit :=
  expect .recordStore (host.writeFile path (contentOfSelection selected host.csv))

end Host

end SchurForm
