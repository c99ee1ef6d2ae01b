import SchurForm.CommandLine

/-!
# The program

The host that works on the machine, and the entry point of the program.
-/

namespace SchurForm

/-- The reason behind an error of the machine. -/
def StoreFault.ofError : IO.Error → StoreFault
  | .noFileOrDirectory _ _ _ => .notFound
  | .permissionDenied _ code details => .ofCode code.toNat details
  | .alreadyExists _ code details => .ofCode code.toNat details
  | .inappropriateType _ code details => .ofCode code.toNat details
  | .noSuchThing _ code details => .ofCode code.toNat details
  | .resourceExhausted _ code details => .ofCode code.toNat details
  | .unsupportedOperation code details => .ofCode code.toNat details
  | .hardwareFault code details => .ofCode code.toNat details
  | .otherError code details => .ofCode code.toNat details
  | e => .other 0 (toString e)

/-- The answer to a request, with an error of the machine as a reason. -/
def answerRequest {β ε : Type} (word : StoreFault → ε) (request : IO β) : IO (Except ε β) := do
  match ← request.toBaseIO with
  | .ok b => return .ok b
  | .error e => return .error (word (.ofError e))

/-- Read a file in two steps, so that a refusal can be told from a failure on the way. -/
def readFileOnMachine (path : String) : IO (Except ReadFault Bytes) := do
  match ← answerRequest ReadFault.opening (IO.FS.Handle.mk path .read) with
  | .error fault => return .error fault
  | .ok handle =>
    answerRequest ReadFault.reading do
      return (← handle.readBinToEnd).toList

/-- Make a directory, and those above it only if they turn out to be missing. A directory that is
there already is no error. -/
def makeDirectoriesOnMachine (path : String) : IO Unit := do
  match ← (IO.FS.createDir path).toBaseIO with
  | .ok () => return
  | .error e =>
    match StoreFault.ofError e with
    | .notFound => IO.FS.createDirAll path
    | .alreadyExists => IO.FS.createDirAll path
    | _ => throw e

/-- The host that works on the machine. -/
def machineHost : Host IO where
  csv := Csv.standard
  readFile := readFileOnMachine
  writeFile path content :=
    answerRequest id (IO.FS.writeBinFile path content.toByteArray)
  makeDirectories path := answerRequest id (makeDirectoriesOnMachine path)
  say text := IO.println text
  complain text := IO.eprintln text
  clock := IO.monoNanosNow

end SchurForm

/-- Run the program with its arguments. -/
def main (arguments : List String) : IO UInt32 := do
  return UInt32.ofNat (← SchurForm.CommandLine.run SchurForm.machineHost arguments)
