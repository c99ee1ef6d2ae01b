import SchurForm.CommandLine.Options
import SchurForm.Decimal.Reader
import SchurForm.Eigenvector
import SchurForm.Exchange
import SchurForm.Selection

/-!
# Commands

The three things the program does, each with its own options: writing a selection, reordering a
form, and computing eigenvectors.
-/

namespace SchurForm

namespace CommandLine

/-- The files of a standard form, or of a pencil if there are two. -/
structure FormFiles where
  schur : String
  pencil : Option String
  deriving DecidableEq, Repr

/-- What the command that selects eigenvalues is asked to do. -/
structure SelectOptions where
  form : FormFiles
  selector : Selector
  output : String

/-- What the command that reorders a form is asked to do. -/
structure ReorderOptions where
  form : FormFiles
  left : Option String
  right : Option String
  selection : String
  /-- The directory for the results. -/
  output : String
  thresholdFactor : Float
  refinements : Nat

/-- What the command that computes eigenvectors is asked to do. -/
structure EigenvectorOptions where
  form : FormFiles
  backTransform : Option String
  /-- Every eigenvalue is used when there is no selection. -/
  selection : Option String
  output : String
  normalization : Normalization

/-- A command with its options. -/
inductive Command where
  | select (options : SelectOptions)
  | reorder (options : ReorderOptions)
  | eigenvectors (options : EigenvectorOptions)

/-- A name of at least one character. -/
def isPath (text : String) : Bool := text != ""

/-- A number in a command. -/
def readNumber? (text : String) : Option Float :=
  (Decimal.read text.toList).toOption

/-- A count in a command: digits behind an optional plus sign, below `2 ^ 64`. -/
def readCount? (text : String) : Option Nat :=
  let digits :=
    match text.toList with
    | '+' :: digits => digits
    | digits => digits
  if digits ≠ [] ∧ digits.all Char.isDigit ∧ Decimal.ofDigits digits < twoPow 64 then
    some (Decimal.ofDigits digits)
  else none

/-- The normalization of the given name. -/
def normalization? : String → Option Normalization
  | "max-abs" => some .maxAbs
  | "euclidean" => some .euclidean
  | _ => none

/-- An option whose value is a path. -/
def pathOption (letter : Option Char) (name : String) : ValueOption :=
  ⟨letter, name, isPath⟩

/-- The options that name the files of a form. -/
def formGrammar : List ValueOption :=
  [pathOption (some 's') "schur", pathOption (some 't') "pencil"]

/-- The options that selecting eigenvalues takes. -/
def selectGrammar : Grammar where
  valued := formGrammar ++
    [⟨some 'p', "predicate", fun v => (Selector.ofName? v).isSome⟩, pathOption (some 'o') "output"]
  flags := []

/-- The options that reordering takes. -/
def reorderGrammar : Grammar where
  valued := formGrammar ++
    [pathOption (some 'q') "left", pathOption (some 'z') "right", pathOption none "selection",
      pathOption (some 'o') "output",
      ⟨none, "threshold-factor", fun v => (readNumber? v).isSome⟩,
      ⟨none, "max-refinement-steps", fun v => (readCount? v).isSome⟩]
  flags := []

/-- Vectors are computed one after the other in any case, so `serial` asks for nothing. -/
def eigenvectorGrammar : Grammar where
  valued := formGrammar ++
    [pathOption (some 'q') "back-transform", pathOption none "selection",
      pathOption (some 'o') "output", ⟨none, "normalization", fun v => (normalization? v).isSome⟩]
  flags := ["serial"]

namespace Given

/-- The value of an option that has to be given. -/
def require (given : Given) (name : String) : Except Interruption String :=
  match given.value? name with
  | some value => .ok value
  | none => .error .misuse

/-- The value of an option in the terms of the domain, with one for an option that is not given. -/
def valueOr {β : Type} (given : Given) (name : String) (read : String → Option β) (absent : β) :
    Except Interruption β :=
  match given.value? name with
  | none => .ok absent
  | some value =>
    match read value with
    | some b => .ok b
    | none => .error .misuse

/-- The files that hold the form. -/
def formFiles (given : Given) : Except Interruption FormFiles := do
  return { schur := ← given.require "schur", pencil := given.value? "pencil" }

/-- The options for selecting eigenvalues, as they were given. -/
def select (given : Given) : Except Interruption SelectOptions := do
  return {
    form := ← given.formFiles
    selector := ← given.valueOr "predicate" Selector.ofName? .leftHalfPlane
    output := ← given.require "output" }

/-- A right factor belongs to a pencil. -/
def reorder (given : Given) : Except Interruption ReorderOptions := do
  if (given.value? "right").isSome ∧ (given.value? "pencil").isNone then throw .misuse
  return {
    form := ← given.formFiles
    left := given.value? "left"
    right := given.value? "right"
    selection := ← given.require "selection"
    output := ← given.require "output"
    thresholdFactor := ← given.valueOr "threshold-factor" readNumber? (Tolerance.standard).factor
    refinements := ← given.valueOr "max-refinement-steps" readCount?
      (Tolerance.standard (α := Float)).refinements }

/-- The options for eigenvectors, as they were given. -/
def eigenvectors (given : Given) : Except Interruption EigenvectorOptions := do
  return {
    form := ← given.formFiles
    backTransform := given.value? "back-transform"
    selection := given.value? "selection"
    output := ← given.require "output"
    normalization := ← given.valueOr "normalization" normalization? .maxAbs }

end Given

/-- The names of the commands. -/
def commandNames : List String := ["select", "reorder", "eigenvectors"]

/-- An interruption, and the command whose arguments were being read. -/
structure Stop where
  interruption : Interruption
  command : Option String
  deriving DecidableEq, Repr

/-- The command that arguments form behind its name. -/
def readCommand (name : String) (arguments : List String) : Except Interruption Command := do
  match name with
  | "select" => return .select (← (← selectGrammar.read ⟨[], []⟩ arguments).select)
  | "reorder" => return .reorder (← (← reorderGrammar.read ⟨[], []⟩ arguments).reorder)
  | "eigenvectors" =>
    return .eigenvectors (← (← eigenvectorGrammar.read ⟨[], []⟩ arguments).eigenvectors)
  | _ => throw .misuse

/-- Help may be asked for by a command of its own, in general or for one command. -/
def readHelp : List String → Interruption
  | [] => .help
  | [name] => if commandNames.contains name || name == "help" then .help else .misuse
  | _ => .misuse

/-- The command that arguments form. -/
def Command.ofArguments : List String → Except Stop Command
  | [] => .error ⟨.misuse, none⟩
  | first :: rest =>
    match Argument.of first with
    | .plain "help" => .error ⟨readHelp rest, none⟩
    | .plain name =>
      match readCommand name rest with
      | .ok command => .ok command
      | .error interruption => .error ⟨interruption, some name⟩
    | argument => .error ⟨Grammar.interruption argument, none⟩

end CommandLine

end SchurForm
