import SchurForm.CommandLine.Command
import SchurForm.CommandLine.Report
import SchurForm.MatrixFile
import SchurForm.Workspace

/-!
# Running a command

A command is run on a host. What has been printed and written before a failure stays. A run ends
with an exit code: zero for success, one for a failure, and two for arguments that form no command.
-/

namespace SchurForm

namespace CommandLine

section Run

variable {m : Type → Type} [Monad m] (host : Host m)

/-- Print a line on the way. -/
def say (text : String) : ExceptT Failure m Unit :=
  ExceptT.lift (host.say text)

/-- A computation whose error ends the run. -/
def attempt {β : Type} (r : Except (FormError Float) β) : ExceptT Failure m β :=
  match r with
  | .ok b => pure b
  | .error e => throw (.form e)

/-- Read a matrix and tell about it. -/
def load (name path : String) : ExceptT Failure m (Table Float) := do
  let t ← host.loadMatrix path
  say host s!"✅ Loaded {name} ({t.rows}x{t.cols}) from {path}"
  return t

/-- Read a matrix if there is a file for it. -/
def load? (name : String) : Option String → ExceptT Failure m (Option (Table Float))
  | none => return none
  | some path => some <$> load host name path

/-- The selection of a form by a predicate that has a name. -/
def selectForm (selector : Selector) (s : Table Float) :
    Option (Table Float) → Except (FormError Float) Selection
  | none => (s.select fun v => selector.accepts v.1 v.2 : Id _)
  | some t => (s.selectPencil t fun v => selector.acceptsPencil v.1 v.2.1 v.2.2 : Id _)

/-- Write the selection of a form by a predicate. -/
def SelectOptions.carryOut (options : SelectOptions) : ExceptT Failure m Unit := do
  let s ← load host "S" options.form.schur
  let t ← load? host "T" options.form.pencil
  let selection ← attempt (selectForm options.selector s t)
  host.saveSelection options.output selection.selected
  say host (s!"🎯 Selected {selection.count} of {selection.selected.length} eigenvalues, " ++
    s!"saved to {options.output}")

/-- The lists of eigenvalues with their names. -/
def namedLists (e : EigenvalueLists Float) : List (String × List Float) :=
  [("real", e.real), ("imag", e.imag)] ++
    match e.beta with
    | some beta => [("beta", beta)]
    | none => []

/-- Tell about a finished reordering: why it stopped early, if it did, and its eigenvalues. -/
def tell (report : ReorderSummary Float) (selected : List Bool) : ExceptT Failure m Unit := do
  if let some e := report.rejected then
    say host ("⚠️ Partial reordering: " ++ e.message)
  for line in eigenvalueTable (namedLists report.eigenvalues) selected do
    say host line

/-- Write a matrix if there is one. -/
def write? (path : String) : Option (Table Float) → ExceptT Failure m Unit
  | none => return
  | some t => host.saveMatrix path t

/-- Write the results of a reordering: what only a pencil has, the eigenvalues with a file for every
list, and what every form has. -/
def writeReordered (directory : String) (w : Workspace Float) (report : ReorderSummary Float) :
    ExceptT Failure m Unit := do
  write? host (Path.join directory "T.npy") w.t
  write? host (Path.join directory "Z.npy") w.z
  for list in namedLists report.eigenvalues do
    host.saveVector (Path.join directory (list.1 ++ ".csv")) list.2
  host.saveMatrix (Path.join directory "S.npy") w.s
  write? host (Path.join directory "Q.npy") w.q
  host.saveSelection (Path.join directory "selection.csv") w.selected

/-- Print what was saved where, and how long it took since the given time. -/
def saySaved (what path : String) (start : Nat) : ExceptT Failure m Unit := do
  let now ← ExceptT.lift host.clock
  say host (what ++ " saved to " ++ path ++ " in " ++ durationText (now - start))

/-- Reorder a form and write what became of it. -/
def ReorderOptions.carryOut (options : ReorderOptions) : ExceptT Failure m Unit := do
  let tol ← attempt (Tolerance.make? options.thresholdFactor options.refinements)
  let s ← load host "S" options.form.schur
  let q ← load? host "Q" options.left
  let selected ← host.loadSelection options.selection
  Host.expect .store (host.makeDirectories options.output)
  let start ← ExceptT.lift host.clock
  let t ← load? host "T" options.form.pencil
  let z ← load? host "Z" options.right
  let (result, w) := (Workspace.reorder tol).run { s, t, q, z, selected }
  let report ← attempt result
  tell host report w.selected
  writeReordered host options.output w report
  saySaved host "✨ Reordered form" options.output start

/-- The number of selected conjugate pairs. -/
def selectedPairs (blocks : List (Block Float)) (selected : List Bool) : Nat :=
  (blocks.filter fun b => b.isPair && flagAt selected b.start).length

/-- Write the eigenvectors of a form. -/
def EigenvectorOptions.carryOut (options : EigenvectorOptions) : ExceptT Failure m Unit := do
  let s ← load host "S" options.form.schur
  let t ← load? host "T" options.form.pencil
  let factor ← load? host (if t.isSome then "Z" else "Q") options.backTransform
  let selected ←
    match options.selection with
    | some path => host.loadSelection path
    | none => pure (List.replicate s.rows true)
  let start ← ExceptT.lift host.clock
  let w : Workspace Float := { s, t, q := none, z := none, selected }
  let x ← attempt (w.eigenvectors options.normalization factor)
  let pairs := selectedPairs (← attempt w.diagonalBlocks) selected
  say host s!"📊 {x.vectors.cols} eigenvector columns ({pairs} conjugate pairs)"
  if x.failed ≠ [] then
    say host ("❗ Eigenvectors could not be computed for eigenvalues at rows [" ++
      ", ".intercalate (x.failed.map toString) ++ "]")
  host.saveMatrix options.output x.vectors
  saySaved host "✅ Eigenvectors" options.output start

/-- Run a command. -/
def Command.run : Command → ExceptT Failure m Unit
  | .select options => options.carryOut host
  | .reorder options => options.carryOut host
  | .eigenvectors options => options.carryOut host

/-- Print lines. -/
def printAll (print : String → m Unit) (lines : List String) : m Unit :=
  lines.forM print

/-- Answer an interruption of the reading of arguments. -/
def Stop.answer (stop : Stop) : m Nat := do
  match stop.interruption with
  | .help =>
    printAll host.say usage
    return 0
  | .version =>
    host.say (versionLine stop.command)
    return 0
  | .misuse =>
    printAll host.complain usage
    return 2

/-- Run the program with the given arguments. The result is the exit code. -/
def run (arguments : List String) : m Nat := do
  match Command.ofArguments arguments with
  | .error stop => stop.answer host
  | .ok command =>
    match ← (command.run host).run with
    | .ok () => return 0
    | .error failure =>
      host.complain ("Error: " ++ failure.parts)
      return 1

end Run

end CommandLine

end SchurForm
