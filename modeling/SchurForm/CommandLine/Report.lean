import SchurForm.Decimal.Style
import SchurForm.Selection

/-!
# What a run prints

The table of eigenvalues after a reordering, the time a stage took, and the account of help and of
the version.
-/

namespace SchurForm

namespace CommandLine

/-- The name of the program. -/
def programName : String := "schurvec"

/-- The program, or one of its commands, with its version. -/
def versionLine (command : Option String) : String :=
  let name := match command with
    | none => programName
    | some command => programName ++ "-" ++ command
  name ++ " 0.1.0"

/-- How the program is called. -/
def usage : List String :=
  ["Select, reorder and compute eigenvectors of real (generalized) Schur forms", "",
    "Usage: " ++ programName ++ " select -s <S> [-t <T>] [-p <PREDICATE>] -o <SELECTION>",
    "       " ++ programName ++ " reorder -s <S> [-t <T>] [-q <Q>] [-z <Z>] " ++
      "--selection <SELECTION> -o <DIR>",
    "               [--threshold-factor <FACTOR>] [--max-refinement-steps <STEPS>]",
    "       " ++ programName ++ " eigenvectors -s <S> [-t <T>] [-q <Q>] " ++
      "[--selection <SELECTION>] -o <X>",
    "               [--normalization <max-abs|euclidean>] [--serial]",
    "",
    "Predicates: " ++ ", ".intercalate (Selector.named.map Selector.name)]

/-- The text behind as many blanks as fill the width. -/
def padLeft (width : Nat) (text : String) : String :=
  String.ofList (List.replicate (width - text.length) ' ') ++ text

/-- A line of the table of eigenvalues: two blanks between columns, and the mark at the end. -/
def tableLine (index : String) (columns : List String) (mark : String) : String :=
  "  ".intercalate (padLeft 5 index :: columns.map (padLeft 14) ++ [mark])

/-- The table of eigenvalues: one line for every position, with a mark on selected ones. There is a
column for every list. -/
def eigenvalueTable (columns : List (String × List Float)) (selected : List Bool) : List String :=
  let count := (columns.head?.map fun c => c.2.length).getD 0
  tableLine "#" (columns.map Prod.fst) "sel" ::
    (List.range count).map fun i =>
      tableLine (toString i)
        (columns.map fun c => Decimal.fixedScientific 6 (c.2.getD i 0))
        (if flagAt selected i then "*" else "")

/-- A number of hundredths. -/
def hundredthsText (hundredths : Nat) : String :=
  let places := toString (hundredths % 100)
  toString (hundredths / 100) ++ "." ++ (if places.length < 2 then "0" else "") ++ places

/-- A time in its largest unit that is not below one, with two places. -/
def durationText (nanoseconds : Nat) : String :=
  let inUnit (unit : Nat) : String := hundredthsText ((100 * nanoseconds + unit / 2) / unit)
  if tenPow 9 ≤ nanoseconds then inUnit (tenPow 9) ++ "s"
  else if tenPow 6 ≤ nanoseconds then inUnit (tenPow 6) ++ "ms"
  else if tenPow 3 ≤ nanoseconds then inUnit (tenPow 3) ++ "µs"
  else inUnit 1 ++ "ns"

end CommandLine

end SchurForm
