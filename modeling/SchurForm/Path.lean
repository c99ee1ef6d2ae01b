/-!
# Paths

A path is a text of names with slashes between them. Empty names and single dots name the place they
stand at and are dropped; two dots lead back.
-/

namespace SchurForm

namespace Path

/-- The pieces of a text between slashes. -/
def pieces : List Char → List (List Char)
  | [] => [[]]
  | c :: rest =>
    if c = '/' then [] :: pieces rest
    else
      match pieces rest with
      | [] => [[c]]
      | name :: more => (c :: name) :: more

/-- The names that a path consists of. -/
def components (path : String) : List (List Char) :=
  (pieces path.toList).filter fun name => name != [] && name != ['.']

/-- The name that leads one directory back. -/
def back : List Char := ['.', '.']

/-- The name of the file that a path leads to, empty if it leads back. -/
def fileName (path : String) : List Char :=
  match (components path).getLast? with
  | some name => if name = back then [] else name
  | none => []

/-- The part of a file name behind its last point, unless the point comes first. -/
def suffix? (name : List Char) : Option (List Char) :=
  let behind := (name.reverse.takeWhile fun c => c != '.').reverse
  if behind.length + 1 < name.length then some behind else none

/-- A path with a slash at its end can only lead to a directory. -/
def endsInSlash (path : String) : Bool :=
  path.toList.getLast? == some '/'

/-- The path of a file in a directory. -/
def join (directory name : String) : String :=
  if directory = "" ∨ endsInSlash directory then directory ++ name
  else directory ++ "/" ++ name

end Path

end SchurForm
