import SchurForm.Csv.Scan
import SchurForm.Host
import SchurForm.Path

/-!
# A host in memory

A tree of files as a value, and the host that works on it. A path is resolved from the root, one
component after the other, and every component but the last must name a directory.
-/

namespace SchurForm

/-- What a path can name. -/
inductive FileNode where
  | directory
  | file (content : Bytes)

/-- A resolved path: the names on the way from the root. -/
abbrev Place := List (List Char)

/-- The files and directories by their places. The root is there without being listed. -/
structure FileTree where
  nodes : List (Place × FileNode)

namespace FileTree

/-- The tree without any files. -/
def empty : FileTree := ⟨[]⟩

/-- What stands at a place. -/
def node? (tree : FileTree) (here : Place) : Option FileNode :=
  if here = [] then some .directory else tree.nodes.lookup here

/-- Put something at a place. -/
def put (tree : FileTree) (here : Place) (node : FileNode) : FileTree :=
  ⟨(here, node) :: tree.nodes.filter fun entry => entry.1 != here⟩

/-- A node that was put somewhere is there. -/
theorem node?_put (tree : FileTree) {here : Place} (h : here ≠ []) (node : FileNode) :
    (tree.put here node).node? here = some node := by
  simp [node?, put, h]

/-- Go one component on from a directory. -/
def enter (here : Place) (component : List Char) : Place :=
  if component = Path.back then here.dropLast else here ++ [component]

/-- The place behind some components, seen from a place. -/
def resolveFrom (tree : FileTree) (here : Place) : List (List Char) → Except StoreFault Place
  | [] => .ok here
  | component :: rest =>
    match tree.node? here with
    | none => .error .notFound
    | some (.file _) => .error .notADirectory
    | some .directory => resolveFrom tree (enter here component) rest

/-- The place that a path stands for. -/
def resolve (tree : FileTree) (path : String) : Except StoreFault Place :=
  if path = "" then .error .notFound else tree.resolveFrom [] (Path.components path)

/-- The content of a file. A directory can be opened but not read. -/
def read (tree : FileTree) (path : String) : Except ReadFault Bytes :=
  match tree.resolve path with
  | .error fault => .error (.opening fault)
  | .ok here =>
    match tree.node? here with
    | none => .error (.opening .notFound)
    | some .directory => .error (.reading .isADirectory)
    | some (.file content) =>
      if Path.endsInSlash path then .error (.opening .notADirectory) else .ok content

/-- The tree with a file written. -/
def write (tree : FileTree) (path : String) (content : Bytes) : Except StoreFault FileTree := do
  let here ← tree.resolve path
  match tree.node? here with
  | some .directory => .error .isADirectory
  | _ =>
    if Path.endsInSlash path then .error .isADirectory
    else return tree.put here (.file content)

/-- The tree with every directory made that is missing along some components. -/
def makeFrom (tree : FileTree) (here : Place) :
    List (List Char) → Except StoreFault FileTree
  | [] => .ok tree
  | component :: rest =>
    let next := enter here component
    match tree.node? next with
    | some .directory => makeFrom tree next rest
    | some (.file _) => .error (if rest = [] then .alreadyExists else .notADirectory)
    | none => makeFrom (tree.put next .directory) next rest

/-- The tree with a directory made. -/
def makeDirectories (tree : FileTree) (path : String) : Except StoreFault FileTree :=
  tree.makeFrom [] (Path.components path)

/-- The files of a tree with their places. -/
def files (tree : FileTree) : List (Place × Bytes) :=
  tree.nodes.filterMap fun entry =>
    match entry.2 with
    | .file content => some (entry.1, content)
    | .directory => none

end FileTree

/-- A tree of files and the lines that have been printed. -/
structure MemoryHost where
  tree : FileTree
  output : List String
  complaints : List String

namespace MemoryHost

/-- Replace the tree if the change succeeds. -/
def change (f : FileTree → Except StoreFault FileTree) :
    StateM MemoryHost (Except StoreFault Unit) := do
  let host ← get
  match f host.tree with
  | .ok tree =>
    set { host with tree }
    return .ok ()
  | .error fault => return .error fault

/-- The host that works on a tree in memory with the given library. Its clock stands still. -/
def hostWith (csv : Csv.Library) : Host (StateM MemoryHost) where
  csv
  readFile path := do return (← get).tree.read path
  writeFile path content := change fun tree => tree.write path content
  makeDirectories path := change fun tree => tree.makeDirectories path
  say text := modify fun host => { host with output := host.output ++ [text] }
  complain text := modify fun host => { host with complaints := host.complaints ++ [text] }
  clock := return 0

/-- The host in memory with the library that the program runs with. -/
def host : Host (StateM MemoryHost) :=
  hostWith Csv.standard

end MemoryHost

end SchurForm
