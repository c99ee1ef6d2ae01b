import Mathlib.Tactic.SplitIfs
import SchurForm.Host.Memory
import SchurForm.MatrixFile

/-!
# Files that were written are there

Writing a file puts its content at the place that the path leads to. None of the directories on the
way there is such a place, so the path leads there afterwards as well, and reading it gives what was
written. On a host in memory this makes every file that is saved and loaded again a matter of its
content alone.
-/

namespace SchurForm

namespace FileTree

variable {tree : FileTree} {here place : Place} {path : String}

/-- A file can be written: its path leads to a place that is no directory. -/
structure Writable (tree : FileTree) (path : String) (place : Place) : Prop where
  resolves : tree.resolve path = .ok place
  noDirectory : ∀ node, tree.node? place = some node → node ≠ .directory
  noSlash : Path.endsInSlash path = false

/-- The root of the tree is no place for a file. -/
theorem Writable.place_ne_nil (h : tree.Writable path place) : place ≠ [] := by
  rintro rfl
  exact h.noDirectory .directory rfl rfl

/-- What stands at one place stays out of what is found at another. -/
theorem lookup_filter_of_ne {nodes : List (Place × FileNode)} (h : here ≠ place) :
    (nodes.filter fun entry => entry.1 != place).lookup here = nodes.lookup here := by
  induction nodes with
  | nil => rfl
  | cons entry nodes ih =>
    obtain ⟨there, node⟩ := entry
    by_cases hkept : there = place
    · have hother : (here == there) = false := beq_false_of_ne (hkept ▸ h)
      rw [List.filter_cons_of_neg (by simp [hkept]), List.lookup_cons, hother, ih]
    · rw [List.filter_cons_of_pos (by simp [hkept]), List.lookup_cons, List.lookup_cons, ih]

/-- Putting a node changes no other place. -/
theorem node?_put_of_ne (tree : FileTree) {node : FileNode} (h : here ≠ place) :
    (tree.put place node).node? here = tree.node? here := by
  have hother : (here == place) = false := beq_false_of_ne h
  rw [node?, node?, put, List.lookup_cons, hother]
  dsimp only
  rw [lookup_filter_of_ne h]

/-- Putting a file where no directory stands leaves all ways as they are. -/
theorem resolveFrom_put {content : Bytes}
    (hplace : ∀ node, tree.node? place = some node → node ≠ .directory)
    {components : List (List Char)} {goal : Place}
    (h : tree.resolveFrom here components = .ok goal) :
    (tree.put place (.file content)).resolveFrom here components = .ok goal := by
  induction components generalizing here with
  | nil => exact h
  | cons component rest ih =>
    rw [resolveFrom] at h ⊢
    cases hnode : tree.node? here with
    | none => simp [hnode] at h
    | some node =>
      cases node with
      | file content => simp [hnode] at h
      | directory =>
        have hne : here ≠ place := fun heq => hplace .directory (heq ▸ hnode) rfl
        rw [hnode] at h
        rw [node?_put_of_ne tree hne, hnode]
        exact ih h

/-- The path of a written file leads to this file. -/
theorem Writable.resolve_put (h : tree.Writable path place) (content : Bytes) :
    (tree.put place (.file content)).resolve path = .ok place := by
  have hresolves := h.resolves
  rw [resolve] at hresolves ⊢
  split_ifs at hresolves ⊢
  exact resolveFrom_put h.noDirectory hresolves

/-- The tree after writing a file. -/
theorem Writable.write_eq (h : tree.Writable path place) (content : Bytes) :
    tree.write path content = .ok (tree.put place (.file content)) := by
  rw [write, h.resolves]
  simp only [bind, Except.bind]
  split
  · rename_i hnode
    exact absurd rfl (h.noDirectory _ hnode)
  · rw [h.noSlash]
    rfl

/-- Reading a file that was written gives what was written. -/
theorem Writable.read_put (h : tree.Writable path place) (content : Bytes) :
    (tree.put place (.file content)).read path = .ok content := by
  rw [read, h.resolve_put]
  simp only [node?_put tree h.place_ne_nil, h.noSlash]
  rfl

end FileTree

namespace MemoryHost

variable {csv : Csv.Library} {h : MemoryHost} {path : String} {place : Place} {content : Bytes}

/-- A host on which a file has been written. -/
def wrote (h : MemoryHost) (place : Place) (content : Bytes) : MemoryHost :=
  { h with tree := h.tree.put place (.file content) }

/-- A writable file is written. -/
theorem run_writeFile (hpath : h.tree.Writable path place) (content : Bytes) :
    ((hostWith csv).writeFile path content).run h = (.ok (), h.wrote place content) := by
  simp only [hostWith, change, StateT.run_bind, StateT.run_get, pure_bind, hpath.write_eq]
  rfl

/-- Saving succeeds wherever the file is writable. -/
theorem run_expect_writeFile (hpath : h.tree.Writable path place) (content : Bytes)
    (sort : StoreFault → Failure) :
    (Host.expect sort ((hostWith csv).writeFile path content)).run.run h =
      (.ok (), h.wrote place content) := by
  simp only [Host.expect, ExceptT.run_mk, StateT.run_bind, run_writeFile hpath]
  rfl

/-- A file that is there is handed to its reader. -/
theorem run_load {β : Type} (hfile : h.tree.read path = .ok content)
    (opening reading : StoreFault → Failure) (read : Bytes → Except ContentFault β) :
    (Host.load (hostWith csv) path opening reading read).run.run h =
      (match read content with
        | .ok b => .ok b
        | .error fault => .error (.content path fault), h) := by
  simp only [Host.load, hostWith, ExceptT.run_mk, StateT.run_bind, StateT.run_get, pure_bind, hfile,
    StateT.run_pure]
  cases read content <;> rfl

end MemoryHost

end SchurForm
