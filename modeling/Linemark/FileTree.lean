import Linemark.Stream.Failure
import Linemark.Stream.Source

/-!
# File trees

The files and directories beneath a working directory: how they are made, and what opening a path
comes to. A path is walked name by name. It may leave the tree by `..` or by starting at the root,
and outside of the tree there is nothing but directories without entries, so no path comes back. All
that is in the tree may be opened, and a file is read to its end without a failure.

What is made at a path is made at the place that the path leads to, after the directories on the way
that are not there yet. So a path may go through a new directory and out of it again, and both the
directory and what the path is for are there afterwards.

A directory can be opened, but not read: its first read fails, so it is an input without lines.
-/

namespace Linemark

/-- Something that a path leads to. -/
inductive Entry
  | file (content : Bytes)
  | directory
  deriving DecidableEq, Repr

/-- Files and directories, by the names that lead to them from the working directory. The names
are neither empty nor dots. Of two entries at the same names the first one holds. -/
structure FileTree where
  entries : List (List String × Entry) := []
  deriving Repr

/-- The names that a path is made of. -/
def pathNames (path : String) : List String :=
  path.toList.splitOn '/' |>.map String.ofList

namespace FileTree

/-! ## Entries -/

/-- What is at the given names. -/
def find? (tree : FileTree) (names : List String) : Option Entry := tree.entries.lookup names

/-- The tree with an entry at the given names. -/
def insert (tree : FileTree) (names : List String) (entry : Entry) : FileTree :=
  { entries := (names, entry) :: tree.entries }

@[simp] theorem find?_insert_self (tree : FileTree) (names : List String) (entry : Entry) :
    (tree.insert names entry).find? names = some entry := by
  simp [find?, insert]

theorem find?_insert_of_ne (tree : FileTree) {names other : List String} (entry : Entry)
    (h : other ≠ names) : (tree.insert names entry).find? other = tree.find? other := by
  simp [find?, insert, List.lookup_cons, beq_eq_false_iff_ne.2 h]

/-! ## Walking a path -/

/-- A place that a walk has come to. -/
inductive Place
  /-- Within the tree, at the given names. -/
  | inside (names : List String) (entry : Entry)
  /-- In a directory outside of the tree. -/
  | outside

/-- The longest name that can be looked up, in bytes. -/
def longestName : Nat := 255

/-- The longest path that can be opened, in bytes. -/
def longestPath : Nat := 4095

/-- The place that a name leads to from a place. -/
def step (tree : FileTree) (place : Place) (name : String) : Except SystemError Place :=
  match place with
  | .inside _ (.file _) => .error .notADirectory
  | .inside names .directory =>
    if name = "" ∨ name = "." then .ok place
    else if name = ".." then
      match names with
      | [] => .ok .outside
      | _ => .ok (.inside names.dropLast .directory)
    else if longestName < name.utf8ByteSize then .error .nameTooLong
    else
      match tree.find? (names ++ [name]) with
      | some entry => .ok (.inside (names ++ [name]) entry)
      | none => .error .noSuchEntry
  | .outside =>
    if name = "" ∨ name = "." ∨ name = ".." then .ok .outside
    else if longestName < name.utf8ByteSize then .error .nameTooLong
    else .error .noSuchEntry

/-- The place that a path starts from, if the path is one that can be walked. -/
def start (path : String) : Except Failure Place := do
  if path.toList.contains '\x00' then
    throw (.described .invalidInput "file name contained an unexpected NUL byte")
  if path.isEmpty then throw (.system .noSuchEntry)
  if longestPath < path.utf8ByteSize then throw (.system .nameTooLong)
  return if path.startsWith "/" then .outside else .inside [] .directory

/-- The place that a path leads to. -/
def walk (tree : FileTree) (path : String) : Except Failure Place := do
  ((pathNames path).foldlM tree.step (← start path)).mapError .system

/-! ## Making files and directories -/

/-- Makes an entry where a name leads to from a place, and goes there. A directory that is there
already is left as it is, and a file gets a new content, but neither becomes the other. Nothing is
made outside of the tree. -/
def put (tree : FileTree) (place : Place) (name : String) (entry : Entry) :
    Option (FileTree × Place) :=
  match tree.step place name, entry with
  | .ok (.inside names (.file _)), .file _ => some (tree.insert names entry, .inside names entry)
  | .ok (.inside _ (.file _)), .directory => none
  | .ok _, .file _ => none
  | .ok next, .directory => some (tree, next)
  | .error error, _ =>
    match place with
    | .inside names .directory =>
      if error = .noSuchEntry then
        some (tree.insert (names ++ [name]) entry, .inside (names ++ [name]) entry)
      else none
    | _ => none

/-- The tree after an entry is made at a path, along with the directories on the way. -/
def make? (tree : FileTree) (path : String) (entry : Entry) : Option FileTree := do
  let names := pathNames path
  let (tree, place) ← names.dropLast.foldlM
    (fun (tree, place) name ↦ tree.put place name .directory) (tree, ← (start path).toOption)
  let (tree, _) ← tree.put place (names.getLastD "") entry
  return tree

/-- The tree of the given paths, each a file with its content or a directory, made in order. What
cannot be made at its path is left out. -/
def ofEntries (entries : List (String × Entry)) : FileTree :=
  entries.foldl (fun tree e ↦ (tree.make? e.1 e.2).getD tree) {}

/-! ## Opening a path -/

/-- The source that opening a file or a directory gives. -/
def Place.source : Place → Source
  | .inside _ (.file content) => .ofBytes content
  | .inside _ .directory => { script := [.failure .isADirectory] }
  | .outside => { script := [.failure .isADirectory] }

/-- Opens a path for reading. -/
def openPath (tree : FileTree) (path : String) : Except OpenError Source :=
  match tree.walk path with
  | .ok place => .ok place.source
  | .error failure => .error { path, failure }

end FileTree

end Linemark
