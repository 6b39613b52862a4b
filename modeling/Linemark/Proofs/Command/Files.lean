import Linemark.FileTree
import Linemark.Proofs.Line.Characters

/-!
# What can be opened

A path that opens leads to a file of the tree or to a directory. The input that it gives is the
content of that file, or nothing. So what holds of all files of a tree, and of no lines at all,
holds of every input that can be opened in it: in particular that counting its lines and columns
does not come to its limit.

A walk may begin and turn round in directories whose names are not in the tree, so no place is known
by its names alone. But a place that is a file was looked up in the last step of its walk
(`FileTree.isOf_of_step`), and nothing has to be known of the places before it.
-/

namespace Linemark

/-- All characters of every input that opens have positions of their own. -/
def AddressableInputs (openPath : String → Except OpenError Source) : Prop :=
  ∀ path source, openPath path = .ok source →
    RawLine.Addressable (RawLine.ofBytes source.delivered)

namespace FileTree

/-- All characters of all files have positions of their own. -/
def Addressable (tree : FileTree) : Prop :=
  ∀ names content, tree.find? names = some (.file content) →
    RawLine.Addressable (RawLine.ofBytes content)

/-- A place that is a file is one of the files of the tree. -/
def Place.IsOf (tree : FileTree) : Place → Prop
  | .inside _ (.file content) => ∃ names, tree.find? names = some (.file content)
  | .inside _ .directory => True
  | .outside => True

variable {tree : FileTree} {path : String}

private theorem isOf_of_find? {names : List String} {entry : Entry}
    (h : tree.find? names = some entry) : (Place.inside names entry).IsOf tree := by
  cases entry with
  | file content => exact ⟨names, h⟩
  | directory => exact trivial

/-- Where a name leads to is a place of the tree. -/
theorem isOf_of_step {place next : Place} {name : String} (h : tree.step place name = .ok next) :
    next.IsOf tree := by
  revert h
  fun_cases step tree place name
  all_goals
    intro h
    cases h
  case case6 hfind => exact isOf_of_find? hfind
  all_goals exact trivial

private theorem isOf_of_foldlM_step {place next : Place} {names : List String}
    (hplace : place.IsOf tree) (h : names.foldlM tree.step place = .ok next) : next.IsOf tree := by
  induction names generalizing place with
  | nil =>
    obtain rfl : place = next := Except.ok.inj h
    exact hplace
  | cons name names ih =>
    rw [List.foldlM_cons] at h
    cases hstep : tree.step place name with
    | error error =>
      rw [hstep] at h
      cases h
    | ok mid =>
      rw [hstep] at h
      exact ih (isOf_of_step hstep) h

private theorem isOf_of_start {place : Place} (h : start path = .ok place) : place.IsOf tree := by
  simp only [start, bind, Except.bind, pure, Except.pure, throw, throwThe, MonadExceptOf.throw] at h
  repeat' split at h
  all_goals cases h
  all_goals exact trivial

/-- Where a path leads to is a place of the tree. -/
theorem isOf_of_walk {place : Place} (h : tree.walk path = .ok place) : place.IsOf tree := by
  rw [walk] at h
  cases hstart : start path with
  | error failure =>
    rw [hstart] at h
    cases h
  | ok first =>
    rw [hstart] at h
    change ((pathNames path).foldlM tree.step first).mapError Failure.system = .ok place at h
    cases hwalk : (pathNames path).foldlM tree.step first with
    | error error =>
      rw [hwalk] at h
      cases h
    | ok last =>
      rw [hwalk] at h
      obtain rfl : last = place := Except.ok.inj h
      exact isOf_of_foldlM_step (isOf_of_start hstart) hwalk

/-- What can be read of a place. -/
def Place.content : Place → Bytes
  | .inside _ (.file content) => content
  | .inside _ .directory => []
  | .outside => []

private theorem delivered_source (place : Place) : place.source.delivered = place.content := by
  cases place with
  | inside names entry =>
    cases entry with
    | file content => exact Source.delivered_ofBytes content
    | directory => rfl
  | outside => rfl

/-- Every input that can be opened is addressable if the files are. -/
theorem Addressable.inputs (h : tree.Addressable) : AddressableInputs tree.openPath := by
  intro path source hopen
  rw [openPath] at hopen
  cases hwalk : tree.walk path with
  | error failure =>
    rw [hwalk] at hopen
    cases hopen
  | ok place =>
    rw [hwalk] at hopen
    obtain rfl : place.source = source := Except.ok.inj hopen
    have hplace := isOf_of_walk hwalk
    have hnothing : RawLine.Addressable (RawLine.ofBytes []) := by
      rw [RawLine.ofBytes_nil]
      decide
    rw [delivered_source]
    match place, hplace with
    | .inside _ (.file content), ⟨names, hfind⟩ => exact h names content hfind
    | .inside _ .directory, _ => exact hnothing
    | .outside, _ => exact hnothing

end FileTree

end Linemark
