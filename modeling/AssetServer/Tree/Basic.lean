import AssetServer.Instant
import AssetServer.Text.Utf8

/-!
# Trees of files

A file system as a finite map from locations to entries. A location is the list of names from the
root, without links and without `.` or `..`; the root itself is always a directory.

Each change is pinned by what `Tree.get?` sees afterwards: `get?_put_self`, `get?_put_of_ne`.
-/

namespace AssetServer

/-- The names that lead from the root to an entry. -/
abbrev Location := List String

/-- A file that holds data. -/
structure RegularFile where
  content : Bytes
  /-- Permission bits. -/
  mode : Nat
  /-- When the content was last written. -/
  modified : Instant
  deriving DecidableEq, Repr, Inhabited

namespace RegularFile

/-- The permission bits of files that are written without a mode of their own. -/
def defaultMode : Nat := 0o644

/-- Whether anyone may execute the file. -/
def executable (f : RegularFile) : Bool :=
  f.mode &&& 0o111 != 0

/-- Whether its owner may execute the file. All files here have one owner, who runs the programs. -/
def ownerExecutes (f : RegularFile) : Bool :=
  f.mode &&& 0o100 != 0

/-- Whether its owner may write to the file. -/
def ownerWrites (f : RegularFile) : Bool :=
  f.mode &&& 0o200 != 0

end RegularFile

/-- What a location holds. -/
inductive Entry where
  | directory
  | file (file : RegularFile)
  /-- A symbolic link, with the path it stands for. -/
  | link (target : String)
  deriving DecidableEq, Repr, Inhabited

/-- A file system. -/
structure Tree where
  entries : List (Location × Entry)
  deriving DecidableEq, Repr, Inhabited

namespace Tree

/-- The file system that holds its root alone. -/
def empty : Tree := ⟨[]⟩

/-- What a location holds. -/
def get? (t : Tree) (loc : Location) : Option Entry :=
  if loc = [] then some .directory else t.entries.lookup loc

/-- The tree with `entry` at a location, in place of what was there. -/
def put (t : Tree) (loc : Location) (entry : Entry) : Tree :=
  ⟨(loc, entry) :: t.entries.filter (fun e => e.1 != loc)⟩

/-- The tree without a location and everything below it. -/
def delete (t : Tree) (loc : Location) : Tree :=
  ⟨t.entries.filter (fun e => !loc.isPrefixOf e.1)⟩

/-- Names in the order of their bytes with one more at its place. -/
def insertName (n : String) : List String → List String
  | [] => [n]
  | m :: rest => if m < n then m :: insertName n rest else n :: m :: rest

/-- The names in a directory, in the order of their bytes. -/
def names (t : Tree) (dir : Location) : List String :=
  let below := t.entries.filterMap fun e =>
    if e.1.length = dir.length + 1 ∧ dir.isPrefixOf e.1 then e.1.getLast? else none
  below.foldr insertName []

/-- The entries below a location, each with the names that lead to it from there. -/
def below (t : Tree) (loc : Location) : List (Location × Entry) :=
  t.entries.filterMap fun e =>
    if loc.isPrefixOf e.1 ∧ e.1 ≠ loc then some (e.1.drop loc.length, e.2) else none

/-- The tree with a directory at a location, unless something is there already. -/
def ensureDirectory (t : Tree) (loc : Location) : Tree :=
  match t.get? loc with
  | some _ => t
  | none => t.put loc .directory

/-- The tree with directories at a location and all the way to it. -/
def ensureDirectories (t : Tree) (loc : Location) : Tree :=
  ((List.range (loc.length + 1)).map loc.take).foldl ensureDirectory t

/-! ## Views -/

theorem get?_put_self (t : Tree) {loc : Location} (h : loc ≠ []) (entry : Entry) :
    (t.put loc entry).get? loc = some entry := by
  simp [get?, put, h]

theorem lookup_filter_ne (entries : List (Location × Entry)) {loc other : Location}
    (h : other ≠ loc) :
    (entries.filter (fun e => e.1 != loc)).lookup other = entries.lookup other := by
  induction entries with
  | nil => rfl
  | cons e rest ih =>
    obtain ⟨l, entry⟩ := e
    by_cases hl : l = loc
    · subst hl
      have hne : (other == l) = false := by simpa using h
      simpa [List.lookup_cons, hne] using ih
    · simp [hl, List.lookup_cons, ih]

theorem get?_put_of_ne (t : Tree) {loc other : Location} (h : other ≠ loc) (entry : Entry) :
    (t.put loc entry).get? other = t.get? other := by
  unfold get? put
  split
  · rfl
  · have hne : (other == loc) = false := by simpa using h
    simp [List.lookup_cons, hne, lookup_filter_ne _ h]

end Tree

end AssetServer
