import AssetServer.Tree.Lookup

/-!
# Changing files

Operations that make directories and write files, by path. Each gives the changed tree, or the
reason why nothing changed.
-/

namespace AssetServer.Tree

/-! ## §1 Directories -/

/-- Makes one directory. Its parent must exist, and it must not. -/
def makeDirectory (t : Tree) (cwd : Location) (p : Path) : Except OsError Tree :=
  match t.find cwd false p with
  | .ok (.taken ..) => .error .alreadyExists
  | .ok (.vacant dir name _) => .ok (t.put (dir ++ [name]) .directory)
  | .error e => .error e

/-- Makes a directory and those above it that are missing, going up at most `room` steps. Those
    made before a failure stay. -/
def makeDirectoriesWithin (t : Tree) (cwd : Location) : Nat → Path → Except OsError Unit × Tree
  | 0, _ => (.error .notFound, t)
  | room + 1, p =>
    if p.text = "" then (.ok (), t)
    else
      match t.makeDirectory cwd p with
      | .ok t => (.ok (), t)
      | .error e =>
        if e ≠ .notFound then
          if t.isDirectory cwd p then (.ok (), t) else (.error e, t)
        else
          match p.parent with
          | none => (.error .notFound, t)
          | some dir =>
            match t.makeDirectoriesWithin cwd room dir with
            | (.error e, t) => (.error e, t)
            | (.ok (), t) =>
              match t.makeDirectory cwd p with
              | .ok t => (.ok (), t)
              | .error e => if t.isDirectory cwd p then (.ok (), t) else (.error e, t)

/-- Makes a directory and those above it that are missing. -/
def makeDirectories (t : Tree) (cwd : Location) (p : Path) : Except OsError Unit × Tree :=
  t.makeDirectoriesWithin cwd (p.text.length + 1) p

/-! ## §2 Files -/

/-- Where writing to a path goes, and the mode of the file there: the file that the path leads to,
    or a new one. -/
def target (t : Tree) (cwd : Location) (p : Path) (mode : Nat) : Except OsError (Location × Nat) :=
  match t.find cwd true p with
  | .ok (.taken loc (.file f)) =>
    if f.ownerWrites then .ok (loc, f.mode) else .error .permissionDenied
  | .ok (.taken ..) => .error .isDirectory
  | .ok (.vacant dir name slash) =>
    if slash then .error .isDirectory else .ok (dir ++ [name], mode)
  | .error e => .error e

/-- Creates the file at a path, or empties the one that is there. Gives its location. -/
def createFile (t : Tree) (cwd : Location) (now : Instant) (p : Path) :
    Except OsError (Location × Tree) :=
  match t.target cwd p RegularFile.defaultMode with
  | .ok (loc, mode) => .ok (loc, t.put loc (.file ⟨[], mode, now⟩))
  | .error e => .error e

/-- The tree with new content in the file at a location. -/
def fill (t : Tree) (now : Instant) (loc : Location) (content : Bytes) : Tree :=
  match t.get? loc with
  | some (.file f) => t.put loc (.file { f with content, modified := now })
  | _ => t

/-- Copies a regular file with its permission bits. -/
def copyFile (t : Tree) (cwd : Location) (now : Instant) (source dest : Path) :
    Except OsError Tree :=
  match t.openFile cwd source with
  | .error e => .error e
  | .ok .directory => .error .notRegular
  | .ok (.file f) =>
    match t.target cwd dest f.mode with
    | .error e => .error e
    | .ok (loc, _) => .ok (t.put loc (.file ⟨f.content, f.mode, now⟩))

end AssetServer.Tree
