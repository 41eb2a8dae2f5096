import AssetServer.OsError
import AssetServer.Path
import AssetServer.Tree.Basic

/-!
# Looking up paths

How a path leads to a location: step by step from the root or the working directory, through the
links on the way. A step through anything but a directory fails, and so do names, paths and chains
of links that are too long.
-/

namespace AssetServer

/-- Where a path leads. -/
inductive Spot where
  /-- To an entry. -/
  | taken (location : Location) (entry : Entry)
  /-- To a name that its directory does not hold; `slash` tells whether the path goes on after it
      with slashes. -/
  | vacant (directory : Location) (name : String) (slash : Bool)
  deriving DecidableEq, Repr

namespace Tree

/-! ## §1 Limits -/

/-- The greatest number of bytes in a path. -/
def maxPathBytes : Nat := 4095

/-- The greatest number of bytes in a name. -/
def maxNameBytes : Nat := 255

/-- The greatest number of links that one lookup goes through. -/
def maxLinks : Nat := 40

/-! ## §2 Lookup -/

/-- How many parts the targets of all links have together: as many as one link can add to the parts
    that a lookup has yet to follow, at most. -/
def linkParts (t : Tree) : Nat :=
  (t.entries.map fun e => match e.2 with
    | .link target => (Text.parts '/' target).length
    | _ => 0).foldr (· + ·) 0

theorem length_parts_le_linkParts {t : Tree} {loc : Location} {target : String}
    (h : t.get? loc = some (.link target)) : (Text.parts '/' target).length ≤ t.linkParts := by
  unfold get? at h
  split at h
  · cases h
  · obtain ⟨before, after, hentries, -⟩ := List.lookup_eq_some_iff.mp h
    simp only [linkParts, hentries, List.map_append, List.map_cons, ← List.sum_eq_foldr,
      List.sum_append, List.sum_cons]
    omega

/-- Follows the parts of a path from the directory `here`, through at most `links` links. The link
    that a path ends in is gone through only if `follow` is set. -/
def walk (t : Tree) (follow : Bool) (links : Nat) (here : Location) :
    List String → Except OsError Spot
  | [] => .ok (.taken here .directory)
  | part :: rest =>
    if part = "" ∨ part = "." then t.walk follow links here rest
    else if part = ".." then t.walk follow links here.dropLast rest
    else if maxNameBytes < part.utf8ByteSize then .error .nameTooLong
    else
      let next := here ++ [part]
      match _ : t.get? next with
      | none => if rest.all (· == "") then .ok (.vacant here part (!rest.isEmpty))
          else .error .notFound
      | some .directory => t.walk follow links next rest
      | some (.file f) => if rest.isEmpty then .ok (.taken next (.file f)) else .error .notDirectory
      | some (.link target) =>
        if rest.isEmpty && !follow then .ok (.taken next (.link target))
        else match links with
          | 0 => .error .tooManyLinks
          | links + 1 =>
            let start := if target.toList.head? = some '/' then [] else here
            t.walk follow links start (Text.parts '/' target ++ rest)
termination_by parts => links * (t.linkParts + 1) + parts.length
decreasing_by
  all_goals simp_wf
  have := length_parts_le_linkParts ‹_›
  simp only [Nat.succ_mul]
  omega

/-- Where a path leads, as seen from the directory `cwd`. -/
def find (t : Tree) (cwd : Location) (follow : Bool) (p : Path) : Except OsError Spot :=
  if p.text.toList.contains '\x00' then .error .nulInName
  else if p.text = "" then .error .notFound
  else if maxPathBytes < p.text.utf8ByteSize then .error .nameTooLong
  else t.walk follow maxLinks (if p.isAbsolute then [] else cwd) (Text.parts '/' p.text)

/-- The entry that a path leads to through all links, and its location. -/
def stat (t : Tree) (cwd : Location) (p : Path) : Except OsError (Location × Entry) :=
  match t.find cwd true p with
  | .ok (.taken loc entry) => .ok (loc, entry)
  | .ok (.vacant ..) => .error .notFound
  | .error e => .error e

/-- Whether a path leads to anything. -/
def reaches (t : Tree) (cwd : Location) (p : Path) : Bool :=
  match t.stat cwd p with
  | .ok _ => true
  | .error _ => false

/-- Whether a path leads to a directory. -/
def isDirectory (t : Tree) (cwd : Location) (p : Path) : Bool :=
  match t.stat cwd p with
  | .ok (_, .directory) => true
  | _ => false

/-- Whether a path leads to a regular file. -/
def isFile (t : Tree) (cwd : Location) (p : Path) : Bool :=
  match t.stat cwd p with
  | .ok (_, .file _) => true
  | _ => false

/-- Whether a path leads to a regular file that may be executed. -/
def isExecutable (t : Tree) (cwd : Location) (p : Path) : Bool :=
  match t.stat cwd p with
  | .ok (_, .file f) => f.executable
  | _ => false

/-- The location that a path leads to through all links. -/
def canonical (t : Tree) (cwd : Location) (p : Path) : Except OsError Location :=
  (t.stat cwd p).map Prod.fst

/-- Whether two paths lead to the same place. If one of them leads nowhere, whether they have the
    same steps. -/
def samePlace (t : Tree) (cwd : Location) (a b : Path) : Bool :=
  match t.canonical cwd a, t.canonical cwd b with
  | .ok x, .ok y => x == y
  | _, _ => a.alike b

/-! ## §3 Reading -/

/-- What a path opens: a regular file, or a directory, which opens but cannot be read. -/
inductive Opened where
  | file (file : RegularFile)
  | directory
  deriving DecidableEq, Repr

/-- Opens a path for reading. -/
def openFile (t : Tree) (cwd : Location) (p : Path) : Except OsError Opened :=
  match t.stat cwd p with
  | .ok (_, .file f) => .ok (.file f)
  | .ok (_, _) => .ok .directory
  | .error e => .error e

/-- The content of something open. -/
def Opened.read : Opened → Except OsError Bytes
  | .file f => .ok f.content
  | .directory => .error .isDirectory

/-- The content of the file at a path. -/
def bytesAt (t : Tree) (cwd : Location) (p : Path) : Except OsError Bytes :=
  match t.openFile cwd p with
  | .ok opened => opened.read
  | .error e => .error e

/-- The location of a directory and the names in it, in the order of their bytes. -/
def list (t : Tree) (cwd : Location) (p : Path) : Except OsError (Location × List String) :=
  match t.stat cwd p with
  | .ok (loc, .directory) => .ok (loc, t.names loc)
  | .ok (_, _) => .error .notDirectory
  | .error e => .error e

end Tree

end AssetServer
