import AssetServer.Content

/-!
# Exports

Writes every source under the roots into a tree of static files: compiled sources under the name of
their output, other files as copies, fragments not at all. Entries are visited in the order of their
names, and a directory that is the destination itself is not entered.

- `Export.tree` exports some roots into a destination.
- `Content.exportTo` exports the sources of a server and makes the destination its first root.
-/

namespace AssetServer

/-- What an export has done. -/
structure Report where
  compiled : Nat
  copied : Nat
  /-- Fragments and files that were in place already. -/
  skipped : Nat
  deriving DecidableEq, Repr, Inhabited

/-- What an export tells while it runs. -/
inductive Progress where
  /-- A root is being entered. -/
  | root (path : Path)
  /-- A file has been written. -/
  | file (source output : Path) (kind : Kind)
  | done (report : Report)
  deriving DecidableEq, Repr

/-- An export under way. -/
structure Pass where
  host : Host
  report : Report
  progress : List Progress

/-- A step of an export. -/
abbrev ExportStep := ExceptT Failure (StateM Pass)

namespace ExportStep

/-- A step that acts on the host. -/
def ofAct {α : Type} (act : Act α) : ExportStep α :=
  ExceptT.mk fun pass =>
    let (result, host) := act.runOn pass.host
    (result, { pass with host })

/-- Reads from the host. -/
def look {α : Type} (f : Host → α) : ExportStep α :=
  ExceptT.mk fun pass => (.ok (f pass.host), pass)

/-- Adds a message. -/
def tell (message : Progress) : ExportStep Unit :=
  ExceptT.mk fun pass => (.ok (), { pass with progress := pass.progress ++ [message] })

/-- Changes the counts. -/
def count (f : Report → Report) : ExportStep Unit :=
  ExceptT.mk fun pass => (.ok (), { pass with report := f pass.report })

/-- The counts so far. -/
def report : ExportStep Report :=
  ExceptT.mk fun pass => (.ok pass.report, pass)

end ExportStep

/-- An export: what compiles its sources and where it goes. -/
structure Export where
  compiler : Compiler
  dest : Path
  /-- The location of the destination. -/
  location : Location
  deriving DecidableEq, Repr

namespace Export

/-- The path that names lead to from a path. -/
def descend (p : Path) (names : List String) : Path :=
  names.foldl Path.join p

/-- Copies a file to its place under the destination, unless it is there already. -/
def copy (source target : Path) : ExportStep Unit := do
  if ← ExportStep.look fun h => h.tree.samePlace h.directory source target then
    ExportStep.count fun r => { r with skipped := r.skipped + 1 }
  else
    ExportStep.ofAct (Compiler.makeParent target)
    ExportStep.ofAct (Act.ofPair fun h =>
      match h.tree.copyFile h.directory h.now source target with
      | .ok tree => (.ok (), { h with tree })
      | .error e => (.error (.file source e), h))
    ExportStep.count fun r => { r with copied := r.copied + 1 }
    ExportStep.tell (.file source target .passthrough)

/-- Exports one file; `names` lead to it from its root. -/
def file (x : Export) (root : Path) (names : List String) : ExportStep Unit := do
  let source := descend root names
  let target := x.dest.join ("/".intercalate names)
  match Kind.ofPath source with
  | .unknown => ExportStep.count fun r => { r with skipped := r.skipped + 1 }
  | .passthrough => copy source target
  | kind =>
    match kind.outputName? target with
    | none => ExportStep.count fun r => { r with skipped := r.skipped + 1 }
    | some output =>
      let _ ← ExportStep.ofAct (x.compiler.compileToFile kind source output)
      ExportStep.count fun r => { r with compiled := r.compiled + 1 }
      ExportStep.tell (.file source output kind)

/-- The names in a directory as it is now, each with whether it is a directory itself. -/
def entries (dir : Path) : ExportStep (List (String × Bool)) :=
  ExportStep.ofAct (Act.read fun h =>
    match h.tree.list h.directory dir with
    | .error e => .error (.file dir e)
    | .ok (loc, names) =>
      .ok (names.map fun n => (n, h.tree.get? (loc ++ [n]) == some .directory)))

/-- Exports what lies in the directory that `names` lead to from a root. Each directory is listed
    once, when it is entered. Paths longer than the host allows cannot be listed, so `room` levels
    are enough once it is that limit. -/
def walk (x : Export) (root : Path) : Nat → List String → ExportStep Unit
  | 0, names => throw (.file (descend root names) .nameTooLong)
  | room + 1, names => do
    (← entries (descend root names)).forM fun (name, isDirectory) => do
      let inner := names ++ [name]
      let path := descend root inner
      if isDirectory then
        let here ← ExportStep.look fun h => h.tree.canonical h.directory path
        if here.toOption == some x.location then return ()
        else x.walk root room inner
      else if ← ExportStep.look fun h => h.tree.isFile h.directory path then
        x.file root inner

/-- How many levels of directories a path can have. -/
def maxLevels : Nat := Tree.maxPathBytes + 1

/-- Exports one root. -/
def root (x : Export) (root : Path) : ExportStep Unit := do
  ExportStep.tell (.root root)
  x.walk root maxLevels []

/-- Makes the destination and finds its location. -/
def makeDestination (dest : Path) : Act Location := do
  Act.ofPair fun h =>
    match h.tree.makeDirectories h.directory dest with
    | (.ok (), tree) => (.ok (), { h with tree })
    | (.error e, tree) => (.error (.file dest e), { h with tree })
  Act.read fun h =>
    match h.tree.canonical h.directory dest with
    | .ok loc => .ok loc
    | .error e => .error (.file dest e)

/-- Exports some roots into a destination. -/
def all (roots : List Path) (dest : Path) (compiler : Compiler) : ExportStep Report := do
  let location ← ExportStep.ofAct (makeDestination dest)
  let x : Export := ⟨compiler, dest, location⟩
  roots.forM x.root
  let report ← ExportStep.report
  ExportStep.tell (.done report)
  return report

/-- Exports some roots into a destination. Gives the counts, what was told on the way and the host
    afterwards; what was written before a failure stays. -/
def tree (roots : List Path) (dest : Path) (compiler : Compiler) (h : Host) :
    Except Failure Report × List Progress × Host :=
  let (result, pass) := StateT.run (ExceptT.run (all roots dest compiler)) ⟨h, default, []⟩
  (result, pass.progress, pass.host)

end Export

namespace Content

/-- The content with an export as its first root, unless one of its roots is that place already. -/
def addExport (c : Content) (h : Host) (dest : Path) : Content :=
  if c.roots.any fun r => h.tree.samePlace h.directory r dest then c
  else { c with roots := dest :: c.roots, exports := c.exports ++ [dest] }

/-- Exports every source into a destination, which then becomes the first root. An export that fails
    leaves the roots as they were. -/
def exportTo (c : Content) (dest : Path) (h : Host) :
    Except Failure Report × List Progress × Content × Host :=
  match Export.tree c.sources dest c.compiler h with
  | (.error e, progress, h) => (.error e, progress, c, h)
  | (.ok report, progress, h) => (.ok report, progress, c.addExport h dest, h)

end Content

end AssetServer
