import AssetServer.Plan

/-!
# Compilation

Runs the plan of a source and then appends the files that its directives name.

- `expand` follows the directives of a source: all of them are read before anything is written.
- `Compiler.compile` writes the compiled form of a source into a sink, `Compiler.compileToFile` into
  a new file.
- `Compiler.compileBundle` compiles the units of a manifest, each under its own settings, in order.
-/

namespace AssetServer

/-! ## §1 Files -/

/-- Copies the file at a path into the sink. -/
def copyFile (path : Path) : Emit Nat := do
  let data ← Emit.ofAct (Act.read fun h =>
    match h.tree.bytesAt h.directory path with
    | .ok data => .ok data
    | .error e => .error (.file path e))
  Emit.copy (.file path) data

/-- The directives of the source at a path. -/
def directivesOf (source : Path) : Act (List Directive) :=
  Act.read fun h =>
    match h.tree.bytesAt h.directory source with
    | .error e => .error (.file source e)
    | .ok data =>
      match Directive.scan data with
      | .error fault => .error (.directive source (.malformed fault))
      | .ok directives => .ok directives

/-- Appends a file that a directive of `source` names. -/
def appendFile (source path : Path) : Emit Nat := do
  let opened ← Emit.ofAct (Act.read fun h =>
    match h.tree.openFile h.directory path with
    | .ok opened => .ok opened
    | .error e => .error (.directive source (.cannotInclude path e)))
  match opened.read with
  | .ok data => Emit.copy (.file path) data
  | .error e => throw (.file path e)

/-- Appends files one after another. Gives the number of bytes. -/
def appendFiles (source : Path) : List Path → Emit Nat
  | [] => return 0
  | path :: rest => do
    let n ← appendFile source path
    let more ← appendFiles source rest
    return n + more

/-- Follows the directives of a source. Files are named relative to its directory. -/
def expand (source : Path) : Emit Nat := do
  let directives ← Emit.ofAct (directivesOf source)
  let dir := source.parent.getD ⟨""⟩
  appendFiles source ((Directive.files directives).map dir.join)

/-! ## §2 One source -/

/-- Runs a pipeline for its effect; what it writes is not part of the output. -/
def runAside (p : Pipeline) : Act Unit :=
  Act.ofPair fun h =>
    let (result, _, h) := (p.runInto .null).collect h
    (result.map fun _ => (), h)

/-- The actions of a plan with an artifact: make it, then pass it on. -/
def passArtifact (compile : Pipeline) (artifact : Path) (optimize : Option Pipeline) :
    Emit Nat := do
  Emit.ofAct (runAside compile)
  match optimize with
  | some p => p.runInto (.file artifact)
  | none => copyFile artifact

/-- Runs an action that needs a scratch directory, and removes that directory in every case. -/
def withScratch {α : Type} (scratch : Path) (act : Emit α) : Emit α :=
  Emit.ofPair fun o =>
    let (result, o) := act.runOn o
    (result, { o with host := removeScratch scratch o.host })

namespace Compiler

/-- Compiles a source that is no bundle: its plan, then its directives. Gives the number of bytes
    written. -/
def compileSource (c : Compiler) (kind : Kind) (source : Path) : Emit Nat := do
  match ← Emit.ofAct (c.plan kind source) with
  | .passthrough path => copyFile path
  | .bundle _ => return 0
  | .stream pipeline => do
    let n ← pipeline.runInto .null
    let more ← expand source
    return n + more
  | .intermediate compile artifact optimize scratch => do
    let n ← withScratch scratch (passArtifact compile artifact optimize)
    let more ← expand source
    return n + more

/-! ## §3 Bundles -/

/-- The manifest at a path, read afresh. -/
def loadManifest (path : Path) : Act Manifest :=
  Act.read fun h =>
    match h.tree.bytesAt h.directory path with
    | .error e => .error (.file path e)
    | .ok data =>
      match Manifest.read data with
      | .error fault => .error (.manifest path (.malformed fault))
      | .ok m => .ok m

/-- Why a unit cannot be compiled as part of a bundle, judged by its name alone. -/
def unitFailure? (manifest source : Path) (index : Nat) (u : BundleUnit) : Option Failure :=
  match Kind.ofPath source with
  | .bundle => some (.manifest manifest (.nested index u.file))
  | .passthrough => some (.unsupportedKind Kind.passthrough.label source)
  | .unknown => some (.unsupportedKind Kind.unknown.label source)
  | _ => none

/-- Compiles units from the place `index` on, one after another. -/
def compileUnits (c : Compiler) (manifest dir : Path) (m : Manifest) :
    Nat → List BundleUnit → Emit Nat
  | _, [] => return 0
  | index, u :: rest => do
    let source := dir.join u.file
    match unitFailure? manifest source index u with
    | some failure => throw failure
    | none =>
      let unitCompiler : Compiler := { c with settings := m.unitSettings u c.settings dir }
      let n ← unitCompiler.compileSource (Kind.ofPath source) source
      let more ← compileUnits c manifest dir m (index + 1) rest
      return n + more

/-- Compiles the units of the manifest at a path. The first that fails ends the bundle. -/
def compileBundle (c : Compiler) (manifest : Path) : Emit Nat := do
  let m ← Emit.ofAct (loadManifest manifest)
  c.compileUnits manifest (manifest.parent.getD ⟨""⟩) m 0 m.units

/-! ## §4 Any source -/

/-- Writes the compiled form of a source into the sink. Gives the number of bytes written. -/
def compile (c : Compiler) (kind : Kind) (source : Path) : Emit Nat :=
  if kind = .bundle then c.compileBundle source else c.compileSource kind source

/-- Makes the directory of a path and those above it. -/
def makeParent (dest : Path) : Act Unit :=
  match dest.parent with
  | none => return ()
  | some dir => Act.ofPair fun h =>
    match h.tree.makeDirectories h.directory dir with
    | (.ok (), tree) => (.ok (), { h with tree })
    | (.error e, tree) => (.error (.file dir e), { h with tree })

/-- Creates the file at a path, empty. Gives its location. -/
def createFile (dest : Path) : Act Location :=
  Act.ofPair fun h =>
    match h.tree.createFile h.directory h.now dest with
    | .ok (loc, tree) => (.ok loc, { h with tree })
    | .error e => (.error (.file dest e), h)

/-- Compiles a source into a newly created file, making directories as needed. The file is empty
    while the source is compiled; a compilation that fails leaves what it had written. -/
def compileToFile (c : Compiler) (kind : Kind) (source dest : Path) : Act Nat := do
  makeParent dest
  let loc ← createFile dest
  Act.ofPair fun h =>
    let (result, written, h) := (c.compile kind source).collect h
    (result, { h with tree := h.tree.fill h.now loc written })

end Compiler

end AssetServer
