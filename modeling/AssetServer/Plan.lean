import AssetServer.Kind
import AssetServer.Pipeline

/-!
# Build plans

What has to run to compile one source. A plan is made before anything runs: every tool it needs is
located first, so a missing tool fails here and not half way through a run.

- `Compiler` pairs a toolchain with settings; its functions give the command line of each tool.
- `Compiler.plan` makes the plan for a source of a given kind.
-/

namespace AssetServer

/-- What has to run to compile a source. -/
inductive Plan where
  /-- Nothing: the source is copied. -/
  | passthrough (source : Path)
  /-- The units of a manifest, one after another. -/
  | bundle (manifest : Path)
  /-- A pipeline whose output is the result. -/
  | stream (pipeline : Pipeline)
  /-- A pipeline that writes an artifact into a scratch directory. The artifact is the result, or
      what the optimizer makes of it. -/
  | intermediate (compile : Pipeline) (artifact : Path) (optimize : Option Pipeline)
      (scratch : Path)
  deriving DecidableEq, Repr

/-! ## §1 Scratch directories -/

namespace Host

/-- The directory in which scratch directories are made. -/
def temporaryPath (h : Host) : Path :=
  ⟨(h.setting? "TMPDIR").getD "/tmp"⟩

/-- The name of the `n`-th scratch directory. -/
def scratchName (n : Nat) : String :=
  let digits := toString n
  "kiln-tsc" ++ String.ofList (List.replicate (6 - digits.length) '0') ++ digits

end Host

/-- Makes a new scratch directory. -/
def makeScratch : Act Path :=
  Act.ofPair fun h =>
    let path := h.temporaryPath.join (Host.scratchName h.scratches)
    match h.tree.makeDirectory h.directory path with
    | .ok tree => (.ok path, { h with tree, scratches := h.scratches + 1 })
    | .error e => (.error (.file h.temporaryPath e), h)

/-- Removes a scratch directory with all it holds. -/
def removeScratch (path : Path) (h : Host) : Host :=
  match h.tree.canonical h.directory path with
  | .ok loc => { h with tree := h.tree.delete loc }
  | .error _ => h

/-! ## §2 Command lines -/

/-- A toolchain and the settings to run it with. -/
structure Compiler where
  tools : Toolchain
  settings : Settings
  deriving DecidableEq, Repr, Inhabited

namespace Compiler

/-- The flags of the component compiler for a level. -/
def componentFlags : Level → List String
  | .none => []
  | .basic => ["--release"]
  | .advanced => ["--release", "--optimize", "no-assert,no-log,inline,return-if"]

/-- The command line of the component compiler. It runs in the directory of the source, so that its
    output never holds more of the path than the file name; search directories are made absolute
    first. -/
def component (c : Compiler) (h : Host) (source : Path) : Command :=
  let search := c.settings.componentIncludes.flatMap fun dir =>
    ["--add-search-path", ((h.absolute? dir).getD dir).text]
  let command := (Command.ofTool c.tools.component).append
    (search ++ componentFlags c.settings.level)
  match source.parent, source.fileName with
  | some dir, some name =>
    if dir.text = "" then command.append [source.text]
    else { command.append [name] with directory := some dir }
  | _, _ => command.append [source.text]

/-- The command line of the typed-superset compiler, which writes to `artifact`. -/
def typescript (c : Compiler) (source artifact : Path) : Command :=
  (Command.ofTool c.tools.typescript).append ["--out", artifact.text, source.text]

/-- The flags of the stylesheet compiler for a level. -/
def stylesheetFlags : Level → List String
  | .none => []
  | .basic => ["--style", "compact"]
  | .advanced => ["--style", "compressed"]

/-- The command line of the stylesheet compiler. -/
def stylesheet (c : Compiler) (source : Path) : Command :=
  let search := c.settings.stylesheetIncludes.flatMap fun dir => ["-I", dir.text]
  (Command.ofTool c.tools.stylesheet).append
    (stylesheetFlags c.settings.level ++ search ++ [source.text])

/-- The command line of the preprocessor. -/
def preprocessor (c : Compiler) (source : Path) : Command :=
  let search := c.settings.preprocessorIncludes.map fun dir => "-I" ++ dir.text
  (Command.ofTool c.tools.preprocessor).append
    (c.settings.preprocessorFlags ++ search ++ [source.text])

/-- How the optimizer is told a level. -/
def optimizerLevel : Level → String
  | .advanced => "ADVANCED"
  | .none | .basic => "SIMPLE"

/-- The command line of the optimizer, which reads a script and writes a script. -/
def optimizer (c : Compiler) : Command :=
  let externs := c.settings.externs.flatMap fun file => ["--externs", file.text]
  (Command.ofTool c.tools.optimizer).append
    (["--compilation_level", optimizerLevel c.settings.level] ++ externs)

/-- The optimizer stage of a kind at the compiler's level, if it has one. -/
def optimizerStage? (c : Compiler) (kind : Kind) : Option Command :=
  if kind.optimized && c.settings.level.optimizes then some c.optimizer else none

/-! ## §3 Plans -/

/-- Locates the tools of a pipeline. -/
def located (h : Host) (p : Pipeline) : Except Failure Pipeline :=
  match p.resolveTools h with
  | (_, some failure) => .error failure
  | (p, none) => .ok p

/-- The plan that streams a source through `first` and then the optimizer, if there is one. -/
def streamPlan (h : Host) (first : Command) (optimizer : Option Command) : Except Failure Plan :=
  (located h ⟨first :: optimizer.toList⟩).map .stream

/-- The plan that compiles a source into a scratch file, the scratch directory being made. -/
def intermediatePlan (c : Compiler) (h : Host) (source scratch : Path)
    (optimizer : Option Command) : Except Failure Plan := do
  let artifact := scratch.join "out.js"
  let compile ← located h ⟨[c.typescript source artifact]⟩
  match optimizer with
  | none => return .intermediate compile artifact none scratch
  | some stage => return .intermediate compile artifact (some (← located h ⟨[stage]⟩)) scratch

/-- Makes the plan for a source. No process is started, and a plan that fails leaves no scratch
    directory. -/
def plan (c : Compiler) (kind : Kind) (source : Path) : Act Plan := do
  let optimizer := c.optimizerStage? kind
  match kind.frontEnd? with
  | none => throw (.unsupportedKind kind.label source)
  | some .copy => return .passthrough source
  | some .manifest => return .bundle source
  | some .component => Act.read fun h => streamPlan h (c.component h source) optimizer
  | some .stylesheet => Act.read fun h => streamPlan h (c.stylesheet source) optimizer
  | some .preprocessor => Act.read fun h => streamPlan h (c.preprocessor source) optimizer
  | some .typeScript => do
    let scratch ← makeScratch
    Act.ofPair fun h =>
      match c.intermediatePlan h source scratch optimizer with
      | .ok plan => (.ok plan, h)
      | .error e => (.error e, removeScratch scratch h)

end Compiler

end AssetServer
