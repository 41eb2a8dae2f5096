import AssetServer.Path
import AssetServer.Text.Utf8

/-!
# Kinds of source files

The name of a file decides what it is: a source that compiles into a script or a stylesheet, a
fragment that only other sources include, or a file that is used as it is.

- `Kind.ofName` classifies a file name by its ending, `Kind.ofPath` a path by its file name.
- `Kind.outputName` names what a source compiles into, `Output.ofText?` recognises what a request
  asks for, and `Output.candidates` lists the kinds that produce it. Names and requests fit together
  through one table, `Kind.suffix`.
-/

namespace AssetServer

/-! ## §1 Kinds -/

/-- What a source file is. -/
inductive Kind where
  /-- A component source, ending in `.main.jsx`. -/
  | component
  /-- A source of the typed superset of the script language, ending in `.main.ts`. -/
  | typedSuperset
  /-- A stylesheet source, ending in `.main.scss`. -/
  | stylesheet
  /-- A script with macros, ending in `.main.js`. -/
  | preprocessedScript
  /-- A manifest of several units, ending in `.barrel`. -/
  | bundle
  /-- Used byte for byte. -/
  | passthrough
  /-- A fragment for inclusion: neither compiled on its own nor copied. -/
  | unknown
  deriving DecidableEq, Repr, Inhabited

namespace Kind

/-- The kinds that are compiled, in the order in which endings are matched. -/
def compiled : List Kind :=
  [.component, .typedSuperset, .stylesheet, .preprocessedScript, .bundle]

/-- The ending that marks a compiled kind. -/
def suffix? : Kind → Option String
  | .component => some ".main.jsx"
  | .typedSuperset => some ".main.ts"
  | .stylesheet => some ".main.scss"
  | .preprocessedScript => some ".main.js"
  | .bundle => some ".barrel"
  | .passthrough | .unknown => none

/-- Endings of files that exist only for inclusion. -/
def fragmentSuffixes : List String :=
  [".jsx", ".ts", ".scss"]

/-- `text` without its ending `suffix`. -/
def stem? (text suffix : String) : Option String :=
  if suffix.toList.isSuffixOf text.toList then
    some (String.ofList (text.toList.take (text.length - suffix.length)))
  else none

/-- Whether `text` ends in `suffix`. -/
def endsIn (text suffix : String) : Bool :=
  suffix.toList.isSuffixOf text.toList

/-- The kind of a file by its name. -/
def ofName (name : String) : Kind :=
  match compiled.find? (fun k => k.suffix?.any (endsIn name)) with
  | some k => k
  | none => if fragmentSuffixes.any (endsIn name) then .unknown else .passthrough

/-- The kind of the file at a path. A path without a file name is used as it is. -/
def ofPath (p : Path) : Kind :=
  match p.fileName with
  | some name => ofName name
  | none => .passthrough

/-- How messages name a kind. -/
def label : Kind → String
  | .component => "component"
  | .typedSuperset => "typed-superset"
  | .stylesheet => "stylesheet"
  | .preprocessedScript => "preprocessed-script"
  | .bundle => "bundle"
  | .passthrough => "passthrough"
  | .unknown => "unknown"

end Kind

/-! ## §2 Outputs -/

/-- What sources compile into. -/
inductive Output where
  | script
  | stylesheet
  deriving DecidableEq, Repr, Inhabited

namespace Output

/-- The ending of an output's name. -/
def extension : Output → String
  | .script => ".js"
  | .stylesheet => ".css"

/-- The media type of an output. -/
def mediaType : Output → String
  | .script => "text/javascript"
  | .stylesheet => "text/css"

/-- The output that a requested path names by its ending. -/
def ofText? (text : String) : Option Output :=
  if Kind.endsIn text Output.script.extension then some .script
  else if Kind.endsIn text Output.stylesheet.extension then some .stylesheet
  else none

/-- The kinds that compile into an output, in the order in which they are tried. -/
def candidates : Output → List Kind
  | .script => [.component, .typedSuperset, .preprocessedScript, .bundle]
  | .stylesheet => [.stylesheet]

end Output

namespace Kind

/-- What a kind compiles into. -/
def output? : Kind → Option Output
  | .component | .typedSuperset | .preprocessedScript | .bundle => some .script
  | .stylesheet => some .stylesheet
  | .passthrough | .unknown => none

/-- The name of the output of a source name: its ending replaced. -/
def outputFileName? (k : Kind) (name : String) : Option String := do
  let suffix ← k.suffix?
  let output ← k.output?
  let stem ← stem? name suffix
  some (stem ++ output.extension)

/-- The path of the output of a source, in the directory of the source. -/
def outputName? (k : Kind) (source : Path) : Option Path := do
  let name ← source.fileName
  let outputName ← k.outputFileName? name
  some (source.withFileName outputName)

/-! ## §3 Recipes -/

end Kind

/-- The tool that a source passes through first. -/
inductive FrontEnd where
  /-- No tool: bytes are used unchanged. -/
  | copy
  | component
  /-- Writes to a scratch file instead of its output. -/
  | typeScript
  | stylesheet
  | preprocessor
  /-- No tool of its own: the units of a manifest, one after another. -/
  | manifest
  deriving DecidableEq, Repr, Inhabited

/-- How a name of a front end is written. -/
def FrontEnd.label : FrontEnd → String
  | .copy => "Copy"
  | .component => "Component"
  | .typeScript => "TypeScript"
  | .stylesheet => "Stylesheet"
  | .preprocessor => "Preprocessor"
  | .manifest => "Manifest"

namespace Kind

/-- The front end of a kind; fragments have none. -/
def frontEnd? : Kind → Option FrontEnd
  | .passthrough => some .copy
  | .component => some .component
  | .typedSuperset => some .typeScript
  | .stylesheet => some .stylesheet
  | .preprocessedScript => some .preprocessor
  | .bundle => some .manifest
  | .unknown => none

/-- Whether a kind's output passes through the optimizer above level `none`. -/
def optimized : Kind → Bool
  | .component | .typedSuperset | .preprocessedScript => true
  | .stylesheet | .bundle | .passthrough | .unknown => false

/-! ## §4 Names that may not be text -/

/-- Whether the last step of a path given as bytes is UTF-8. The part after the last slash counts,
    without trailing slashes and parts `.`. -/
def hasTextName (raw : Bytes) : Bool :=
  let slash : UInt8 := 0x2F
  let dot : UInt8 := 0x2E
  let cut := raw.foldr (fun b (parts : List Bytes) => match parts with
    | [] => if b = slash then [[], []] else [[b]]
    | part :: more => if b = slash then [] :: part :: more else (b :: part) :: more) []
  match (cut.reverse.dropWhile (fun part => part == [] || part == [dot])).head? with
  | some name => (Utf8.decode? name).isSome
  | none => true

/-- The kind of the file at a path given as bytes. A name that is not text is used as it is. -/
def ofBytes (raw : Bytes) : Kind :=
  if hasTextName raw then ofPath ⟨Utf8.decodeLossy raw⟩ else .passthrough

/-- The path of the output of a source given as bytes. A name that is not text has none. -/
def outputNameOfBytes? (k : Kind) (raw : Bytes) : Option Path :=
  if hasTextName raw then k.outputName? ⟨Utf8.decodeLossy raw⟩ else none

end Kind

end AssetServer
