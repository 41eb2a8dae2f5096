import AssetServer.Text.Split

/-!
# File paths

A path is text that names a place in a file system. Its slashes cut it into parts; empty parts and
the part `.` name nothing, so they do not count, except a leading `.` that keeps a path from being
empty. Operations work on the text and leave the spelling of what they keep as it was.

- `Path.join` appends, `Path.parent` and `Path.fileName` take the last part off.
- `Path.components` is the reading of a path as steps; two spellings are alike when they have the
  same steps (`Path.alike`).
- `Path.absolute` makes a path independent of the working directory.
-/

namespace AssetServer

/-- The text of a file path. -/
structure Path where
  text : String
  deriving DecidableEq, Repr, Inhabited

namespace Path

/-! ## §1 Parts of the text -/

/-- One step of a path. -/
inductive Component where
  /-- The root of the file system. -/
  | root
  /-- The directory that a relative path starts from, written `.`. -/
  | here
  /-- The directory above, written `..`. -/
  | up
  /-- An entry of a directory. -/
  | name (name : String)
  deriving DecidableEq, Repr

/-- What comes before the first part, a slash or a dot, and the text after it. -/
def lead : List Char → List Char × List Char
  | '/' :: body => (['/'], body)
  | ['.'] => (['.'], [])
  | '.' :: '/' :: body => (['.'], '/' :: body)
  | body => ([], body)

/-- Whether a part between slashes is a step. -/
def isStep (part : List Char) : Bool :=
  part != [] && part != ['.']

/-- Parts up to the last one that is a step. -/
def trimParts (parts : List (List Char)) : List (List Char) :=
  (parts.reverse.dropWhile (fun part => !isStep part)).reverse

/-- The parts after the lead, up to the last step. -/
def parts (p : Path) : List (List Char) :=
  trimParts (Text.split '/' (lead p.text.toList).2)

/-- The path with a given lead and given parts. -/
def ofParts (start : List Char) (parts : List (List Char)) : Path :=
  ⟨String.ofList (start ++ Text.unite '/' parts)⟩

/-- The step that a part stands for. -/
def Component.ofPart (part : List Char) : Component :=
  if part = ['.', '.'] then .up else .name (String.ofList part)

/-- The steps of a path. -/
def components (p : Path) : List Component :=
  let first : List Component := match (lead p.text.toList).1 with
    | ['/'] => [.root]
    | ['.'] => [.here]
    | _ => []
  first ++ (p.parts.filter isStep).map Component.ofPart

/-- Whether two paths have the same steps. -/
def alike (a b : Path) : Bool :=
  a.components == b.components

/-- Whether a path starts at the root. -/
def isAbsolute (p : Path) : Bool :=
  p.text.toList.head? == some '/'

/-! ## §2 Taking apart and putting together -/

/-- The last step, if it is the name of an entry. -/
def fileName (p : Path) : Option String :=
  match p.parts.getLast? with
  | some part => if part = ['.', '.'] then none else some (String.ofList part)
  | none => none

/-- The path without its last step. The root and the empty path have none to take off. -/
def parent (p : Path) : Option Path :=
  let start := (lead p.text.toList).1
  match p.parts with
  | [] => if start = ['.'] then some ⟨""⟩ else none
  | parts => some (ofParts start (trimParts parts.dropLast))

/-- `p` followed by `rest`, with one slash between them. An absolute `rest` stands alone. -/
def join (p : Path) (rest : String) : Path :=
  if rest.toList.head? = some '/' then ⟨rest⟩
  else if p.text.toList = [] ∨ p.text.toList.getLast? = some '/' then ⟨p.text ++ rest⟩
  else ⟨p.text ++ "/" ++ rest⟩

/-- The path with its last step replaced by `name`. -/
def withFileName (p : Path) (name : String) : Path :=
  match p.fileName, p.parent with
  | some _, some dir => dir.join name
  | _, _ => p.join name

/-! ## §3 Absolute paths -/

/-- The path of the place that `names` lead to from the root. -/
def ofNames (names : List String) : Path :=
  ⟨"/" ++ "/".intercalate names⟩

/-- The text that a step adds to a path. -/
def Component.text : Component → String
  | .root => "/"
  | .here => "."
  | .up => ".."
  | .name n => n

/-- The absolute path for `p` as seen from the directory `cwd`; none for the empty path. Steps `..`
    stay, since what they lead to depends on links. Exactly two leading slashes and a slash at the
    end stay as well. -/
def absolute? (p : Path) (cwd : Path) : Option Path :=
  let cs := p.text.toList
  if cs = [] then none
  else
    let steps := p.components.filter (fun c => c != .root && c != .here)
    let start : Path :=
      if p.isAbsolute then
        if cs.take 2 = ['/', '/'] ∧ cs.take 3 ≠ ['/', '/', '/'] then ⟨"//"⟩ else ⟨"/"⟩
      else cwd
    let body := steps.foldl (fun acc c => acc.join c.text) start
    some (if cs.getLast? = some '/' then body.join "" else body)

end Path

end AssetServer
