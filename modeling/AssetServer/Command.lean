import AssetServer.Host

/-!
# Commands

What one stage of a pipeline runs: a program with its arguments, and where it differs from the
server, its working directory and environment.

`Host.launch` finds what running a command would do, in the way of the operating system: links are
followed, permission is checked, scripts name their interpreter, and a bare name is searched for in
`PATH`.
-/

namespace AssetServer

/-- The description of one process to run. -/
structure Command where
  program : Path
  /-- The role of the tool, if the command runs one. -/
  role : Option String
  arguments : List String
  directory : Option Path
  /-- Variables set on top of the inherited environment. -/
  bindings : List (String × String)
  deriving DecidableEq, Repr, Inhabited

namespace Command

/-- A command without arguments. -/
def ofProgram (program : Path) : Command :=
  ⟨program, none, [], none, []⟩

/-- The command that runs a tool with its leading arguments. -/
def ofTool (tool : Tool) : Command :=
  ⟨tool.program, some tool.name, tool.arguments, none, []⟩

/-- The command with arguments added at the end. -/
def append (c : Command) (arguments : List String) : Command :=
  { c with arguments := c.arguments ++ arguments }

/-- How messages name a command: by its role, else by the file name of its program. -/
def name (c : Command) : String :=
  match c.role with
  | some role => role
  | none => c.program.fileName.getD c.program.text

/-- The command line as text. -/
def display (c : Command) : String :=
  " ".intercalate (c.program.text :: c.arguments)

end Command

/-! ## §1 Finding what runs -/

/-- A process that can be started: its program and what it is given, except its input. -/
structure Launch where
  program : Program
  arguments : List String
  directory : Location
  environment : List (String × String)

namespace Host

/-- The interpreter that a script names in its first line, and the argument that the line adds. -/
def interpreter? (content : Bytes) : Option (String × List String) :=
  match content with
  | 0x23 :: 0x21 :: rest =>
    let line := Text.trim (Utf8.decodeLossy (rest.takeWhile (· != 0x0A))).toList
    let name := line.takeWhile (fun c => c != ' ' && c != '\t')
    let argument := Text.trim (line.drop name.length)
    some (String.ofList name, if argument.isEmpty then [] else [String.ofList argument])
  | _ => none

/-- What executing the file at a path does, and the arguments it runs with. Scripts may name scripts
    as their interpreters up to `depth` times. -/
def execute (h : Host) (cwd : Location) : Nat → Path → List String →
    Except OsError (Program × List String)
  | 0, _, _ => .error .tooManyLinks
  | depth + 1, p, arguments =>
    match h.tree.stat cwd p with
    | .error e => .error e
    | .ok (_, .directory) => .error .permissionDenied
    | .ok (_, .link _) => .error .tooManyLinks
    | .ok (loc, .file f) =>
      if !f.ownerExecutes then .error .permissionDenied
      else match h.programs loc, interpreter? f.content with
        | some program, _ => .ok (program, arguments)
        | none, some (name, extra) =>
          h.execute cwd depth ⟨name⟩ (extra ++ p.text :: arguments)
        | none, none => .error .badFormat

/-- Tries the directories of `PATH` in order. A candidate that is missing is passed over, and so is
    one that may not be executed, which is reported if no other is found. -/
def search (h : Host) (cwd : Location) (program : String) (arguments : List String)
    (denied : Bool) : List String → Except OsError (Program × List String)
  | [] => .error (if denied then .permissionDenied else .notFound)
  | dir :: dirs =>
    match h.execute cwd 5 ((Path.mk (if dir = "" then "." else dir)).join program) arguments with
    | .ok found => .ok found
    | .error e =>
      if e = .notFound ∨ e = .notDirectory then h.search cwd program arguments denied dirs
      else if e = .permissionDenied then h.search cwd program arguments true dirs
      else .error e

/-- The environment with one variable set. -/
def setVariable (environment : List (String × String)) (v : String × String) :
    List (String × String) :=
  environment.filter (·.1 != v.1) ++ [v]

/-- Finds what running a command would do. -/
def launch (h : Host) (c : Command) : Except OsError Launch :=
  if (c.program.text :: c.arguments).any (·.toList.contains '\x00') then .error .nulInArgument
  else
    let environment := c.bindings.foldl setVariable h.environment
    let cwd : Except OsError Location := match c.directory with
      | none => .ok h.directory
      | some dir =>
        match h.tree.stat h.directory dir with
        | .ok (loc, .directory) => .ok loc
        | .ok (_, _) => .error .notDirectory
        | .error e => .error e
    match cwd with
    | .error e => .error e
    | .ok cwd =>
      let found :=
        if c.program.text = "" then .error .notFound
        else if c.program.text.toList.contains '/' then h.execute cwd 5 c.program c.arguments
        else
          let path := (environment.lookup "PATH").getD "/bin:/usr/bin"
          h.search cwd c.program.text c.arguments false (Text.parts ':' path)
      match found with
      | .error e => .error e
      | .ok (program, arguments) => .ok ⟨program, arguments, cwd, environment⟩

end Host

end AssetServer
