import AssetServer.Command

/-!
# Running scripts and utilities

A scene is what a running script or utility sees and changes: its files, variables, parameters and
streams. Utilities are functions on scenes, and so is a whole script.
-/

namespace AssetServer.Shell

/-- What a running script or utility sees and changes. -/
structure Scene where
  tree : Tree
  directory : Location
  environment : List (String × String)
  /-- The name of the script and its parameters. -/
  parameters : List String
  /-- What is left to read. -/
  input : Bytes
  /-- Whether reading fails, as it does for a directory. -/
  broken : Bool
  /-- What has been written. -/
  output : Bytes
  /-- How the last command ended. -/
  status : ExitStatus
  /-- Whether the script has ended. -/
  ended : Bool
  now : Instant
  deriving Repr

/-- What a utility does with its arguments. -/
abbrev Utility := List String → Scene → Scene

namespace Scene

/-- Ends a command with an exit code. -/
def exit (s : Scene) (code : UInt8) : Scene :=
  { s with status := .exited code }

/-- Ends a command with success or failure. -/
def succeed (s : Scene) (ok : Bool) : Scene :=
  s.exit (if ok then 0 else 1)

/-- Writes bytes. -/
def write (s : Scene) (data : Bytes) : Scene :=
  { s with output := s.output ++ data }

/-- Writes text. -/
def print (s : Scene) (text : String) : Scene :=
  s.write (Utf8.encode text)

/-- The content that reading a file gives. The null device is empty. -/
def bytesAt (s : Scene) (name : String) : Except OsError Bytes :=
  if name = "/dev/null" then .ok [] else s.tree.bytesAt s.directory ⟨name⟩

/-- Creates or empties a file; with `adding`, keeps what it holds. The null device takes anything
    and stays empty. None if the file cannot be written. -/
def openOutput? (s : Scene) (name : String) (adding : Bool) : Option (Option Location × Scene) :=
  if name = "/dev/null" then some (none, s)
  else
    let kept := if adding then (s.bytesAt name).toOption.getD [] else []
    match s.tree.createFile s.directory s.now ⟨name⟩ with
    | .ok (loc, tree) => some (some loc, { s with tree := tree.fill s.now loc kept })
    | .error _ => none

/-- Adds data to the file at a location. -/
def append (s : Scene) (loc : Location) (data : Bytes) : Scene :=
  match s.tree.get? loc with
  | some (.file f) => { s with tree := s.tree.fill s.now loc (f.content ++ data) }
  | _ => s

/-- The value of a variable, empty if it is not set. -/
def valueOf (s : Scene) (name : String) : String :=
  (s.environment.lookup name).getD ""

/-- Sets a variable. -/
def setVariable (s : Scene) (name value : String) : Scene :=
  { s with environment := Host.setVariable s.environment (name, value) }

end Scene

/-- The scene of a program that has just been started. -/
def Scene.ofInvocation (i : Invocation) (tree : Tree) : Scene where
  tree := tree
  directory := i.directory
  environment := i.environment
  parameters := []
  input := i.input
  broken := i.broken
  output := []
  status := .exited 0
  ended := false
  now := i.now

/-- The outcome of a program that ends with a scene. -/
def Scene.execution (s : Scene) : Execution :=
  ⟨s.output, s.status, s.input.length, s.tree⟩

/-- The program that is a utility. -/
def Utility.program (u : Utility) : Program := fun i tree =>
  (u i.arguments (Scene.ofInvocation i tree)).execution

end AssetServer.Shell
