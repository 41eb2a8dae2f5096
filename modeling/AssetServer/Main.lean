import AssetServer.CommandLine.Parse
import AssetServer.CommandLine.Run
import AssetServer.Shell.Run

/-!
# The program

Runs a command line. The files below the working directory, below the directory of the user's
configuration and below the paths of the command line are loaded into a host; the task is carried
out there, and what it has changed is written back. The tools are those that `Shell.installed`
knows, and scripts for its shell.

A server takes its requests from standard input, in each line a method and a target.
-/

namespace AssetServer.Main

/-! ## §1 Loading -/

/-- A file with its content. Permissions cannot be seen from here, so any file may be executed. -/
def fileEntry (path : String) (modified : IO.FS.SystemTime) : IO Entry := do
  let data ← IO.FS.readBinFile path
  return .file ⟨data.toList, 0o755, ⟨modified.sec, modified.nsec.toNat⟩⟩

/-- The entries below a directory that can be read. -/
partial def entriesBelow (loc : Location) : IO (List (Location × Entry)) := do
  let here ← IO.FS.realPath (Path.ofNames loc).text
  let mut found := []
  for child in ← here.readDir do
    let inner := loc ++ [child.fileName]
    let path := (Path.ofNames inner).text
    let more ← try
        let info ← child.path.symlinkMetadata
        match info.type with
        | .dir => pure ((inner, Entry.directory) :: (← entriesBelow inner))
        | .file => pure [(inner, ← fileEntry path info.modified)]
        | .symlink => pure [(inner, Entry.link (← IO.FS.realPath path).toString)]
        | .other => pure []
      catch _ => pure []
    found := found ++ more
  return found

/-- Loads what is below a place, unless it is loaded already. -/
def loadPlace (loaded : List Location × List (Location × Entry)) (p : Path) :
    IO (List Location × List (Location × Entry)) := do
  let (places, entries) := loaded
  let loc := (Text.parts '/' p.text).filter (· ≠ "")
  if places.any (·.isPrefixOf loc) then return loaded
  let below ← try entriesBelow loc catch _ => pure []
  let known := entries.filter fun e => !loc.isPrefixOf e.1
  return (loc :: places, known ++ (if below = [] then [] else (loc, .directory) :: below))

/-- The paths that a task names. -/
def pathsOf : CommandLine.Task → List Path
  | .serve roots _ _ _ dest => roots ++ dest.toList
  | .build directories out _ => directories ++ out.toList
  | .initConfig | .showConfig => []

/-- The variables of the environment that matter. -/
def variableNames : List String :=
  ["HOME", "PATH", "TMPDIR"] ++ Role.all.map Config.overrideName

/-- The latest time among entries. -/
def latest (entries : List (Location × Entry)) : Instant :=
  entries.foldl (fun t e => match e.2 with
    | .file f => if f.modified.notBefore t then f.modified else t
    | _ => t) ⟨0, 0⟩

/-- The host to carry out a task on. -/
def loadHost (task : CommandLine.Task) : IO Host := do
  let directory := (Text.parts '/' (← IO.currentDir).toString).filter (· ≠ "")
  let mut environment := []
  for name in variableNames do
    if let some value ← IO.getEnv name then environment := environment ++ [(name, value)]
  let host : Host :=
    { tree := Shell.standardTree
      directory
      environment
      accountHome := none
      programs := Shell.installed
      now := ⟨0, 0⟩
      scratches := 0
      journal := [] }
  let places := host.workingPath :: (Config.directory host).toOption.toList ++
    (pathsOf task).filterMap host.absolute?
  let (_, entries) ← places.foldlM loadPlace ([], [])
  let tree := entries.foldl (fun t e => t.ensureDirectories e.1.dropLast) Shell.standardTree
  let tree : Tree := ⟨entries ++ tree.entries.filter fun e => (entries.lookup e.1).isNone⟩
  return { host with tree := tree.ensureDirectories directory, now := latest entries }

/-! ## §2 Writing back -/

/-- Writes back what has changed from one tree to another. -/
def writeBack (before after : Tree) : IO Unit := do
  for (loc, entry) in before.entries do
    if let .file _ := entry then
      if (after.get? loc).isNone then IO.FS.removeFile (Path.ofNames loc).text
  for (loc, entry) in after.entries do
    if before.get? loc ≠ some entry then
      let path := (Path.ofNames loc).text
      match entry with
      | .directory => IO.FS.createDirAll path
      | .file f =>
        IO.FS.createDirAll (Path.ofNames loc.dropLast).text
        IO.FS.writeBinFile path f.content.toByteArray
      | .link _ => pure ()

/-! ## §3 Serving -/

/-- Writes a response. -/
def writeResponse (out : IO.FS.Stream) (r : Http.Response) : IO Unit := do
  out.putStrLn (toString r.status)
  for (name, value) in r.headers do
    out.putStrLn (name ++ ": " ++ value)
  out.putStrLn ""
  out.write r.body.toByteArray
  out.flush

/-- Answers requests until there are no more, uncompressed. -/
partial def answerRequests (server : Http.Server) (h : Host) : IO Host := do
  let line ← (← IO.getStdin).getLine
  if line = "" then return h
  let words := (Text.parts ' ' line.trimAscii.toString).filter (· ≠ "")
  let request : Option Http.Request := match words with
    | [method, target] => (Http.Target.path? target).map fun path => ⟨method, path, []⟩
    | _ => none
  let out ← IO.getStdout
  match request with
  | none =>
    writeResponse out (.empty 400)
    answerRequests server h
  | some request =>
    match server.respond? request h with
    | none =>
      writeResponse out (.empty 500)
      answerRequests server h
    | some (response, server, h) =>
      writeResponse out response
      answerRequests server h

/-! ## §4 Running -/

/-- What is shown with a command line that asks for no task. -/
def usage : String :=
  "Usage: kiln [--log-format text|json] [-v] COMMAND\n\n" ++
  "  serve [ROOTS] [--addr ADDR] [--prefix PREFIX] [-l LEVEL] [--export DIR]\n" ++
  "  build DIRS [-o DIR] [-l LEVEL]\n" ++
  "  config init|show\n"

/-- Carries out the task of a command line on the files of this machine. -/
def runLine (line : CommandLine) : IO UInt32 := do
  let host ← loadHost line.task
  let (result, console) := CommandLine.run line host
  IO.print console.printed
  writeBack host.tree console.host.tree
  match result with
  | .ok .done => return 0
  | .ok (.listening _ server) =>
    let uncompressed := { server with options := { server.options with gzip := false } }
    let after ← answerRequests uncompressed console.host
    writeBack console.host.tree after.tree
    return 0
  | .error trouble =>
    IO.eprintln ("Error: " ++ trouble.message)
    return 1

end AssetServer.Main

/-- Runs the program with its arguments. Gives its exit code. -/
def main (arguments : List String) : IO UInt32 :=
  match AssetServer.CommandLine.parse arguments with
  | .ok line => AssetServer.Main.runLine line
  | .error e => do
    match e with
    | .version => IO.println "kiln 0.1.0"
    | .help => IO.print AssetServer.Main.usage
    | _ => IO.eprint ("error: " ++ e.label ++ "\n\n" ++ AssetServer.Main.usage)
    return UInt32.ofNat e.exitCode
