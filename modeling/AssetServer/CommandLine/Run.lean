import AssetServer.CommandLine.Basic
import AssetServer.Config.Load
import AssetServer.Http.Address
import AssetServer.Http.Server

/-!
# Carrying out tasks

What the program does for each task: the files it reads and writes, what it prints, and why it stops
early. What a task did and printed before it stopped stays.

- `CommandLine.run` carries out the task of a command line. A task to serve ends with the server
  that answers from then on.
-/

namespace AssetServer.CommandLine

/-! ## §1 Endings -/

/-- Why a task is not carried out. -/
inductive Trouble where
  | failure (cause : Failure)
  /-- A configured header cannot be sent. -/
  | header (fault : Http.HeaderFault)
  /-- The empty path is the path of nothing. -/
  | emptyPath
  | notDirectory (path : Path)
  /-- The configured path for rebuilding is no route. -/
  | badRoute (route : String)
  | cannotListen (address : String) (fault : Http.AddressFault)
  deriving DecidableEq, Repr

/-- How a user is told why a task is not carried out. -/
def Trouble.message : Trouble → String
  | .failure cause => cause.message
  | .header fault => fault.message
  | .emptyPath => "cannot resolve : cannot make an empty path absolute"
  | .notDirectory path => "not a directory: " ++ path.text
  | .badRoute route => "invalid route: " ++ Text.quoted route
  | .cannotListen address fault => "cannot listen on " ++ address ++ ": " ++ fault.message

/-- How a task ends. -/
inductive Ending where
  | done
  /-- The server answers requests that come in at an address. -/
  | listening (address : String) (server : Http.Server)
  deriving DecidableEq, Repr

/-! ## §2 Work -/

/-- A host and what has been printed. -/
structure Console where
  host : Host
  printed : String

/-- Work on a host that prints and may stop early. -/
abbrev Work := ExceptT Trouble (StateM Console)

namespace Work

/-- Prints text. -/
def print (text : String) : Work Unit :=
  ExceptT.mk fun c => (.ok (), { c with printed := c.printed ++ text })

/-- Reads from the host. -/
def look {α : Type} (f : Host → α) : Work α :=
  ExceptT.mk fun c => (.ok (f c.host), c)

/-- Work that acts on the host. -/
def ofAct {α : Type} (act : Act α) : Work α :=
  ExceptT.mk fun c =>
    let (result, host) := act.runOn c.host
    (result.mapError .failure, { c with host })

/-- Work that was done already, or the trouble with it. -/
def ofExcept {ε α : Type} (trouble : ε → Trouble) (result : Except ε α) : Work α :=
  ExceptT.mk fun c => (result.mapError trouble, c)

/-- The absolute path for a path as seen from the working directory. -/
def absolute (p : Path) : Work Path := do
  match ← look (·.absolute? p) with
  | some path => return path
  | none => throw .emptyPath

end Work

/-! ## §3 Exports -/

/-- What is printed after an export. -/
def reportText (report : Report) (dest : Path) (time : String) : String :=
  "\n  Export complete: " ++ dest.text ++
  "\n  Compiled: " ++ toString report.compiled ++
  "\n  Copied:   " ++ toString report.copied ++
  "\n  Skipped:  " ++ toString report.skipped ++
  "\n  Time:     " ++ time ++ "s\n"

/-- Exports content to a destination and prints what was done. Gives the content afterwards. -/
def exportTo (content : Content) (dest : Path) : Work Content := do
  let (report, content, time) ← ExceptT.mk fun c =>
    match content.exportTo dest c.host with
    | (.ok report, _, content, host) =>
      (.ok (report, content, Instant.elapsed c.host.now host.now), { c with host })
    | (.error e, _, _, host) => (.error (.failure e), { c with host })
  Work.print (reportText report dest time)
  return content

/-! ## §4 Tasks -/

/-- The configuration of the user, compiling at `level` if that is given. -/
def loadConfig (level : Option Level) : Work Config := do
  let config ← Work.ofAct (Act.read Config.load)
  return { config with build := { config.build with level := level.getD config.build.level } }

/-- Serves content. The roots and the address are those of the configuration where none are given,
    and `mount` replaces the configured one. With `dest`, exports the content there first; the
    server can then run that export again. -/
def serve (roots : List Path) (address mount : Option String) (level : Option Level)
    (dest : Option Path) : Work Ending := do
  let config ← loadConfig level
  let roots := if roots = [] then config.server.roots.map Path.mk else roots
  let roots ← roots.mapM Work.absolute
  let options ← Work.ofExcept .header (Http.Options.ofConfig config.server)
  let options := { options with mount := mount.getD options.mount }
  let address := address.getD config.server.address
  let content := Content.ofRoots roots config.settings config.toolchain
  let (content, exported) ← match dest with
    | none => pure (content, none)
    | some dest => do
      let dest ← Work.absolute dest
      pure (← exportTo content dest, some dest)
  match Http.Server.ofContent? content options exported with
  | none => throw (.badRoute options.rebuildPath)
  | some server =>
    Work.ofExcept (.cannotListen address) (Http.Address.check address)
    Work.print ("Serving on http://" ++ address ++ options.mount ++ "\n")
    return .listening address server

/-- Compiles all sources in some directories, each on its own, into `out` or in place. -/
def build (directories : List Path) (out : Option Path) (level : Option Level) : Work Ending := do
  let config ← loadConfig level
  directories.forM fun dir => do
    let dir ← Work.absolute dir
    if !(← Work.look fun h => h.tree.isDirectory h.directory dir) then throw (.notDirectory dir)
    let dest ← match out with
      | some out => Work.absolute out
      | none => pure dir
    let _ ← exportTo (Content.ofRoots [dir] config.settings config.toolchain) dest
  return .done

/-- Writes the standard configuration. -/
def initConfig : Work Ending := do
  let path ← Work.ofAct Config.init
  Work.print ("Config initialized at: " ++ path.text ++ "\n")
  return .done

/-- Prints the configuration that holds. -/
def showConfig : Work Ending := do
  let config ← loadConfig none
  Work.print (config.toText ++ "\n")
  return .done

/-- Carries out a task. -/
def carryOut : Task → Work Ending
  | .serve roots address mount level dest => serve roots address mount level dest
  | .build directories out level => build directories out level
  | .initConfig => initConfig
  | .showConfig => showConfig

/-- Carries out the task of a command line on a host. Gives how it ends, what it prints, and the
    host afterwards. -/
def run (line : CommandLine) (h : Host) : Except Trouble Ending × Console :=
  StateT.run (ExceptT.run (carryOut line.task)) ⟨h, ""⟩

end AssetServer.CommandLine
