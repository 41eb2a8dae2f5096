import AssetServer.ExitStatus
import AssetServer.Failure
import AssetServer.Sink
import AssetServer.Tree.Change

/-!
# Hosts

The machine that compilations run on: its files, the environment of the server, the programs that
are installed, and a journal of the processes it has run. Programs are functions of what they are
given; what they do to files is part of their result.

`Act` is an action on a host that may fail, `Emit` one that also writes to a sink. What an action
did before it failed stays done.
-/

namespace AssetServer

/-! ## §1 Programs -/

/-- What a program is given when it runs. -/
structure Invocation where
  arguments : List String
  /-- The working directory. -/
  directory : Location
  environment : List (String × String)
  input : Bytes
  /-- Whether reading the input fails, as it does for a directory. -/
  broken : Bool
  now : Instant
  deriving Repr

/-- What a run of a program comes to. -/
structure Execution where
  output : Bytes
  status : ExitStatus
  /-- How many bytes of the input were left unread. -/
  unread : Nat
  /-- The files afterwards. -/
  tree : Tree
  deriving Repr

/-- What a program does. -/
abbrev Program := Invocation → Tree → Execution

/-! ## §2 The journal -/

/-- What happened to a process, by its number. -/
inductive ProcessEvent where
  | started (process : Nat)
  | killed (process : Nat)
  /-- The process was waited for. -/
  | reaped (process : Nat)
  deriving DecidableEq, Repr

/-! ## §3 Hosts -/

/-- The machine that compilations run on. -/
structure Host where
  tree : Tree
  /-- The working directory of the server. -/
  directory : Location
  /-- The environment of the server. -/
  environment : List (String × String)
  /-- The home directory of the account that the server runs under. -/
  accountHome : Option Path
  /-- The programs that are installed, by location. -/
  programs : Location → Option Program
  now : Instant
  /-- How many scratch directories have been made. -/
  scratches : Nat
  /-- What happened to processes, in order. -/
  journal : List ProcessEvent
  /-- What stops the passing of bytes to a process that reads them: how many get through, and the
      error. Nothing does as long as the process reads on. -/
  feeding : Bytes → Option (Nat × OsError) := fun _ => none

namespace Host

/-- The value of an environment variable. -/
def setting? (h : Host) (name : String) : Option String :=
  h.environment.lookup name

/-- The host with an event at the end of its journal. -/
def note (h : Host) (event : ProcessEvent) : Host :=
  { h with journal := h.journal ++ [event] }

/-- How many processes have been started. -/
def processes (h : Host) : Nat :=
  h.journal.countP fun
    | .started _ => true
    | _ => false

/-- The working directory as a path. -/
def workingPath (h : Host) : Path :=
  Path.ofNames h.directory

/-- The absolute path for a path as seen from the working directory. -/
def absolute? (h : Host) (p : Path) : Option Path :=
  p.absolute? h.workingPath

/-- The directories that the variable `PATH` lists. -/
def searchPath? (h : Host) : Option (List Path) :=
  (h.setting? "PATH").map fun text => (Text.parts ':' text).map Path.mk

/-- Finds the executable for a program as starting it would: a path of several steps stands for
    itself, a bare name is searched for in the directories of `PATH`. The result is absolute, so
    that it names the same file from any directory. -/
def locate? (h : Host) (program : Path) : Option Path :=
  let isExecutable := h.tree.isExecutable h.directory
  let found :=
    if 1 < program.components.length then
      if isExecutable program then some program else none
    else h.searchPath?.bind fun dirs => (dirs.map (·.join program.text)).find? isExecutable
  found.bind h.absolute?

end Host

/-! ## §4 Actions -/

/-- An action on a host that may fail. -/
abbrev Act := ExceptT Failure (StateM Host)

/-- A host and the sink that is being written to. -/
structure Outlet where
  host : Host
  sink : Sink

/-- An action on a host that writes to a sink and may fail. -/
abbrev Emit := ExceptT Failure (StateM Outlet)

namespace Act

/-- The action that gives `result` and leaves `host`. -/
def ofPair {α : Type} (step : Host → Except Failure α × Host) : Act α :=
  ExceptT.mk fun h => step h

/-- The action that reads from the host and may fail. -/
def read {α : Type} (f : Host → Except Failure α) : Act α :=
  ofPair fun h => (f h, h)

/-- The action that changes the host. -/
def change (f : Host → Host) : Act Unit :=
  ofPair fun h => (.ok (), f h)

/-- Runs an action on a host. -/
def runOn {α : Type} (act : Act α) (h : Host) : Except Failure α × Host :=
  StateT.run (ExceptT.run act) h

end Act

namespace Emit

/-- The action given by what it makes of an outlet. -/
def ofPair {α : Type} (step : Outlet → Except Failure α × Outlet) : Emit α :=
  ExceptT.mk fun o => step o

/-- An action that writes nothing. -/
def ofAct {α : Type} (act : Act α) : Emit α :=
  ofPair fun o =>
    let (result, host) := act.runOn o.host
    (result, { o with host })

/-- Runs an action on a host and a sink. -/
def runOn {α : Type} (act : Emit α) (o : Outlet) : Except Failure α × Outlet :=
  StateT.run (ExceptT.run act) o

/-- Copies data into the sink. Gives the number of bytes; a refusal is reported by `fault`. -/
def copy (fault : OsError → Failure) (data : Bytes) : Emit Nat :=
  ofPair fun o =>
    match o.sink.copy data with
    | (.ok (), sink) => (.ok data.length, { o with sink })
    | (.error e, sink) => (.error (fault e), { o with sink })

/-- Runs an action with a sink of its own. Gives its result and what that sink holds afterwards. -/
def collect {α : Type} (act : Emit α) (h : Host) : Except Failure α × Bytes × Host :=
  let (result, o) := act.runOn ⟨h, .unlimited⟩
  (result, o.sink.held, o.host)

end Emit

end AssetServer
