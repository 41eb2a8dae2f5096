import AssetServer.Command

/-!
# Pipelines

A chain of processes in which each reads what the one before it writes. The caller sees the input of
the first stage and the output of the last.

- `Pipeline.resolveTools` pins every stage to the executable that a lookup finds, before anything is
  started.
- `Pipeline.spawn` starts the stages in order. If one does not start, those before it are killed and
  waited for.
- `Running.drain` passes the output on, `Running.wait` waits for every stage, `Running.drop` ends a
  pipeline early. Every way out waits for each started stage once.
-/

namespace AssetServer

/-- The chain of commands of a pipeline, first stage first. -/
structure Pipeline where
  stages : List Command
  deriving DecidableEq, Repr, Inhabited

/-- What the first stage of a pipeline reads. -/
inductive PipelineInput where
  /-- Nothing. -/
  | null
  | bytes (data : Bytes)
  | file (path : Path)
  deriving DecidableEq, Repr, Inhabited

/-- A stage that has been started. -/
structure RunningStage where
  index : Nat
  name : String
  process : Nat
  /-- How the process ends when its output is read to the end. -/
  status : ExitStatus
  /-- Why its input could not be passed on to it, if that went wrong. -/
  unfed : Option OsError
  deriving DecidableEq, Repr

/-- A pipeline that has been started: the processes to wait for, and what is left to read of the
    last one's output until that is taken. -/
structure Running where
  stages : List RunningStage
  output : Option Bytes
  deriving DecidableEq, Repr

namespace Pipeline

/-! ## §1 Tools -/

/-- Pins the stages of a list, in order, up to the first whose executable is missing. Gives the
    stages and, if one is missing, the failure. -/
def pin (h : Host) : List Command → List Command × Option Failure
  | [] => ([], none)
  | c :: rest =>
    match h.locate? c.program with
    | none => (c :: rest, some (.toolNotFound c.name c.program))
    | some found =>
      let (rest, failure) := pin h rest
      ({ c with program := found } :: rest, failure)

/-- Pins every stage to the executable that a lookup finds for it. -/
def resolveTools (h : Host) (p : Pipeline) : Pipeline × Option Failure :=
  let (stages, failure) := pin h p.stages
  (⟨stages⟩, failure)

/-! ## §2 Data flow -/

/-- How much data a pipe holds for a reader that does not read. -/
def pipeCapacity : Nat := 65536

/-- The status of a process that writes into a pipe nobody reads. -/
def brokenPipe : ExitStatus := .killed 13

/-- What each process of a chain comes to, with its changes to the files, when the first reads
    `input`, or fails to if that is `broken`. -/
def executions (now : Instant) : List Launch → Bytes → Bool → Tree → List Execution × Tree
  | [], _, _, tree => ([], tree)
  | l :: rest, input, broken, tree =>
    let run := l.program ⟨l.arguments, l.directory, l.environment, input, broken, now⟩ tree
    let (runs, tree) := executions now rest run.output false run.tree
    (run :: runs, tree)

/-- The statuses of a chain. A process whose output is left unread beyond what a pipe holds is ended
    by that. -/
def statuses : List Execution → List ExitStatus
  | [] => []
  | [run] => [run.status]
  | run :: next :: rest =>
    (if pipeCapacity < next.unread then brokenPipe else run.status) :: statuses (next :: rest)

/-- What the last process of a chain writes; of an empty chain, what it reads. -/
def lastOutput (input : Bytes) (runs : List Execution) : Bytes :=
  (runs.getLast?.map Execution.output).getD input

/-! ## §3 Starting -/

/-- A stage that has been started but whose data has not been looked at. -/
structure Started where
  index : Nat
  name : String
  process : Nat
  launch : Launch

/-- Kills and waits for processes, one after another. -/
def abandon (processes : List Nat) (h : Host) : Host :=
  processes.foldl (fun h p => (h.note (.killed p)).note (.reaped p)) h

/-- Starts commands in order, from the stage `index` on, after those in `started`, which is in
    reverse. -/
def start (h : Host) (index : Nat) (started : List Started) : List Command →
    Except Failure (List Started) × Host
  | [] => (.ok started.reverse, h)
  | c :: rest =>
    match h.launch c with
    | .error e => (.error (.notStarted index c.name e),
        abandon (started.reverse.map Started.process) h)
    | .ok launch =>
      let process := h.processes
      start (h.note (.started process)) (index + 1) (⟨index, c.name, process, launch⟩ :: started)
        rest

/-- The data of an input that reaches the first stage, and whether reading it fails. A file is
    opened before any stage is started; a directory can be opened, but not read. -/
def inputData (h : Host) : PipelineInput → Except Failure (Bytes × Bool)
  | .null => .ok ([], false)
  | .bytes data =>
    match h.feeding data with
    | none => .ok (data, false)
    | some (passed, _) => .ok (data.take passed, false)
  | .file path =>
    match h.tree.openFile h.directory path with
    | .error e => .error (.file path e)
    | .ok (.file f) => .ok (f.content, false)
    | .ok .directory => .ok ([], true)

/-- What goes wrong when an input is passed on to the first stage. Only bytes are passed on by the
    server itself, and a stage that stops reading them is no fault: its status decides. -/
def feedFault? (h : Host) : PipelineInput → Option OsError
  | .bytes data =>
    match h.feeding data with
    | some (_, e) => if e = .brokenPipe then none else some e
    | none => none
  | .null | .file _ => none

/-- Stages with the fault of their input at the first of them. -/
def feed (fault : Option OsError) : List RunningStage → List RunningStage
  | [] => []
  | s :: rest => { s with unfed := fault } :: rest

theorem map_feed {α : Type} {f : RunningStage → α} (hf : ∀ s fault, f { s with unfed := fault } = f s)
    (fault : Option OsError) (stages : List RunningStage) :
    (feed fault stages).map f = stages.map f := by
  cases stages with
  | nil => rfl
  | cons s rest => simp [feed, hf]

/-- The stages of a pipeline that has been started, with the statuses that they end with and the
    fault of their input. -/
def runningStages (fault : Option OsError) (started : List Started) (statuses : List ExitStatus) :
    List RunningStage :=
  feed fault ((started.zip statuses).map fun (s, status) =>
    ⟨s.index, s.name, s.process, status, none⟩)

/-- What the stages of a started pipeline have besides the fault of their input. -/
theorem map_runningStages {α : Type} {f : RunningStage → α} {g : Started × ExitStatus → α}
    (hf : ∀ s fault, f { s with unfed := fault } = f s)
    (hg : ∀ s status, f ⟨s.index, s.name, s.process, status, none⟩ = g (s, status))
    (fault : Option OsError) (started : List Started) (statuses : List ExitStatus) :
    (runningStages fault started statuses).map f = (started.zip statuses).map g := by
  unfold runningStages
  rw [map_feed hf, List.map_map]
  exact List.map_congr_left fun x _ => hg x.1 x.2

/-- Starts every stage. -/
def spawn (p : Pipeline) (input : PipelineInput) : Act Running :=
  Act.ofPair fun h =>
    match inputData h input with
    | .error e => (.error e, h)
    | .ok (data, broken) =>
      let fault := feedFault? h input
      match start h 0 [] p.stages with
      | (.error e, h) => (.error e, h)
      | (.ok started, h) =>
        let (runs, tree) := executions h.now (started.map Started.launch) data broken h.tree
        let stages := runningStages fault started (statuses runs)
        (.ok ⟨stages, some (lastOutput data runs)⟩, { h with tree })

end Pipeline

/-! ## §4 Ending -/

namespace Running

/-- Takes the output away, to be read elsewhere. -/
def takeOutput (r : Running) : Option Bytes × Running :=
  (r.output, { r with output := none })

/-- Copies what is left of the output into a sink. -/
def drain (r : Running) (sink : Sink) : Except Failure Nat × Running × Sink :=
  match r.output with
  | none => (.ok 0, r, sink)
  | some data =>
    match sink.copy data with
    | (.ok (), sink) => (.ok data.length, { r with output := some [] }, sink)
    | (.error e, after) =>
      let left := data.drop (after.held.length - sink.held.length)
      (.error (.pipe e), { r with output := some left }, after)

/-- The stages with the last one ended by writing into a closed pipe. -/
def closeLast : List RunningStage → List RunningStage
  | [] => []
  | [s] => [{ s with status := Pipeline.brokenPipe }]
  | s :: next :: rest => s :: closeLast (next :: rest)

/-- The stages as they end once the server closes its end of the output. -/
def closed (r : Running) : List RunningStage :=
  match r.output with
  | some (_ :: _) => closeLast r.stages
  | _ => r.stages

/-- The failure of the first stage that ended without success. -/
def firstFailure? (stages : List RunningStage) : Option Failure :=
  (stages.find? (fun s => !s.status.success)).map fun s =>
    .stageFailed s.index s.name s.status

/-- The failure to pass on the input. -/
def feedFailure? (stages : List RunningStage) : Option Failure :=
  (stages.findSome? RunningStage.unfed).map .pipe

/-- The failure to report: that of a stage before that to pass on the input. -/
def failure? (r : Running) : Option Failure :=
  (firstFailure? r.closed).or (feedFailure? r.stages)

/-- Waits for every stage, in order, and for the input to be passed on. -/
def wait (r : Running) (h : Host) : Except Failure Unit × Running × Host :=
  let h := r.stages.foldl (fun h s => h.note (.reaped s.process)) h
  let result := match r.failure? with
    | some failure => .error failure
    | none => .ok ()
  (result, ⟨[], none⟩, h)

/-- Ends a pipeline without waiting for it to finish: what still runs is killed. -/
def drop (r : Running) (h : Host) : Running × Host :=
  (⟨[], none⟩, Pipeline.abandon (r.stages.map RunningStage.process) h)

end Running

/-! ## §5 A whole run -/

namespace Pipeline

/-- Starts a pipeline, copies its output into the sink and waits for every stage. A refusal of the
    sink is reported before the failure of a stage. Gives the number of bytes copied. -/
def runInto (p : Pipeline) (input : PipelineInput) : Emit Nat := do
  let running ← Emit.ofAct (p.spawn input)
  Emit.ofPair fun o =>
    let (copied, running, sink) := running.drain o.sink
    let (waited, _, host) := running.wait o.host
    let result := match copied, waited with
      | .error e, _ => .error e
      | .ok _, .error e => .error e
      | .ok n, .ok () => .ok n
    (result, ⟨host, sink⟩)

end Pipeline

end AssetServer
