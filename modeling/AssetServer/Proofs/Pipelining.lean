import Mathlib.Data.List.Forall2
import AssetServer.Proofs.Confinement

/-!
# What a pipeline comes to

Each function that a pipeline is located, started and run with, in one statement, for later modules
to argue from.

- `Pipeline.pin_ok_iff` and `Pipeline.pin_error_iff` say what locating the tools of a list of commands
  comes to, `Compiler.located_single_iff` says it for a single command.
- `Pipeline.start_launches` and `Pipeline.launches_of_start`: commands are started exactly if each of
  them can be launched alone.
- `Pipeline.runInto_ok_iff`: when a run succeeds, and what it writes and leaves.
-/

namespace AssetServer

/-! ## §1 Locating the tools -/

/-- The command with an executable for its program. -/
def Command.withProgram (c : Command) (path : Path) : Command :=
  { c with program := path }

namespace Pipeline

variable {k : Host} {c : Command} {cs stages : List Command} {e : Failure}

/-- A stage is its command with the executable that is found for it. -/
def Pins (k : Host) (c stage : Command) : Prop :=
  ∃ path, k.locate? c.program = some path ∧ stage = c.withProgram path

/-- Locating succeeds with one stage for each command. -/
theorem pin_ok_iff : pin k cs = (stages, none) ↔ List.Forall₂ (Pins k) cs stages := by
  induction cs generalizing stages with
  | nil =>
    rw [List.forall₂_nil_left_iff]
    simp [pin, eq_comm]
  | cons c rest ih =>
    rw [pin, List.forall₂_cons_left_iff]
    cases hlocate : k.locate? c.program with
    | none => simp [Pins, hlocate]
    | some path =>
      rcases hrest : pin k rest with ⟨more, failure⟩
      constructor
      · intro h
        cases h
        exact ⟨_, _, ⟨path, hlocate, rfl⟩, ih.mp hrest, rfl⟩
      · rintro ⟨_, more', ⟨path', hpath', rfl⟩, hmore, rfl⟩
        rw [hlocate, Option.some.injEq] at hpath'
        subst hpath'
        rw [ih.mpr hmore, Prod.mk.injEq] at hrest
        obtain ⟨rfl, rfl⟩ := hrest
        rfl

/-- Locating fails with the first command whose executable is missing. -/
theorem pin_error_iff : (∃ stages, pin k cs = (stages, some e)) ↔ ∃ before c after,
    cs = before ++ c :: after ∧ (∀ b ∈ before, k.locate? b.program ≠ none) ∧
      k.locate? c.program = none ∧ e = .toolNotFound c.name c.program := by
  induction cs with
  | nil => simp [pin]
  | cons c rest ih =>
    rw [pin]
    cases hlocate : k.locate? c.program with
    | none =>
      -- the first command is the one to report, and none in front of it is missing
      constructor
      · rintro ⟨stages, hpin⟩
        cases hpin
        exact ⟨[], c, rest, rfl, by simp, hlocate, rfl⟩
      · rintro ⟨before, d, after, hcs, hbefore, hd, rfl⟩
        cases before with
        | nil =>
          cases hcs
          exact ⟨_, rfl⟩
        | cons b before =>
          cases hcs
          exact absurd hlocate (hbefore _ (by simp))
    | some path =>
      have hpin : (∃ stages, (({ c with program := path } :: (pin k rest).1), (pin k rest).2) =
          (stages, some e)) ↔ ∃ stages, pin k rest = (stages, some e) := by
        rcases pin k rest with ⟨more, failure⟩
        simp
      refine hpin.trans (ih.trans ?_)
      constructor
      · rintro ⟨before, d, after, rfl, hbefore, hd⟩
        refine ⟨c :: before, d, after, rfl, ?_, hd⟩
        intro b hb
        rcases List.mem_cons.mp hb with rfl | hb
        · simp [hlocate]
        · exact hbefore b hb
      · rintro ⟨before, d, after, hcs, hbefore, hd, he⟩
        cases before with
        | nil =>
          cases hcs
          rw [hlocate] at hd
          cases hd
        | cons b before =>
          cases hcs
          exact ⟨before, d, after, rfl, fun b hb => hbefore b (by simp [hb]), hd, he⟩

/-- Locating succeeds if no executable is missing. -/
theorem pin_none_iff : (pin k cs).2 = none ↔ ∀ c ∈ cs, k.locate? c.program ≠ none := by
  induction cs with
  | nil => simp [pin]
  | cons c rest ih =>
    rw [pin, List.forall_mem_cons]
    cases hlocate : k.locate? c.program with
    | none => simp
    | some path => simpa using ih

/-- Locating goes on behind commands whose executables are found. -/
theorem pin_append (cs more : List Command) : pin k (cs ++ more) =
    match pin k cs with
    | (stages, none) => (stages ++ (pin k more).1, (pin k more).2)
    | (stages, some e) => (stages ++ more, some e) := by
  induction cs with
  | nil => simp [pin]
  | cons c rest ih =>
    rw [List.cons_append, pin, pin]
    cases k.locate? c.program with
    | none => simp
    | some path =>
      simp only [ih]
      rcases pin k rest with ⟨stages, _ | e⟩ <;> simp

/-- Every stage has been located for one of the commands. -/
theorem exists_pins (hpins : List.Forall₂ (Pins k) cs stages) :
    ∀ stage ∈ stages, ∃ c ∈ cs, Pins k c stage := by
  induction hpins with
  | nil => simp
  | cons hfirst _ ih =>
    rw [List.forall_mem_cons]
    refine ⟨⟨_, by simp, hfirst⟩, fun stage hstage => ?_⟩
    obtain ⟨c, hc, hpin⟩ := ih stage hstage
    exact ⟨c, List.mem_cons_of_mem _ hc, hpin⟩

end Pipeline

theorem Compiler.located_ok_iff {h : Host} {p q : Pipeline} :
    Compiler.located h p = .ok q ↔ Pipeline.pin h p.stages = (q.stages, none) := by
  unfold Compiler.located Pipeline.resolveTools
  rcases hpin : Pipeline.pin h p.stages with ⟨stages, failure⟩
  cases failure with
  | none =>
    simp only [Except.ok.injEq, Prod.mk.injEq, and_true]
    constructor
    · rintro rfl
      rfl
    · rintro rfl
      rfl
  | some e => simp

theorem Compiler.located_single_iff {h : Host} {c : Command} {p : Pipeline} :
    Compiler.located h ⟨[c]⟩ = .ok p ↔
      ∃ path, h.locate? c.program = some path ∧ p = ⟨[c.withProgram path]⟩ := by
  obtain ⟨stages⟩ := p
  rw [located_ok_iff, Pipeline.pin_ok_iff, List.forall₂_cons_left_iff]
  simp only [List.forall₂_nil_left_iff, Pipeline.Pins, Pipeline.mk.injEq]
  constructor
  · rintro ⟨_, _, ⟨path, hpath, rfl⟩, rfl, rfl⟩
    exact ⟨path, hpath, rfl⟩
  · rintro ⟨path, hpath, rfl⟩
    exact ⟨_, _, ⟨path, hpath, rfl⟩, rfl, rfl⟩

/-! ## §2 Starting -/

namespace Host

theorem execute_journal (h : Host) (journal : List ProcessEvent) (cwd : Location) (depth : Nat)
    (p : Path) (arguments : List String) :
    ({ h with journal } : Host).execute cwd depth p arguments = h.execute cwd depth p arguments := by
  induction depth generalizing p arguments with
  | zero => rfl
  | succ depth ih => simp only [execute, ih]

theorem search_journal (h : Host) (journal : List ProcessEvent) (cwd : Location) (program : String)
    (arguments : List String) (denied : Bool) (dirs : List String) :
    ({ h with journal } : Host).search cwd program arguments denied dirs =
      h.search cwd program arguments denied dirs := by
  induction dirs generalizing denied with
  | nil => rfl
  | cons dir rest ih => simp only [search, execute_journal, ih]

/-- What a command starts does not depend on what has been noted. -/
theorem launch_journal (h : Host) (journal : List ProcessEvent) (c : Command) :
    ({ h with journal } : Host).launch c = h.launch c := by
  simp only [launch, execute_journal, search_journal]

theorem launch_note (h : Host) (e : ProcessEvent) (c : Command) :
    (h.note e).launch c = h.launch c :=
  h.launch_journal _ c

/-- What is launched on a host that is ready is confined to its scratch directories. -/
theorem Ready.confined_launches {h : Host} {cs : List Command} {ls : List Launch}
    (hready : h.Ready) (hls : cs.map h.launch = ls.map .ok) :
    ∀ l ∈ ls, l.program.Confined h.temporary := by
  intro l hl
  have hmem : Except.ok l ∈ cs.map h.launch := by
    rw [hls]
    exact List.mem_map_of_mem hl
  obtain ⟨c, -, hc⟩ := List.mem_map.mp hmem
  obtain ⟨loc, hloc⟩ := Host.launch_program hc
  exact hready.confined loc _ hloc

end Host

namespace Pipeline

variable {h k : Host} {cs : List Command} {ls : List Launch}

/-- Stages that can be started are, with what was found for each of them. -/
theorem start_launches (hls : cs.map h.launch = ls.map .ok) (index : Nat) (started : List Started) :
    ∃ stages k, start h index started cs = (.ok (started.reverse ++ stages), k) ∧
      stages.map Started.launch = ls ∧
      stages.map (fun s => (s.name, s.index)) = (cs.map Command.name).zipIdx index ∧
      k.tree = h.tree ∧ k.now = h.now := by
  induction cs generalizing h index started ls with
  | nil =>
    obtain rfl : ls = [] := by simpa using hls.symm
    exact ⟨[], h, by simp [start], rfl, rfl, rfl, rfl⟩
  | cons c rest ih =>
    cases ls with
    | nil => cases hls
    | cons l ls =>
      rw [List.map_cons, List.map_cons, List.cons.injEq] at hls
      -- that a process has been started makes no difference to what can be launched
      have hlaunch : (h.note (.started h.processes)).launch = h.launch :=
        funext fun b => h.launch_note _ b
      obtain ⟨stages, k, hstart, hlaunches, hnames, htree, hnow⟩ :=
        ih (h := h.note (.started h.processes)) (by rw [hlaunch]; exact hls.2) (index + 1)
          (⟨index, c.name, h.processes, l⟩ :: started)
      refine ⟨⟨index, c.name, h.processes, l⟩ :: stages, k, ?_, ?_, ?_, htree, hnow⟩
      · rw [start, hls.1]
        simp only [hstart, List.reverse_cons, List.append_assoc, List.cons_append, List.nil_append]
      · rw [List.map_cons, hlaunches]
      · rw [List.map_cons, hnames]
        rfl

/-- If all stages are started, each of them can be started alone. -/
theorem launches_of_start {index : Nat} {started stages : List Started}
    (hstart : start h index started cs = (.ok stages, k)) :
    ∃ ls : List Launch, cs.map h.launch = ls.map .ok := by
  induction cs generalizing h index started with
  | nil => exact ⟨[], rfl⟩
  | cons c rest ih =>
    unfold start at hstart
    cases hlaunch : h.launch c with
    | error e =>
      rw [hlaunch] at hstart
      cases hstart
    | ok l =>
      rw [hlaunch] at hstart
      obtain ⟨ls, hls⟩ := ih hstart
      have hnoted : (h.note (.started h.processes)).launch = h.launch :=
        funext fun b => h.launch_note _ b
      rw [hnoted] at hls
      exact ⟨l :: ls, by rw [List.map_cons, hlaunch, hls]; rfl⟩

end Pipeline

/-! ## §3 Runs -/

/-- A run of a process that can be started. -/
def Launch.run (l : Launch) (now : Instant) (input : Bytes) (broken : Bool) (t : Tree) :
    Execution :=
  l.program ⟨l.arguments, l.directory, l.environment, input, broken, now⟩ t

namespace Pipeline

variable {h k : Host}

theorem firstFailure?_eq_none {stages : List RunningStage} :
    Running.firstFailure? stages = none ↔ ∀ s ∈ stages, s.status.success = true := by
  unfold Running.firstFailure?
  simp

/-- Passing on the input fails if that went wrong and there is a stage that reads it. -/
theorem feedFailure?_runningStages (fault : Option OsError) {started : List Started}
    {l : List ExitStatus} (hlength : l.length = started.length) :
    Running.feedFailure? (runningStages fault started l) =
      if started = [] then none else fault.map .pipe := by
  cases started with
  | nil => rfl
  | cons s rest =>
    obtain ⟨status, more, rfl⟩ : ∃ status more, l = status :: more :=
      List.exists_cons_of_length_pos (by simp [hlength])
    cases fault with
    | none =>
      have hrest : ∀ x ∈ (rest.zip more).map fun x =>
          (⟨x.1.index, x.1.name, x.1.process, x.2, none⟩ : RunningStage), x.unfed = none :=
        List.forall_mem_map.mpr fun _ _ => rfl
      simp [runningStages, feed, Running.feedFailure?, List.findSome?_eq_none_iff.mpr hrest]
    | some e => simp [runningStages, feed, Running.feedFailure?]

theorem length_executions (now : Instant) (ls : List Launch) (input : Bytes) (broken : Bool)
    (t : Tree) : (executions now ls input broken t).1.length = ls.length := by
  induction ls generalizing input broken t with
  | nil => rfl
  | cons l rest ih => simp [executions, ih]

theorem length_statuses (runs : List Execution) : (statuses runs).length = runs.length := by
  induction runs with
  | nil => rfl
  | cons run rest ih =>
    cases rest with
    | nil => rfl
    | cons next more => simpa [statuses] using ih

theorem spawn_ok_iff {p : Pipeline} {input : PipelineInput} {running : Running} {k₁ : Host} :
    runFrom (p.spawn input) k = (.ok running, k₁) ↔
      ∃ data broken stages h₁, inputData k input = .ok (data, broken) ∧
        start k 0 [] p.stages = (.ok stages, h₁) ∧
        let runs := executions h₁.now (stages.map Started.launch) data broken h₁.tree
        running = ⟨runningStages (feedFault? k input) stages (statuses runs.1),
          some (lastOutput data runs.1)⟩ ∧ k₁ = { h₁ with tree := runs.2 } := by
  unfold spawn
  rw [runFrom_ofPair]
  cases hdata : inputData k input with
  | error e => simp
  | ok found =>
    obtain ⟨data, broken⟩ := found
    rcases hstart : start k 0 [] p.stages with ⟨result, h₁⟩
    cases result with
    | error e => simp
    | ok stages =>
      simp only [Prod.mk.injEq, Except.ok.injEq]
      constructor
      · rintro ⟨rfl, rfl⟩
        exact ⟨data, broken, stages, h₁, ⟨rfl, rfl⟩, ⟨rfl, rfl⟩, rfl, rfl⟩
      · rintro ⟨_, _, _, _, ⟨rfl, rfl⟩, ⟨rfl, rfl⟩, rfl, rfl⟩
        exact ⟨rfl, rfl⟩

/-- Ending a pipeline succeeds if its sink takes all of the output, every stage ends with success and
    its input has been passed on; it leaves the files alone. -/
theorem ending_ok_iff {stages : List RunningStage} {data : Bytes} {s sink : Sink} {n : Nat} :
    (∃ k₁, (let (copied, running, sink) := Running.drain ⟨stages, some data⟩ s
      let (waited, _, host) := running.wait k
      let result : Except Failure Nat := match copied, waited with
        | .error e, _ => .error e
        | .ok _, .error e => .error e
        | .ok n, .ok () => .ok n
      (result, (⟨host, sink⟩ : Outlet))) = (.ok n, ⟨k₁, sink⟩) ∧ k₁.tree = k.tree) ↔
      s.copy data = (.ok (), sink) ∧ n = data.length ∧ (∀ t ∈ stages, t.status.success = true) ∧
        Running.feedFailure? stages = none := by
  have htree : ∀ r : Running, (r.wait k).2.2.tree = k.tree := by
    intro r
    obtain ⟨journal, hjournal⟩ := wait_eq r k
    rw [hjournal]
  unfold Running.drain
  rcases hcopy : s.copy data with ⟨copied, after⟩
  cases copied with
  | error e => simp [hcopy]
  | ok u =>
    have hwait := htree ⟨stages, some []⟩
    simp only [hcopy, Running.wait, Running.failure?, Running.closed, Prod.mk.injEq, true_and]
      at hwait ⊢
    rw [← firstFailure?_eq_none, ← Option.or_eq_none_iff]
    cases (Running.firstFailure? stages).or (Running.feedFailure? stages) with
    | none =>
      simp only [Except.ok.injEq, Outlet.mk.injEq]
      constructor
      · rintro ⟨k₁, ⟨rfl, -, rfl⟩, -⟩
        exact ⟨rfl, rfl, trivial⟩
      · rintro ⟨rfl, rfl, -⟩
        exact ⟨_, ⟨rfl, rfl, rfl⟩, hwait⟩
    | some failure => simp

/-- Every process of a pipeline ends with some status. -/
theorem length_statuses_executions (now : Instant) (stages : List Started) (data : Bytes)
    (broken : Bool) (t : Tree) :
    (statuses (executions now (stages.map Started.launch) data broken t).1).length =
      stages.length := by
  rw [length_statuses, length_executions, List.length_map]

theorem map_runningStages_status (fault : Option OsError) {stages : List Started}
    {l : List ExitStatus} (hlength : l.length = stages.length) :
    (runningStages fault stages l).map RunningStage.status = l := by
  rw [map_runningStages (g := Prod.snd) (fun _ _ => rfl) (fun _ _ => rfl),
    List.map_snd_zip (Nat.le_of_eq hlength)]

theorem forall_runningStages_success {fault : Option OsError} {stages : List Started}
    {l : List ExitStatus} (hlength : l.length = stages.length) :
    (∀ t ∈ runningStages fault stages l, t.status.success = true) ↔
      ∀ status ∈ l, status.success = true := by
  have hmap := map_runningStages_status fault hlength
  rw [← hmap, List.forall_mem_map, hmap]

/-- No stage lacks its input if passing it on went well or there is no stage. -/
theorem feedFailure?_runningStages_eq_none {fault : Option OsError} {stages : List Started}
    {l : List ExitStatus} (hlength : l.length = stages.length) :
    Running.feedFailure? (runningStages fault stages l) = none ↔
      (stages ≠ [] → fault = none) := by
  rw [feedFailure?_runningStages _ hlength]
  by_cases hne : stages = []
  · simp [hne]
  · simp [hne, Option.map_eq_none_iff]

/-- A pipeline succeeds if all of its stages start, its sink takes all of the output, every stage
    ends with success and its input has been passed on. -/
theorem runInto_ok_iff {p : Pipeline} {input : PipelineInput} {s sink : Sink} {n : Nat} {t : Tree} :
    (∃ k, runFrom (p.runInto input) ⟨h, s⟩ = (.ok n, ⟨k, sink⟩) ∧ k.tree = t) ↔
      ∃ data broken ls, inputData h input = .ok (data, broken) ∧
        p.stages.map h.launch = ls.map .ok ∧
        let runs := executions h.now ls data broken h.tree
        s.copy (lastOutput data runs.1) = (.ok (), sink) ∧ n = (lastOutput data runs.1).length ∧
          (∀ status ∈ statuses runs.1, status.success = true) ∧
          (p.stages ≠ [] → feedFault? h input = none) ∧ t = runs.2 := by
  have hsome : ∀ {stages : List Started} {ls : List Launch}, p.stages.map h.launch = ls.map .ok →
      stages.map Started.launch = ls → (stages ≠ [] ↔ p.stages ≠ []) := by
    rintro stages _ hls rfl
    have hlength := congrArg List.length hls
    simp only [List.length_map] at hlength
    rw [← List.length_pos_iff, ← List.length_pos_iff, hlength]
  constructor
  · rintro ⟨k, hrun, rfl⟩
    obtain ⟨running, o, hspawned, hend⟩ := runFrom_bind_ok.mp hrun
    obtain ⟨k₂, hspawn, rfl⟩ := runFrom_ofAct_ok.mp hspawned
    obtain ⟨data, broken, stages, h₁, hdata, hstart, rfl, rfl⟩ := spawn_ok_iff.mp hspawn
    -- the stages that were started are those that can be launched
    obtain ⟨ls, hls⟩ := launches_of_start hstart
    obtain ⟨stages', h₁', hstart', hlaunches, -, htree, hnow⟩ := start_launches hls 0 []
    rw [List.reverse_nil, List.nil_append, hstart, Prod.mk.injEq, Except.ok.injEq] at hstart'
    obtain ⟨rfl, rfl⟩ := hstart'
    have hlength := length_statuses_executions h₁.now stages data broken h₁.tree
    rw [runFrom_emit] at hend
    have hkept : k.tree = (executions h₁.now (stages.map Started.launch) data broken h₁.tree).2 := by
      obtain ⟨journal, hjournal⟩ := wait_eq _ _
      exact (congrArg (fun r => r.2.host.tree) hend).symm.trans (congrArg Host.tree hjournal)
    obtain ⟨hcopy, hn, hall, hfed⟩ := ending_ok_iff.mp ⟨_, hend, hkept⟩
    have hall' := (forall_runningStages_success hlength).mp hall
    have hfed' := (feedFailure?_runningStages_eq_none hlength).mp hfed
    rw [hlaunches, htree, hnow] at hcopy hn hall' hkept
    rw [hsome hls hlaunches] at hfed'
    exact ⟨data, broken, ls, hdata, hls, hcopy, hn, hall', hfed', hkept⟩
  · rintro ⟨data, broken, ls, hdata, hls, hcopy, hn, hall, hfed, rfl⟩
    obtain ⟨stages, h₁, hstart, hlaunches, -, htree, hnow⟩ := start_launches hls 0 []
    rw [← hsome hls hlaunches] at hfed
    rw [← hlaunches, ← htree, ← hnow] at hcopy hn hall ⊢
    have hspawn := spawn_ok_iff.mpr ⟨data, broken, stages, h₁, hdata, hstart, rfl, rfl⟩
    have hlength := length_statuses_executions h₁.now stages data broken h₁.tree
    obtain ⟨k, hend, hkept⟩ := (ending_ok_iff (k := { h₁ with tree := (executions h₁.now
      (stages.map Started.launch) data broken h₁.tree).2 })).mpr ⟨hcopy, hn,
        (forall_runningStages_success hlength).mpr hall,
        (feedFailure?_runningStages_eq_none hlength).mpr hfed⟩
    refine ⟨k, ?_, hkept⟩
    unfold runInto
    exact runFrom_bind_ok.mpr ⟨_, _, runFrom_ofAct_ok.mpr ⟨_, hspawn, rfl⟩, hend⟩

/-- A single command that is run aside: what it prints is dropped. -/
theorem runAside_single_iff {l : Host} {c : Command} {t : Tree} :
    (∃ m, runFrom (runAside ⟨[c]⟩) l = (.ok (), m) ∧ m.tree = t) ↔
      ∃ launch, l.launch c = .ok launch ∧
        (launch.run l.now [] false l.tree).status.success = true ∧
        t = (launch.run l.now [] false l.tree).tree := by
  have haside : (∃ m, runFrom (runAside ⟨[c]⟩) l = (.ok (), m) ∧ m.tree = t) ↔
      ∃ n sink m, runFrom (Pipeline.runInto ⟨[c]⟩ .null) ⟨l, .unlimited⟩ = (.ok n, ⟨m, sink⟩) ∧
        m.tree = t := by
    unfold runAside Emit.collect
    rw [runFrom_ofPair, Emit.runOn_eq]
    rcases runFrom (Pipeline.runInto ⟨[c]⟩ .null) ⟨l, .unlimited⟩ with ⟨result, m, sink⟩
    cases result with
    | error e => simp [Except.map]
    | ok n => simp [Except.map]
  rw [haside]
  constructor
  · rintro ⟨n, sink, hrun⟩
    obtain ⟨data, broken, ls, hdata, hls, -, -, hall, -, rfl⟩ := runInto_ok_iff.mp hrun
    rw [inputData, Except.ok.injEq, Prod.mk.injEq] at hdata
    obtain ⟨rfl, rfl⟩ := hdata
    obtain ⟨launch, rfl⟩ : ∃ launch, ls = [launch] := List.length_eq_one_iff.mp <| by
      simpa using (congrArg List.length hls).symm
    exact ⟨launch, by simpa using hls, hall _ (by simp [executions, statuses, Launch.run]), rfl⟩
  · rintro ⟨launch, hlaunch, hsuccess, rfl⟩
    have hall : ∀ status ∈ statuses (executions l.now [launch] [] false l.tree).1,
        status.success = true := by
      intro status hstatus
      rw [List.mem_singleton.mp hstatus]
      exact hsuccess
    exact ⟨_, _, runInto_ok_iff.mpr ⟨[], false, [launch], rfl, by simp [hlaunch],
      Sink.copy_unlimited rfl _, rfl, hall, fun _ => rfl, rfl⟩⟩

end Pipeline

end AssetServer
