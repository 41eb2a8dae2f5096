import AssetServer.Proofs.Bundle
import AssetServer.Proofs.Reaping

/-!
# Failing in construction

A compilation fails in construction if something that is to be run cannot be: a source of a kind that
is not built, a manifest that cannot be used, a tool that is missing, a stage that does not start.
That the failing pipeline does not run does not mean that nothing has run before it.

- `Pipeline.Course` says what running a pipeline into a sink does to processes.
- `Compiler.Halts` is a run that fails in construction and writes nothing, `Compiler.Halted` tells
  what happens to processes in it; a single source fails like that (`Compiler.compileSource_halts`).
- `Compiler.UnitsRun` are the units of a bundle that are compiled before the one that fails; each of
  them has started processes.
- `Compiler.construction_stops` puts this together, and tells when nothing has run.
-/

namespace AssetServer

variable {σ α β : Type}

/-! ## §1 Actions that are past construction -/

/-- No run of an action fails in construction. -/
def Constructed (act : ExceptT Failure (StateM σ) α) : Prop :=
  Ends (fun _ failure _ => ∀ e, failure = some e → e.kind ≠ .construction) act

namespace Constructed

theorem pure (a : α) : Constructed (Pure.pure a : ExceptT Failure (StateM σ) α) :=
  fun _ _ he => by cases he

theorem throw {e : Failure} (he : e.kind ≠ .construction) :
    Constructed (MonadExcept.throw e : ExceptT Failure (StateM σ) α) :=
  fun _ _ heq => Option.some.inj heq ▸ he

theorem bind {act : ExceptT Failure (StateM σ) α} {next : α → ExceptT Failure (StateM σ) β}
    (hact : Constructed act) (hnext : ∀ a, Constructed (next a)) : Constructed (act >>= next) :=
  Ends.bind (fun _ _ _ _ _ h => h) hact hnext

theorem read {f : Host → Except Failure α} (hf : ∀ h e, f h = .error e → e.kind ≠ .construction) :
    Constructed (Act.read f) := by
  intro h e he
  rw [runFrom_read] at he
  cases hfound : f h with
  | ok a =>
    rw [hfound] at he
    cases he
  | error e' =>
    rw [hfound] at he
    cases he
    exact hf h e hfound

theorem ofAct {act : Act α} (hact : Constructed act) : Constructed (Emit.ofAct act) :=
  fun o => hact o.host

theorem copy {fault : OsError → Failure} (hfault : ∀ e, (fault e).kind ≠ .construction)
    (data : Bytes) : Constructed (Emit.copy fault data) := by
  intro o e he
  unfold Emit.copy at he
  rw [runFrom_emit] at he
  rcases hcopy : o.sink.copy data with ⟨result, sink⟩
  rw [hcopy] at he
  cases result with
  | ok _ => cases he
  | error e' =>
    cases he
    exact hfault e'

theorem kind_ne {act : ExceptT Failure (StateM σ) α} {s t : σ} {e : Failure}
    (hact : Constructed act) (hrun : runFrom act s = (.error e, t)) : e.kind ≠ .construction :=
  hact s e (by rw [hrun]; rfl)

/-- What comes before an action that is past construction is what fails in construction. -/
theorem of_bind {act : ExceptT Failure (StateM σ) α} {next : α → ExceptT Failure (StateM σ) β}
    {s t : σ} {e : Failure} (hnext : ∀ a, Constructed (next a))
    (hrun : runFrom (act >>= next) s = (.error e, t)) (he : e.kind = .construction) :
    runFrom act s = (.error e, t) := by
  rw [runFrom_bind] at hrun
  rcases hact : runFrom act s with ⟨result, s'⟩
  rw [hact] at hrun
  cases result with
  | ok a =>
    have hrun : runFrom (next a) s' = (.error e, t) := hrun
    exact absurd he ((hnext a).kind_ne hrun)
  | error e' =>
    have hrun : ((.error e', s') : Except Failure β × σ) = (.error e, t) := hrun
    cases hrun
    rfl

end Constructed

theorem copyFile_constructed (p : Path) : Constructed (copyFile p) := by
  refine .bind (.ofAct (.read fun h e he => ?_)) fun data => .copy (fun _ he => by cases he) data
  split at he
  · cases he
  · cases he
    exact fun he => by cases he

theorem appendFile_constructed (source p : Path) : Constructed (appendFile source p) := by
  refine .bind (.ofAct (.read fun h e he => ?_)) fun opened => ?_
  · split at he
    · cases he
    · cases he
      exact fun he => by cases he
  · cases opened.read with
    | ok data => exact .copy (fun _ he => by cases he) data
    | error e => exact .throw fun he => by cases he

theorem appendFiles_constructed (source : Path) (paths : List Path) :
    Constructed (appendFiles source paths) := by
  induction paths with
  | nil => exact .pure 0
  | cons p rest ih => exact .bind (appendFile_constructed source p) fun _ => .bind ih fun _ => .pure _

/-- Following directives is past construction. -/
theorem expand_constructed (source : Path) : Constructed (expand source) := by
  refine .bind (.ofAct (.read fun h e he => ?_)) fun _ => appendFiles_constructed _ _
  split at he
  · cases he
    exact fun he => by cases he
  · split at he
    · cases he
      exact fun he => by cases he
    · cases he

/-! ## §2 Pipelines -/

namespace Host

variable {h k : Host} {events : List ProcessEvent}

theorem processes_eq (h : Host) :
    h.processes = (h.journal.filterMap ProcessEvent.started?).length := by
  unfold processes
  induction h.journal with
  | nil => rfl
  | cons e rest ih => cases e <;> simp [List.filterMap_cons, ProcessEvent.started?, ih]

/-- The processes that events start are counted. -/
theorem processes_append (hk : k.journal = h.journal ++ events) :
    k.processes = h.processes + (events.filterMap ProcessEvent.started?).length := by
  rw [processes_eq, processes_eq, hk, List.filterMap_append, List.length_append]

/-- Nothing happens to processes between two hosts. -/
def Still (h k : Host) : Prop :=
  k.journal = h.journal

theorem Still.refl (h : Host) : h.Still h := rfl

theorem Still.trans (h k l : Host) (hk : h.Still k) (hl : k.Still l) : h.Still l :=
  Eq.trans hl hk

theorem Still.processes (hk : h.Still k) : k.processes = h.processes := by
  unfold Host.processes
  rw [hk]

end Host

namespace Running

/-- A pipeline that has been started can fail in execution only. -/
theorem finish_kind {r : Running} {o o' : Outlet} {e : Failure}
    (hrun : runFrom r.finish o = (.error e, o')) : e.kind = .execution := by
  -- it is the copy that failed, or else a stage or the passing on of the input
  have hcopied : ∀ e, (r.drain o.sink).1 = .error e → e.kind = .execution := by
    intro e he
    unfold drain at he
    split at he
    · cases he
    · split at he
      · cases he
      · cases he
        rfl
  have hwaited : ∀ (r : Running) (h : Host) e, (r.wait h).1 = .error e → e.kind = .execution := by
    intro r h e he
    simp only [wait] at he
    split at he
    · rename_i failure hfailure
      cases he
      unfold failure? firstFailure? feedFailure? at hfailure
      rw [Option.or_eq_some_iff, Option.map_eq_some_iff, Option.map_eq_some_iff] at hfailure
      obtain ⟨s, -, rfl⟩ | ⟨-, cause, -, rfl⟩ := hfailure
      · rfl
      · rfl
    · cases he
  unfold finish at hrun
  rw [runFrom_emit] at hrun
  have hresult := congrArg Prod.fst hrun
  simp only at hresult
  split at hresult
  · rename_i copied waited e' hcase
    cases hresult
    exact hcopied _ hcase
  · rename_i copied waited n e' hcase hwait
    cases hresult
    exact hwaited _ _ _ hwait
  · cases hresult

end Running

namespace Pipeline

open ProcessEvent

/-- What running a pipeline into a sink comes to, and what happens to processes meanwhile. -/
inductive Course (p : Pipeline) (o : Outlet) : Except Failure Nat → Outlet → Prop where
  /-- The input cannot be opened: nothing is started. -/
  | unopened {e : Failure} {o' : Outlet} (hkind : e.kind = .environment) (hsink : o'.sink = o.sink)
      (hjournal : o'.host.journal = o.host.journal) : Course p o (.error e) o'
  /-- A stage does not start: those before it are killed and waited for. -/
  | refused {index : Nat} {name : String} {cause : OsError} {o' : Outlet}
      (hindex : index < p.stages.length) (hsink : o'.sink = o.sink)
      (hjournal : o'.host.journal = o.host.journal ++
        (starts (List.range' o.host.processes index) ++
          kills (List.range' o.host.processes index))) :
      Course p o (.error (.notStarted index name cause)) o'
  /-- All stages start and are waited for. -/
  | ran {result : Except Failure Nat} {o' : Outlet}
      (hkind : ∀ e, result = .error e → e.kind = .execution)
      (hjournal : o'.host.journal = o.host.journal ++
        (starts (List.range' o.host.processes p.stages.length) ++
          waits (List.range' o.host.processes p.stages.length))) :
      Course p o result o'

theorem runInto_course (p : Pipeline) (input : PipelineInput) (o : Outlet) :
    p.Course o (runFrom (p.runInto input) o).1 (runFrom (p.runInto input) o).2 := by
  obtain ⟨events, hspawns, hjournal⟩ := p.spawn_spawns input o.host
  rw [runInto_eq, runFrom_bind, runFrom_ofAct]
  rcases hrun : runFrom (p.spawn input) o.host with ⟨result, h₁⟩
  rw [hrun] at hspawns hjournal
  cases hspawns with
  | unopened hinput hopen => exact .unopened rfl rfl (by simpa using hjournal)
  | @refused before rest c e hstages hbefore hc =>
    -- the stage that did not start has as many before it as are on record
    refine .refused ?_ rfl hjournal
    rw [hstages]
    simp
  | @running r hall hprocesses hnames =>
    refine .ran (fun e he => ?_) ?_
    · exact Running.finish_kind (Prod.ext he rfl)
    · show (runFrom r.finish ⟨h₁, o.sink⟩).2.host.journal = _
      rw [Running.finish_notes, hprocesses]
      show h₁.journal ++ _ = _
      rw [hjournal, List.append_assoc]

variable {p : Pipeline} {o o' : Outlet}

/-- A pipeline that succeeds has started all of its stages and waited for them. -/
theorem Course.journal {n : Nat} (hcourse : p.Course o (.ok n) o') :
    o'.host.journal = o.host.journal ++
      (starts (List.range' o.host.processes p.stages.length) ++
        waits (List.range' o.host.processes p.stages.length)) := by
  cases hcourse with
  | ran hkind hjournal => exact hjournal

theorem Course.processes {n : Nat} (hcourse : p.Course o (.ok n) o') :
    o'.host.processes = o.host.processes + p.stages.length := by
  rw [Host.processes_append hcourse.journal, List.filterMap_append, started?_starts, started?_waits]
  simp

end Pipeline

/-! ## §3 Plans -/

/-- Whether a failure is that of starting a stage. -/
def Failure.Starting : Failure → Prop
  | .notStarted .. => True
  | _ => False

namespace Pipeline

variable {h : Host}

theorem length_pin (h : Host) (cs : List Command) : (pin h cs).1.length = cs.length := by
  induction cs with
  | nil => rfl
  | cons c rest ih =>
    unfold pin
    split
    · rfl
    · simpa using ih

theorem pin_starting {cs : List Command} {e : Failure} (hpin : (pin h cs).2 = some e) :
    ¬ e.Starting := by
  obtain ⟨_, c, _, -, -, -, rfl⟩ := pin_error_iff.mp ⟨_, Prod.ext rfl hpin⟩
  exact id

end Pipeline

namespace Compiler

/-- The plans that are made: a pipeline of one or two stages is streamed, those with a file between
    them have one stage each. -/
inductive Planned : Plan → Prop where
  | passthrough (path : Path) : Planned (.passthrough path)
  | bundle (manifest : Path) : Planned (.bundle manifest)
  | stream {p : Pipeline} (hsome : 0 < p.stages.length) (htwo : p.stages.length ≤ 2) :
      Planned (.stream p)
  | intermediate {compile : Pipeline} {artifact scratch : Path} {optimize : Option Pipeline}
      (hcompile : compile.stages.length = 1) (hoptimize : ∀ p ∈ optimize, p.stages.length = 1) :
      Planned (.intermediate compile artifact optimize scratch)

/-- What planning gives: such a plan, or a failure before any stage is to be started. -/
structure PlanResult (result : Except Failure Plan) : Prop where
  planned : ∀ plan, result = .ok plan → Planned plan
  unstarted : ∀ e, result = .error e → ¬ e.Starting

namespace PlanResult

theorem ok {plan : Plan} (hplan : Planned plan) : PlanResult (.ok plan) :=
  ⟨fun _ h => Except.ok.inj h ▸ hplan, nofun⟩

theorem error {e : Failure} (he : ¬ e.Starting) : PlanResult (.error e) :=
  ⟨nofun, fun _ h => Except.error.inj h ▸ he⟩

end PlanResult

variable {c : Compiler} {h k : Host} {kind : Kind} {source : Path}

/-- Locating the tools of a pipeline keeps its length and starts nothing. -/
theorem located_cases (h : Host) (p : Pipeline) :
    (∃ q, located h p = .ok q ∧ q.stages.length = p.stages.length) ∨
      ∃ e, located h p = .error e ∧ ¬ e.Starting := by
  unfold located Pipeline.resolveTools
  rcases hpin : Pipeline.pin h p.stages with ⟨stages, failure⟩
  cases failure with
  | none =>
    refine .inl ⟨⟨stages⟩, rfl, ?_⟩
    rw [← Pipeline.length_pin h p.stages, hpin]
  | some e => exact .inr ⟨e, rfl, Pipeline.pin_starting (congrArg Prod.snd hpin)⟩

theorem streamPlan_result (h : Host) (first : Command) (optimizer : Option Command) :
    PlanResult (streamPlan h first optimizer) := by
  unfold streamPlan
  rcases located_cases h ⟨first :: optimizer.toList⟩ with ⟨q, hq, hlength⟩ | ⟨e, he, hstarting⟩
  · rw [hq]
    refine .ok (.stream ?_ ?_)
    · rw [hlength]
      simp
    · rw [hlength]
      cases optimizer <;> simp
  · rw [he]
    exact .error hstarting

theorem intermediatePlan_result (c : Compiler) (h : Host) (source scratch : Path)
    (optimizer : Option Command) : PlanResult (c.intermediatePlan h source scratch optimizer) := by
  unfold intermediatePlan
  rcases located_cases h ⟨[c.typescript source (scratch.join "out.js")]⟩ with
    ⟨compile, hcompile, hlength⟩ | ⟨e, he, hstarting⟩
  · simp only [hcompile]
    cases optimizer with
    | none => exact .ok (.intermediate hlength nofun)
    | some stage =>
      rcases located_cases h ⟨[stage]⟩ with ⟨p, hp, hone⟩ | ⟨e, he, hstarting⟩
      · simp only [hp]
        exact .ok (.intermediate hlength fun q hq => Option.some.inj hq ▸ hone)
      · simp only [he]
        exact .error hstarting
  · simp only [he]
    exact .error hstarting

theorem removeScratch_still (scratch : Path) (h : Host) : h.Still (removeScratch scratch h) := by
  unfold removeScratch
  split
  · rfl
  · rfl

/-- Planning starts nothing, and fails before any stage is to be started. -/
theorem plan_result (c : Compiler) (kind : Kind) (source : Path) (h : Host) :
    PlanResult (runFrom (c.plan kind source) h).1 ∧
      h.Still (runFrom (c.plan kind source) h).2 := by
  -- only the plan for a typed script makes a directory, and removes it again if planning fails
  cases kind with
  | component =>
    rw [plan_component, runFrom_read]
    dsimp only
    exact ⟨streamPlan_result h _ _, rfl⟩
  | stylesheet =>
    rw [plan_stylesheet, runFrom_read]
    dsimp only
    exact ⟨streamPlan_result h _ _, rfl⟩
  | preprocessedScript =>
    rw [plan_preprocessedScript, runFrom_read]
    dsimp only
    exact ⟨streamPlan_result h _ _, rfl⟩
  | bundle =>
    rw [plan_bundle, runFrom_read]
    exact ⟨.ok (.bundle source), rfl⟩
  | passthrough =>
    rw [plan_passthrough, runFrom_read]
    exact ⟨.ok (.passthrough source), rfl⟩
  | unknown =>
    rw [plan_unknown, runFrom_read]
    exact ⟨.error id, rfl⟩
  | typedSuperset =>
    rw [plan_typedSuperset, runFrom_bind]
    unfold makeScratch
    rw [runFrom_ofPair]
    simp only
    cases h.tree.makeDirectory h.directory (h.temporaryPath.join (Host.scratchName h.scratches)) with
    | error e => exact ⟨.error id, rfl⟩
    | ok tree =>
      simp only [runFrom_ofPair]
      have hresult := c.intermediatePlan_result { h with tree, scratches := h.scratches + 1 } source
        (h.temporaryPath.join (Host.scratchName h.scratches)) (c.optimizerStage? .typedSuperset)
      cases hplan : c.intermediatePlan { h with tree, scratches := h.scratches + 1 } source
        (h.temporaryPath.join (Host.scratchName h.scratches)) (c.optimizerStage? .typedSuperset) with
      | ok plan =>
        rw [hplan] at hresult
        exact ⟨hresult, rfl⟩
      | error e =>
        rw [hplan] at hresult
        refine ⟨hresult, ?_⟩
        dsimp only
        exact removeScratch_still _ { h with tree, scratches := h.scratches + 1 }

/-! ## §4 One source -/

/-- How a source fails in construction, by the number that the next process has, and what happens to
    processes meanwhile. -/
inductive Halted (n : Nat) : Failure → List ProcessEvent → Prop where
  /-- Nothing is to be started yet. -/
  | unstarted {e : Failure} (he : ¬ e.Starting) : Halted n e []
  /-- The first stage does not start. -/
  | first (name : String) (cause : OsError) : Halted n (.notStarted 0 name cause) []
  /-- The optimizer that reads from the first stage does not start. -/
  | second (name : String) (cause : OsError) :
      Halted n (.notStarted 1 name cause) [.started n, .killed n, .reaped n]
  /-- The optimizer that reads what the compiler has left in a file does not start. -/
  | optimizer (name : String) (cause : OsError) :
      Halted n (.notStarted 0 name cause) [.started n, .reaped n]

/-- A run that fails in construction writes nothing. -/
structure Halts (o : Outlet) (e : Failure) (o' : Outlet) (events : List ProcessEvent) : Prop where
  halted : Halted o.host.processes e events
  sink : o'.sink = o.sink
  journal : o'.host.journal = o.host.journal ++ events

variable {o o' : Outlet} {e : Failure} {plan : Plan} {p : Pipeline} {input : PipelineInput}

/-- A pipeline fails in construction if one of its stages does not start. -/
theorem runInto_construction (hrun : runFrom (p.runInto input) o = (.error e, o'))
    (he : e.kind = .construction) : ∃ index name cause, index < p.stages.length ∧
      e = .notStarted index name cause ∧ o'.sink = o.sink ∧
      o'.host.journal = o.host.journal ++
        (ProcessEvent.starts (List.range' o.host.processes index) ++
          ProcessEvent.kills (List.range' o.host.processes index)) := by
  have hcourse := p.runInto_course input o
  rw [hrun] at hcourse
  cases hcourse with
  | unopened hkind =>
    rw [he] at hkind
    cases hkind
  | refused hindex hsink hjournal => exact ⟨_, _, _, hindex, rfl, hsink, hjournal⟩
  | ran hkind =>
    rw [hkind e rfl] at he
    cases he

/-- Passing an artifact on ends as making it does if that fails, and else as what is done with the
    artifact, one process later. -/
theorem passArtifact_cases {compile : Pipeline} {artifact : Path} {optimize : Option Pipeline}
    {result : Except Failure Nat} (hcompile : compile.stages.length = 1)
    (hrun : runFrom (passArtifact compile artifact optimize) o = (result, o')) :
    (∃ e o₁, runFrom (compile.runInto .null) ⟨o.host, .unlimited⟩ = (.error e, o₁) ∧
      result = .error e ∧ o' = ⟨o₁.host, o.sink⟩) ∨
    ∃ h₁ : Host, h₁.processes = o.host.processes + 1 ∧
      h₁.journal = o.host.journal ++ [.started o.host.processes, .reaped o.host.processes] ∧
      runFrom (match optimize with
        | some p => p.runInto (.file artifact)
        | none => copyFile artifact) ⟨h₁, o.sink⟩ = (result, o') := by
  have hcourse := compile.runInto_course .null ⟨o.host, .unlimited⟩
  unfold passArtifact at hrun
  rw [runFrom_bind, runFrom_ofAct, runFrom_runAside] at hrun
  rcases hmade : runFrom (compile.runInto .null) ⟨o.host, .unlimited⟩ with ⟨made, o₁⟩
  rw [hmade] at hrun hcourse
  cases made with
  | error e =>
    cases hrun
    exact .inl ⟨e, o₁, rfl, rfl, rfl⟩
  | ok n =>
    have hjournal := hcourse.journal
    rw [hcompile] at hjournal
    exact .inr ⟨o₁.host, hcompile ▸ hcourse.processes, hjournal, hrun⟩

theorem passArtifact_halts {compile : Pipeline} {artifact : Path} {optimize : Option Pipeline}
    (hcompile : compile.stages.length = 1) (hoptimize : ∀ p ∈ optimize, p.stages.length = 1)
    (hrun : runFrom (passArtifact compile artifact optimize) o = (.error e, o'))
    (he : e.kind = .construction) : ∃ events, Halts o e o' events := by
  rcases passArtifact_cases hcompile hrun with
    ⟨e', o₁, hmade, herror, rfl⟩ | ⟨h₁, -, hjournal₁, hpassed⟩
  · cases herror
    obtain ⟨index, name, cause, hindex, rfl, -, hjournal⟩ := runInto_construction hmade he
    obtain rfl : index = 0 := by omega
    exact ⟨[], .first name cause, rfl, hjournal⟩
  · -- the compiler has run beside the sink, so it is the optimizer that does not start
    cases optimize with
    | none => exact absurd he ((copyFile_constructed artifact).kind_ne hpassed)
    | some p =>
      obtain ⟨index, name, cause, hindex, rfl, hsink, hjournal⟩ := runInto_construction hpassed he
      rw [hoptimize p rfl] at hindex
      obtain rfl : index = 0 := by omega
      refine ⟨_, .optimizer name cause, hsink, ?_⟩
      rw [hjournal]
      exact (List.append_nil _).trans hjournal₁

theorem runPlan_halts (hplan : Planned plan) (hrun : runFrom (runPlan plan) o = (.error e, o'))
    (he : e.kind = .construction) : ∃ events, Halts o e o' events := by
  cases hplan with
  | passthrough path =>
    have hcopied : runFrom (copyFile path) o = (.error e, o') := hrun
    exact absurd he ((copyFile_constructed path).kind_ne hcopied)
  | bundle manifest => cases hrun
  | @stream p hsome htwo =>
    have hstreamed : runFrom (p.runInto .null) o = (.error e, o') := hrun
    obtain ⟨index, name, cause, hindex, rfl, hsink, hjournal⟩ := runInto_construction hstreamed he
    -- a stream has two stages at most, and what was started before the second is one process
    obtain rfl | rfl : index = 0 ∨ index = 1 := by omega
    · exact ⟨[], .first name cause, hsink, hjournal⟩
    · exact ⟨_, .second name cause, hsink, hjournal⟩
  | @intermediate compile artifact scratch optimize hcompile hoptimize =>
    unfold runPlan at hrun
    rw [runFrom_withScratch] at hrun
    rcases hpass : runFrom (passArtifact compile artifact optimize) o with ⟨result, o₁⟩
    rw [hpass] at hrun
    cases hrun
    obtain ⟨events, hhalted, hsink, hjournal⟩ := passArtifact_halts hcompile hoptimize hpass he
    exact ⟨events, hhalted, hsink, Eq.trans (removeScratch_still _ _) hjournal⟩

theorem finishPlan_construction (hrun : runFrom (finishPlan source plan) o = (.error e, o'))
    (he : e.kind = .construction) : runFrom (runPlan plan) o = (.error e, o') := by
  have hexpand : ∀ n, Constructed (expand source >>= fun more => (pure (n + more) : Emit Nat)) :=
    fun n => .bind (expand_constructed source) fun _ => .pure _
  cases plan with
  | passthrough path => exact hrun
  | bundle manifest => exact hrun
  | stream p => exact Constructed.of_bind hexpand hrun he
  | intermediate compile artifact optimize scratch => exact Constructed.of_bind hexpand hrun he

/-- A source that fails in construction has run at most the first of its stages. -/
theorem compileSource_halts (hrun : runFrom (c.compileSource kind source) o = (.error e, o'))
    (he : e.kind = .construction) : ∃ events, Halts o e o' events := by
  obtain ⟨hresult, hstill⟩ := c.plan_result kind source o.host
  rw [compileSource_eq, runFrom_bind, runFrom_ofAct] at hrun
  rcases hplan : runFrom (c.plan kind source) o.host with ⟨result, h₁⟩
  rw [hplan] at hrun hresult hstill
  cases result with
  | error e' =>
    cases hrun
    exact ⟨[], .unstarted (hresult.unstarted _ rfl), rfl, Eq.trans hstill (List.append_nil _).symm⟩
  | ok plan =>
    have hfinish : runFrom (finishPlan source plan) ⟨h₁, o.sink⟩ = (.error e, o') := hrun
    obtain ⟨events, hhalted, hsink, hlater⟩ :=
      runPlan_halts (hresult.planned _ rfl) (finishPlan_construction hfinish he) he
    have hhalted : Halted h₁.processes e events := hhalted
    rw [hstill.processes] at hhalted
    exact ⟨events, hhalted, hsink, hlater.trans (congrArg (· ++ events) hstill)⟩

/-! ## §5 Units that come first -/

theorem passArtifact_starts {compile : Pipeline} {artifact : Path} {optimize : Option Pipeline}
    {n : Nat} (hcompile : compile.stages.length = 1)
    (hrun : runFrom (passArtifact compile artifact optimize) o = (.ok n, o')) :
    o.host.processes < o'.host.processes := by
  rcases passArtifact_cases hcompile hrun with ⟨e, o₁, -, herror, -⟩ | ⟨h₁, hfirst, -, hpassed⟩
  · cases herror
  · cases optimize with
    -- the compiler has run; what passes the artifact on starts the optimizer or nothing
    | none =>
      have hstill := copyFile_moves Host.Still.refl Host.Still.trans artifact ⟨h₁, o.sink⟩
      rw [hpassed] at hstill
      rw [hstill.processes, hfirst]
      exact Nat.lt_succ_self _
    | some p =>
      have hlast := p.runInto_course (.file artifact) ⟨h₁, o.sink⟩
      rw [hpassed] at hlast
      have hmore := hlast.processes
      simp only at hmore
      omega

theorem runPlan_starts {n : Nat} (hplan : Planned plan) (hruns : Runs plan)
    (hrun : runFrom (runPlan plan) o = (.ok n, o')) : o.host.processes < o'.host.processes := by
  cases hplan with
  | passthrough path => exact hruns.elim
  | bundle manifest => exact hruns.elim
  | @stream p hsome htwo =>
    have hcourse := p.runInto_course .null o
    have hstreamed : runFrom (p.runInto .null) o = (.ok n, o') := hrun
    rw [hstreamed] at hcourse
    rw [hcourse.processes]
    omega
  | @intermediate compile artifact scratch optimize hcompile hoptimize =>
    unfold runPlan at hrun
    rw [runFrom_withScratch] at hrun
    rcases hpass : runFrom (passArtifact compile artifact optimize) o with ⟨result, o₁⟩
    rw [hpass] at hrun
    cases hrun
    dsimp only
    rw [(removeScratch_still scratch o₁.host).processes]
    exact passArtifact_starts hcompile hpass

/-- A unit that has been compiled has run some process. -/
theorem compileSource_starts {n : Nat} (hkind : kind ∈ unitKinds)
    (hrun : runFrom (c.compileSource kind source) o = (.ok n, o')) :
    o.host.processes < o'.host.processes := by
  obtain ⟨hresult, hplanStill⟩ := c.plan_result kind source o.host
  rw [compileSource_eq] at hrun
  obtain ⟨plan, o₁, hplan, hfinish⟩ := runFrom_bind_ok.mp hrun
  obtain ⟨h₁, hplanned, rfl⟩ := runFrom_ofAct_ok.mp hplan
  rw [hplanned] at hresult hplanStill
  have hruns := plan_runs hkind hplanned
  rw [finishPlan_of_runs hruns] at hfinish
  obtain ⟨m, o₂, hfirst, hrest⟩ := runFrom_bind_ok.mp hfinish
  have hstarts := runPlan_starts (hresult.planned _ rfl) hruns hfirst
  -- what the directives name is only read
  have hread : MovesHost Host.Still
      (expand source >>= fun more => (pure (m + more) : Emit Nat)) :=
    .bind Host.Still.trans (expand_moves Host.Still.refl Host.Still.trans source) fun _ =>
      .pure Host.Still.refl _
  have hstill := hread o₂
  rw [hrest] at hstill
  rw [hstill.processes]
  dsimp only at hstarts
  rwa [hplanStill.processes] at hstarts

/-- Units that have been compiled into a sink, one after another. -/
inductive UnitsRun (c : Compiler) (m : Manifest) (dir : Path) :
    List BundleUnit → Outlet → Outlet → Prop where
  | nil (o : Outlet) : UnitsRun c m dir [] o o
  | cons {u : BundleUnit} {rest : List BundleUnit} {o o₁ o₂ : Outlet} {n : Nat}
      (hkind : Kind.ofPath (dir.join u.file) ∈ unitKinds)
      (hunit : runFrom ((c.ofUnit m dir u).compile (Kind.ofPath (dir.join u.file))
        (dir.join u.file)) o = (.ok n, o₁))
      (hrest : UnitsRun c m dir rest o₁ o₂) : UnitsRun c m dir (u :: rest) o o₂

/-- What has been compiled of a source before it fails: nothing, or units of a bundle. -/
inductive Before (c : Compiler) : Kind → Path → List BundleUnit → Outlet → Outlet → Prop where
  | nothing (kind : Kind) (source : Path) (o : Outlet) : Before c kind source [] o o
  | units {source : Path} {m : Manifest} {done rest : List BundleUnit} {u : BundleUnit}
      {o o₁ : Outlet} (hload : runFrom (loadManifest source) o.host = (.ok m, o.host))
      (hunits : m.units = done ++ u :: rest) (hdone : c.UnitsRun m (unitsDirectory source) done o o₁) :
      Before c .bundle source done o o₁

section Units

variable {m : Manifest} {manifest dir : Path} {done units : List BundleUnit} {index : Nat}

theorem UnitsRun.processes (hdone : c.UnitsRun m dir done o o') :
    o.host.processes + done.length ≤ o'.host.processes := by
  induction hdone with
  | nil o => exact Nat.le_refl _
  | cons hkind hunit hrest ih =>
    rw [compile_of_mem hkind] at hunit
    have hstarts := compileSource_starts hkind hunit
    rw [List.length_cons]
    omega

theorem compileUnits_halts
    (hrun : runFrom (c.compileUnits manifest dir m index units) o = (.error e, o'))
    (he : e.kind = .construction) : ∃ done u rest o₁ events, units = done ++ u :: rest ∧
      c.UnitsRun m dir done o o₁ ∧ Halts o₁ e o' events := by
  induction units generalizing index o with
  | nil => cases hrun
  | cons u rest ih =>
    by_cases hkind : Kind.ofPath (dir.join u.file) ∈ unitKinds
    · rw [compileUnits_cons hkind, runFrom_bind] at hrun
      rcases hunit : runFrom ((c.ofUnit m dir u).compile (Kind.ofPath (dir.join u.file))
        (dir.join u.file)) o with ⟨result, o₁⟩
      rw [hunit] at hrun
      cases result with
      | error e' =>
        cases hrun
        rw [compile_of_mem hkind] at hunit
        obtain ⟨events, hhalts⟩ := compileSource_halts hunit he
        exact ⟨[], u, rest, o, events, rfl, .nil o, hhalts⟩
      | ok n =>
        -- the unit has been compiled, so the units that follow fail
        have hlater := Constructed.of_bind (fun _ => .pure _) hrun he
        obtain ⟨done, v, more, o₂, events, rfl, hdone, hhalts⟩ := ih hlater
        exact ⟨u :: done, v, more, o₂, events, rfl, .cons hkind hunit hdone, hhalts⟩
    · -- a unit of another kind is refused before anything is planned for it
      obtain ⟨e', hthrow, hfails⟩ : ∃ e',
          c.compileUnits manifest dir m index (u :: rest) = (throw e' : Emit Nat) ∧
          c.UnitFails manifest m dir index u o.host e' [] o.host := by
        obtain ⟨e', -, hrefused⟩ := compileUnits_refused hkind
        exact ⟨e', hrefused⟩
      rw [hthrow] at hrun
      cases hrun
      have hstarting : ¬ e.Starting := by
        cases hfails with
        | nested => exact id
        | unsupported => exact id
        | run hmem => exact absurd hmem hkind
      exact ⟨[], u, rest, _, [], rfl, .nil _, .unstarted hstarting, rfl, (List.append_nil _).symm⟩

end Units

/-! ## §6 Any source -/

theorem loadManifest_starting {h k : Host} (hload : runFrom (loadManifest source) h = (.error e, k)) :
    ¬ e.Starting := by
  unfold loadManifest at hload
  rw [runFrom_read] at hload
  have hresult := congrArg Prod.fst hload
  dsimp only at hresult
  split at hresult
  · cases hresult
    exact id
  · split at hresult
    · cases hresult
      exact id
    · cases hresult

theorem compile_halts (hrun : runFrom (c.compile kind source) o = (.error e, o'))
    (he : e.kind = .construction) :
    ∃ done o₁ events, c.Before kind source done o o₁ ∧ Halts o₁ e o' events := by
  by_cases hbundle : kind = .bundle
  · subst hbundle
    have hcompile : c.compile .bundle source = Emit.ofAct (loadManifest source) >>= fun m =>
      c.compileUnits source (unitsDirectory source) m 0 m.units := rfl
    rw [hcompile, runFrom_bind, runFrom_ofAct] at hrun
    -- reading the manifest starts nothing, whether it succeeds or not
    have hkeeps : (runFrom (loadManifest source) o.host).2 = o.host := rfl
    rcases hload : runFrom (loadManifest source) o.host with ⟨result, h₁⟩
    rw [hload] at hrun hkeeps
    obtain rfl : h₁ = o.host := hkeeps
    cases result with
    | error e' =>
      cases hrun
      exact ⟨[], o, [], .nothing .bundle source o, .unstarted (loadManifest_starting hload), rfl,
        (List.append_nil _).symm⟩
    | ok m =>
      obtain ⟨done, u, rest, o₁, events, hunits, hdone, hhalts⟩ := compileUnits_halts hrun he
      exact ⟨done, o₁, events, .units hload hunits hdone, hhalts⟩
  · unfold compile at hrun
    rw [if_neg hbundle] at hrun
    obtain ⟨events, hhalts⟩ := compileSource_halts hrun he
    exact ⟨[], o, events, .nothing kind source o, hhalts⟩

theorem Halted.nil_of_started {n : Nat} {events : List ProcessEvent} (hhalted : Halted n e events)
    (hnone : events.filterMap ProcessEvent.started? = []) : events = [] := by
  cases hhalted with
  | unstarted => rfl
  | first => rfl
  | second => cases hnone
  | optimizer => cases hnone

theorem Before.processes {done : List BundleUnit} (hbefore : c.Before kind source done o o') :
    o.host.processes + done.length ≤ o'.host.processes ∧ (done = [] → o' = o) := by
  cases hbefore with
  | nothing => exact ⟨Nat.le_refl _, fun _ => rfl⟩
  | units hload hunits hdone =>
    refine ⟨hdone.processes, ?_⟩
    rintro rfl
    cases hdone
    rfl

/-- What has run when a compilation fails in construction: the units of the bundle that come before
    the one that fails, and of the pipeline that was to be started next the first stage, if another
    one does not start. The sink holds what it held after those units. So nothing has run and nothing
    was written exactly if there are no such units and it is not a later stage that does not
    start. -/
theorem construction_stops (hrun : runFrom (c.compile kind source) o = (.error e, o'))
    (he : e.kind = .construction) :
    ∃ done o₁ events, c.Before kind source done o o₁ ∧ Halted o₁.host.processes e events ∧
      o'.sink = o₁.sink ∧ o'.host.journal = o₁.host.journal ++ events ∧
      ((o'.host.processes = o.host.processes ∧ o'.sink.held = o.sink.held) ↔
        done = [] ∧ events = []) := by
  obtain ⟨done, o₁, events, hbefore, hhalted, hsink, hjournal⟩ := compile_halts hrun he
  obtain ⟨hprocesses, hnothing⟩ := hbefore.processes
  have hcount := Host.processes_append hjournal
  refine ⟨done, o₁, events, hbefore, hhalted, hsink, hjournal, ?_, ?_⟩
  · rintro ⟨hsame, -⟩
    -- every unit and every stage that was started counts
    have hdone : done.length = 0 := by omega
    have hevents : (events.filterMap ProcessEvent.started?).length = 0 := by omega
    exact ⟨List.length_eq_zero_iff.mp hdone,
      hhalted.nil_of_started (List.length_eq_zero_iff.mp hevents)⟩
  · rintro ⟨rfl, rfl⟩
    obtain rfl := hnothing rfl
    exact ⟨hcount, congrArg Sink.held hsink⟩

/-- A bundle of a script with macros and a file that is copied, and a program for every tool. -/
def mixedTree : Tree :=
  ⟨[(["bin"], .directory), (["bin", "tool"], executableFile), (["site"], .directory),
    (["site", "all.barrel"], plainFile (Utf8.encode "[[],[],[[\"a.main.js\"],[\"b.txt\"]]]")),
    (["site", "a.main.js"], plainFile []), (["site", "b.txt"], plainFile []),
    (["tmp"], .directory)]⟩

/-- A host with that bundle, and a preprocessor that writes the path it is given. -/
def mixedOutlet : Outlet :=
  ⟨.ofTree mixedTree (installed .echoing), .unlimited⟩

/-- What compiling that bundle comes to. -/
def mixedRun : Except Failure Nat × Outlet :=
  runFrom ((⟨oneTool, default⟩ : Compiler).compile .bundle ⟨"site/all.barrel"⟩) mixedOutlet

theorem mixedRun_fails :
    mixedRun.1 = .error (.unsupportedKind "passthrough" ⟨"site/b.txt"⟩) ∧
      mixedRun.2.host.processes = 1 := by
  decide +kernel

theorem mixed_stops : ∃ done o₁,
    mixedRun.1 = .error (.unsupportedKind "passthrough" ⟨"site/b.txt"⟩) ∧
    Before ⟨oneTool, default⟩ .bundle ⟨"site/all.barrel"⟩ done mixedOutlet o₁ ∧ done ≠ [] ∧
    mixedRun.2.sink = o₁.sink := by
  obtain ⟨herror, hcount⟩ := mixedRun_fails
  have hrun : mixedRun = (.error (.unsupportedKind "passthrough" ⟨"site/b.txt"⟩), mixedRun.2) :=
    Prod.ext herror rfl
  obtain ⟨done, o₁, events, hbefore, hhalted, hsink, -, hsilent⟩ := construction_stops hrun rfl
  refine ⟨done, o₁, herror, hbefore, ?_, hsink⟩
  rintro rfl
  -- no stage was to be started for the file, so a process can be one of a unit only
  have hevents : events = [] := by
    cases hhalted with
    | unstarted => rfl
  have hsame := (hsilent.mpr ⟨rfl, hevents⟩).1
  rw [hcount] at hsame
  exact absurd hsame (by decide)

/-- A failure in construction does not mean that nothing has run. -/
theorem construction_not_silent :
    ¬ ∀ (c : Compiler) (kind : Kind) (source : Path) (o o' : Outlet) (e : Failure),
      runFrom (c.compile kind source) o = (.error e, o') → e.kind = .construction →
        o'.host.processes = o.host.processes ∧ o'.sink.held = o.sink.held := by
  intro hall
  obtain ⟨herror, hcount⟩ := mixedRun_fails
  have hrun : mixedRun = (.error (.unsupportedKind "passthrough" ⟨"site/b.txt"⟩), mixedRun.2) :=
    Prod.ext herror rfl
  obtain ⟨hsame, -⟩ := hall _ _ _ _ _ _ hrun rfl
  rw [hcount] at hsame
  exact absurd hsame (by decide)

end Compiler

end AssetServer
