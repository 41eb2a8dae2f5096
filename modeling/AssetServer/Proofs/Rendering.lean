import AssetServer.Proofs.Amid
import AssetServer.Proofs.Bundle
import AssetServer.Proofs.Dataflow

/-!
# What a source compiles to

A source is compiled by its front end, then by the optimizer if that has a part in it, and then the
files follow that its directives name. The two shapes of a plan come to the same: a chain of
processes, or an artifact that is passed on.

- `Pipeline.Flows`: processes in a row that all end with success, and what they make of an input.
- `Compiler.Renders`: front end and optimizer. `Includes`: the files that directives name.
- `Pipeline.runInto_succeeds_iff`, `Compiler.runPlan_renders_iff`, `expand_ok_iff`: the parts of a
  compilation succeed exactly with these.
- `Compiler.compile_composes`: all of it, also for compiling into a file.
-/

namespace AssetServer

/-! ## §1 Processes in a row -/

/-- A run that ends with success: what it reads, or fails to read, what it writes, and the files
    before and after it. -/
structure Launch.Turns (l : Launch) (now : Instant) (t : Tree) (input : Bytes) (broken : Bool)
    (output : Bytes) (t' : Tree) : Prop where
  success : (l.run now input broken t).status.success = true
  output : (l.run now input broken t).output = output
  tree : (l.run now input broken t).tree = t'

/-- The executable of a command is located on one host and started on another state of it. -/
def Command.Starts (command : Command) (found started : Host) (l : Launch) : Prop :=
  ∃ path, found.locate? command.program = some path ∧
    started.launch (command.withProgram path) = .ok l

namespace Pipeline

variable {now : Instant} {h k : Host} {cs : List Command} {ls : List Launch} {input out : Bytes}
  {broken : Bool} {t t' : Tree}

/-- Processes in a row that all end with success. Each reads what the one before it writes, but for
    what may stay behind in the pipe. -/
inductive Flows (now : Instant) : List Launch → Tree → Bytes → Bool → Bytes → Tree → Prop where
  | last {l : Launch} {t t' : Tree} {input out : Bytes} {broken : Bool}
      (hturns : l.Turns now t input broken out t') : Flows now [l] t input broken out t'
  | cons {l next : Launch} {rest : List Launch} {t t₁ t' : Tree} {input data out : Bytes}
      {broken : Bool} (hturns : l.Turns now t input broken data t₁)
      (hread : (next.run now data false t₁).unread ≤ pipeCapacity)
      (hrest : Flows now (next :: rest) t₁ data false out t') :
      Flows now (l :: next :: rest) t input broken out t'

/-- The runs of a chain of processes end with success exactly if data flows through all of them. -/
theorem executions_flows (hne : ls ≠ []) :
    ((∀ status ∈ statuses (executions now ls input broken t).1, status.success = true) ∧
        lastOutput input (executions now ls input broken t).1 = out ∧
        (executions now ls input broken t).2 = t') ↔ Flows now ls t input broken out t' := by
  induction ls generalizing input broken t with
  | nil => exact absurd rfl hne
  | cons l rest ih =>
    have hruns : executions now (l :: rest) input broken t = (l.run now input broken t ::
        (executions now rest (l.run now input broken t).output false
          (l.run now input broken t).tree).1, (executions now rest
            (l.run now input broken t).output false (l.run now input broken t).tree).2) := rfl
    cases rest with
    | nil =>
      constructor
      · rintro ⟨hall, hlast, htree⟩
        exact .last ⟨hall _ (List.mem_cons_self), hlast, htree⟩
      · rintro ⟨hturns⟩
        refine ⟨fun status hstatus => ?_, hturns.output, hturns.tree⟩
        rw [List.mem_singleton.mp hstatus]
        exact hturns.success
    | cons next more =>
      rw [hruns, lastOutput_cons]
      -- the status of the first process is its own as long as the next one reads enough
      have hstatuses : ∀ run runs, statuses (run :: (executions now (next :: more) run.output false
          runs).1) = (if pipeCapacity < (next.run now run.output false runs).unread then brokenPipe
            else run.status) :: statuses (executions now (next :: more) run.output false runs).1 :=
        fun _ _ => rfl
      rw [hstatuses]
      constructor
      · rintro ⟨hall, hlast, htree⟩
        have hfirst := hall _ (List.mem_cons_self)
        have hread : ¬ pipeCapacity < (next.run now (l.run now input broken t).output false
            (l.run now input broken t).tree).unread := by
          intro hunread
          rw [if_pos hunread] at hfirst
          cases hfirst
        rw [if_neg hread] at hfirst
        exact .cons ⟨hfirst, rfl, rfl⟩ (Nat.not_lt.mp hread) ((ih (by simp)).mp
          ⟨fun status hstatus => hall status (List.mem_cons_of_mem _ hstatus), hlast, htree⟩)
      · intro hflows
        cases hflows with
        | cons hturns hread hrest =>
          obtain ⟨hsuccess, rfl, rfl⟩ := hturns
          obtain ⟨hall, hlast, htree⟩ := (ih (by simp)).mpr hrest
          refine ⟨fun status hstatus => ?_, hlast, htree⟩
          rcases List.mem_cons.mp hstatus with rfl | hstatus
          · rw [if_neg (Nat.not_lt.mpr hread)]
            exact hsuccess
          · exact hall status hstatus

/-! ## §2 Pipelines that succeed -/

/-- Where the sink takes everything and nothing stops the input, a pipeline succeeds exactly if its
    stages can be started and data flows through them. -/
theorem runInto_succeeds_iff {p : Pipeline} {source : PipelineInput} {s s' : Sink} {n : Nat}
    (hne : p.stages ≠ []) (hinput : inputData h source = .ok (input, broken))
    (hfed : feedFault? h source = none) (hroom : s.room = none) :
    (∃ k, runFrom (p.runInto source) ⟨h, s⟩ = (.ok n, ⟨k, s'⟩) ∧ k.tree = t) ↔
      ∃ ls out, p.stages.map h.launch = ls.map .ok ∧ Flows h.now ls h.tree input broken out t ∧
        n = out.length ∧ s' = s.accept out := by
  have hlist : ∀ {ls : List Launch}, p.stages.map h.launch = ls.map .ok → ls ≠ [] := by
    rintro _ hls rfl
    exact hne (List.map_eq_nil_iff.mp hls)
  rw [runInto_ok_iff]
  constructor
  · rintro ⟨data, b, ls, hdata, hls, hcopy, hn, hall, -, rfl⟩
    obtain ⟨rfl, rfl⟩ : input = data ∧ broken = b := by
      rw [hinput, Except.ok.injEq, Prod.mk.injEq] at hdata
      exact hdata
    rw [Sink.copy_unlimited hroom, Prod.mk.injEq] at hcopy
    exact ⟨ls, _, hls, (executions_flows (hlist hls)).mp ⟨hall, rfl, rfl⟩, hn, hcopy.2.symm⟩
  · rintro ⟨ls, out, hls, hflows, rfl, rfl⟩
    obtain ⟨hall, rfl, rfl⟩ := (executions_flows (hlist hls)).mpr hflows
    exact ⟨input, broken, ls, hinput, hls, Sink.copy_unlimited hroom _, rfl, hall, fun _ => hfed, rfl⟩

/-- The commands of a pipeline are located and its stages can be started exactly if each command
    starts. -/
theorem starts_iff {found : Host} : (∃ stages, pin found cs = (stages, none) ∧
      stages.map h.launch = ls.map .ok) ↔
    List.Forall₂ (fun c l => Command.Starts c found h l) cs ls := by
  simp only [pin_ok_iff]
  induction cs generalizing ls with
  | nil => simp [eq_comm]
  | cons c rest ih =>
    constructor
    · rintro ⟨_, _ | ⟨⟨path, hlocate, rfl⟩, hrest⟩, hls⟩
      cases ls with
      | nil => cases hls
      | cons l ls =>
        rw [List.map_cons, List.map_cons, List.cons.injEq] at hls
        exact .cons ⟨path, hlocate, hls.1⟩ (ih.mp ⟨_, hrest, hls.2⟩)
    · rintro (_ | ⟨⟨path, hlocate, hlaunch⟩, hrest⟩)
      obtain ⟨more, hpins, hls⟩ := ih.mpr hrest
      exact ⟨c.withProgram path :: more, .cons ⟨path, hlocate, rfl⟩ hpins,
        by rw [List.map_cons, List.map_cons, hlaunch, hls]⟩

/-- A pipeline that is located on one host succeeds on another state of it exactly if its commands
    start and data flows through them. -/
theorem located_succeeds_iff {found : Host} {source : PipelineInput} {s s' : Sink} {n : Nat}
    (hne : cs ≠ []) (hinput : inputData h source = .ok (input, broken))
    (hfed : feedFault? h source = none) (hroom : s.room = none) :
    (∃ p k, Compiler.located found ⟨cs⟩ = .ok p ∧
        runFrom (p.runInto source) ⟨h, s⟩ = (.ok n, ⟨k, s'⟩) ∧ k.tree = t) ↔
      ∃ ls out, List.Forall₂ (fun c l => Command.Starts c found h l) cs ls ∧
        Flows h.now ls h.tree input broken out t ∧ n = out.length ∧ s' = s.accept out := by
  have hstages : ∀ {stages : List Command}, pin found cs = (stages, none) → stages ≠ [] := by
    rintro stages hpin rfl
    have hstarts : List.Forall₂ (fun c l => Command.Starts c found h l) cs [] :=
      starts_iff.mp ⟨[], hpin, rfl⟩
    exact hne (List.forall₂_nil_right_iff.mp hstarts)
  constructor
  · rintro ⟨p, k, hlocated, hrun⟩
    have hpin := Compiler.located_ok_iff.mp hlocated
    obtain ⟨ls, out, hls, hflows⟩ :=
      (runInto_succeeds_iff (hstages hpin) hinput hfed hroom).mp ⟨k, hrun⟩
    exact ⟨ls, out, starts_iff.mp ⟨_, hpin, hls⟩, hflows⟩
  · rintro ⟨ls, out, hstarts, hflows⟩
    obtain ⟨stages, hpin, hls⟩ := starts_iff.mpr hstarts
    obtain ⟨k, hrun⟩ := (runInto_succeeds_iff (p := ⟨stages⟩) (hstages hpin) hinput hfed hroom).mpr
      ⟨ls, out, hls, hflows⟩
    exact ⟨⟨stages⟩, k, Compiler.located_ok_iff.mpr hpin, hrun⟩

end Pipeline

/-! ## §3 What a pipeline leaves alone -/

namespace Host

variable {h k l : Host}

/-- Nothing but files and the journal has changed. -/
def Runs (h k : Host) : Prop :=
  ∃ tree journal, k = { h with tree, journal }

theorem Runs.refl (h : Host) : h.Runs h :=
  ⟨h.tree, h.journal, rfl⟩

theorem Runs.trans (h k l : Host) (hk : h.Runs k) (hl : k.Runs l) : h.Runs l := by
  obtain ⟨tree, journal, rfl⟩ := hk
  obtain ⟨tree', journal', rfl⟩ := hl
  exact ⟨tree', journal', rfl⟩

theorem Runs.directory (hk : h.Runs k) : k.directory = h.directory := by
  obtain ⟨tree, journal, rfl⟩ := hk
  rfl

/-- What a command starts depends on the files, and not on the journal. -/
theorem Runs.launch (hk : h.Runs k) (c : Command) :
    k.launch c = ({ h with tree := k.tree } : Host).launch c := by
  obtain ⟨tree, journal, rfl⟩ := hk
  exact launch_journal { h with tree } journal c

theorem Runs.starts {found : Host} {c : Command} {p : Launch} (hk : h.Runs k) :
    c.Starts found k p ↔ c.Starts found { h with tree := k.tree } p := by
  unfold Command.Starts
  simp only [hk.launch]

end Host

namespace Pipeline

theorem runInto_runs (p : Pipeline) (input : PipelineInput) :
    MovesHost Host.Runs (p.runInto input) := by
  intro o
  obtain ⟨journal, launches, data, broken, -, hrun⟩ := runInto_run p input o
  exact ⟨_, journal, hrun⟩

end Pipeline

theorem runAside_runs (p : Pipeline) : Moves Host.Runs (runAside p) :=
  fun h => p.runInto_runs .null ⟨h, .unlimited⟩

/-! ## §4 Files that are appended -/

section Appending

variable {k : Host} {s : Sink} {o : Outlet} {n : Nat}

theorem copy_unlimited_iff {fault : OsError → Failure} {data : Bytes} (hroom : s.room = none) :
    runFrom (Emit.copy fault data) ⟨k, s⟩ = (.ok n, o) ↔
      n = data.length ∧ o = ⟨k, s.accept data⟩ := by
  simp [copy_ok_iff, Sink.copy_unlimited hroom, Sink.accept]

theorem copyFile_unlimited_iff {p : Path} (hroom : s.room = none) :
    runFrom (copyFile p) ⟨k, s⟩ = (.ok n, o) ↔ ∃ data, k.tree.bytesAt k.directory p = .ok data ∧
      n = data.length ∧ o = ⟨k, s.accept data⟩ := by
  simp [copyFile_ok_iff, Sink.copy_unlimited hroom, Sink.accept]

theorem appendFile_ok_iff {source p : Path} (hroom : s.room = none) :
    runFrom (appendFile source p) ⟨k, s⟩ = (.ok n, o) ↔
      ∃ part, k.tree.bytesAt k.directory p = .ok part ∧ n = part.length ∧
        o = ⟨k, s.accept part⟩ := by
  unfold appendFile Tree.bytesAt
  rw [runFrom_bind, runFrom_ofAct, runFrom_read]
  cases k.tree.openFile k.directory p with
  | error e => simp
  | ok opened =>
    simp only
    cases opened.read with
    | error e => simp [runFrom_throw]
    | ok part => simp [copy_unlimited_iff hroom]

theorem appendFiles_ok_iff {source : Path} {paths : List Path} (hroom : s.room = none) :
    runFrom (appendFiles source paths) ⟨k, s⟩ = (.ok n, o) ↔
      ∃ parts, List.Forall₂ (fun p part => k.tree.bytesAt k.directory p = .ok part) paths parts ∧
        n = parts.flatten.length ∧ o = ⟨k, s.accept parts.flatten⟩ := by
  induction paths generalizing s n o with
  | nil =>
    simp only [appendFiles, runFrom_pure, List.forall₂_nil_left_iff, exists_eq_left,
      List.flatten_nil, List.length_nil, Prod.mk.injEq, Except.ok.injEq, Sink.accept,
      List.append_nil]
    exact and_congr eq_comm eq_comm
  | cons p rest ih =>
    unfold appendFiles
    rw [runFrom_bind_ok]
    constructor
    · rintro ⟨m, o₁, hfirst, hrest⟩
      obtain ⟨part, hpart, rfl, rfl⟩ := (appendFile_ok_iff hroom).mp hfirst
      obtain ⟨more, o₂, hmore, hsum⟩ := runFrom_bind_ok.mp hrest
      obtain ⟨parts, hparts, rfl, rfl⟩ := (ih (s := s.accept part) hroom).mp hmore
      rw [runFrom_pure, Prod.mk.injEq, Except.ok.injEq] at hsum
      obtain ⟨rfl, rfl⟩ := hsum
      refine ⟨part :: parts, .cons hpart hparts, ?_, ?_⟩
      · rw [List.flatten_cons, List.length_append]
      · rw [List.flatten_cons, Sink.accept_accept]
    · rintro ⟨parts, hparts, rfl, rfl⟩
      cases hparts with
      | @cons _ part _ parts hpart hparts =>
        refine ⟨part.length, _, (appendFile_ok_iff hroom).mpr ⟨part, hpart, rfl, rfl⟩, ?_⟩
        refine runFrom_bind_ok.mpr ⟨parts.flatten.length, _,
          (ih (s := s.accept part) hroom).mpr ⟨parts, hparts, rfl, rfl⟩, ?_⟩
        rw [runFrom_pure, List.flatten_cons, List.length_append, Sink.accept_accept]

/-- The bytes of the files that the directives of a source name, one after another. -/
def Includes (t : Tree) (cwd : Location) (source : Path) (extra : Bytes) : Prop :=
  ∃ data directives parts, t.bytesAt cwd source = .ok data ∧
    Directive.scan data = .ok directives ∧
    List.Forall₂ (fun name part => t.bytesAt cwd ((source.parent.getD ⟨""⟩).join name) = .ok part)
      (Directive.files directives) parts ∧ extra = parts.flatten

theorem expand_ok_iff {source : Path} (hroom : s.room = none) :
    runFrom (expand source) ⟨k, s⟩ = (.ok n, o) ↔ ∃ extra,
      Includes k.tree k.directory source extra ∧ n = extra.length ∧ o = ⟨k, s.accept extra⟩ := by
  unfold expand
  rw [runFrom_bind_ok]
  constructor
  · rintro ⟨directives, o₁, hfirst, hrest⟩
    obtain ⟨k₁, hfound, rfl⟩ := runFrom_ofAct_ok.mp hfirst
    obtain ⟨⟨data, hdata, hscan⟩, rfl⟩ := directivesOf_ok_iff.mp hfound
    obtain ⟨parts, hparts, rfl, rfl⟩ := (appendFiles_ok_iff hroom).mp hrest
    rw [List.forall₂_map_left_iff] at hparts
    exact ⟨_, ⟨data, directives, parts, hdata, hscan, hparts, rfl⟩, rfl, rfl⟩
  · rintro ⟨_, ⟨data, directives, parts, hdata, hscan, hparts, rfl⟩, rfl, rfl⟩
    have hfound := directivesOf_ok_iff.mpr ⟨⟨data, hdata, hscan⟩, rfl⟩
    refine ⟨directives, ⟨k, s⟩, runFrom_ofAct_ok.mpr ⟨k, hfound, rfl⟩, ?_⟩
    exact (appendFiles_ok_iff hroom).mpr
      ⟨parts, List.forall₂_map_left_iff.mpr hparts, rfl, rfl⟩

end Appending

/-! ## §5 Front end and optimizer -/

/-- What is read of an artifact: the content of a file; of a directory nothing, which fails. -/
inductive Drafted (t : Tree) (cwd : Location) (artifact : Path) : Bytes → Bool → Prop where
  | file {f : RegularFile} (hopen : t.openFile cwd artifact = .ok (.file f)) :
      Drafted t cwd artifact f.content false
  | directory (hopen : t.openFile cwd artifact = .ok .directory) : Drafted t cwd artifact [] true

theorem inputData_file_iff {m : Host} {artifact : Path} {data : Bytes} {broken : Bool} :
    Pipeline.inputData m (.file artifact) = .ok (data, broken) ↔
      Drafted m.tree m.directory artifact data broken := by
  simp only [Pipeline.inputData]
  constructor
  · intro hdata
    split at hdata
    · cases hdata
    · rename_i f hopen
      cases hdata
      exact .file hopen
    · rename_i hopen
      cases hdata
      exact .directory hopen
  · rintro (hopen | hopen)
    · rw [hopen]
    · rw [hopen]

theorem bytesAt_iff_drafted {t : Tree} {cwd : Location} {artifact : Path} {data : Bytes} :
    t.bytesAt cwd artifact = .ok data ↔ Drafted t cwd artifact data false := by
  constructor
  · intro hdata
    obtain ⟨f, hopen, rfl⟩ := Tree.openFile_of_bytesAt hdata
    exact .file hopen
  · rintro (hopen | _)
    exact Tree.bytesAt_ok_iff.mpr ⟨_, hopen, rfl⟩

namespace Compiler

/-- The optimizer has a part in what a kind compiles to. -/
def Optimizing (c : Compiler) (kind : Kind) : Prop :=
  kind.optimized = true ∧ c.settings.level ≠ .none

/-- What the optimizer makes of the output of a front end, if it has a part in it; else that output
    as it is. Where the output is streamed, the optimizer reads all of it, but for what may stay
    behind in the pipe. -/
inductive Optimized (c : Compiler) (kind : Kind) (found started : Host) :
    Tree → Bytes → Bool → Bytes → Tree → Prop where
  | plain {t : Tree} {data : Bytes} (hnot : ¬ c.Optimizing kind) :
      Optimized c kind found started t data false data t
  | passed {l : Launch} {t t' : Tree} {data out : Bytes} {broken : Bool} (hopt : c.Optimizing kind)
      (hstarts : c.optimizer.Starts found started l)
      (hturns : l.Turns started.now t data broken out t')
      (hread : kind ≠ .typedSuperset →
        (l.run started.now data broken t).unread ≤ Pipeline.pipeCapacity) :
      Optimized c kind found started t data broken out t'

/-- What a source compiles to before its directives, and the files after that. The output of its
    front end is what that writes or, for a typed superset, the artifact that it leaves in a scratch
    directory; what it prints then is no part of it. -/
inductive Renders (c : Compiler) (kind : Kind) (source : Path) (h : Host) :
    Bytes → Tree → Prop where
  | streamed {command : Command} {l : Launch} {data out : Bytes} {t t' : Tree}
      (hfront : c.front? h kind source = some command) (hstarts : command.Starts h h l)
      (hturns : l.Turns h.now h.tree [] false data t)
      (hopt : c.Optimized kind h h t data false out t') : Renders c kind source h out t'
  | drafted {scratch : Path} {h₁ : Host} {l : Launch} {printed data out : Bytes} {broken : Bool}
      {t t' : Tree} (hkind : kind = .typedSuperset)
      (hmake : runFrom makeScratch h = (.ok scratch, h₁))
      (hstarts : (c.typescript source (scratch.join "out.js")).Starts h₁ h₁ l)
      (hturns : l.Turns h₁.now h₁.tree [] false printed t)
      (hdraft : Drafted t h₁.directory (scratch.join "out.js") data broken)
      (hopt : c.Optimized kind h₁ { h₁ with tree := t } t data broken out t') :
      Renders c kind source h out (removeScratch scratch { h₁ with tree := t' }).tree

variable {c : Compiler} {kind : Kind} {source : Path} {h k : Host} {s s' : Sink} {n : Nat}
  {t : Tree}

theorem optimizerStage?_of (hopt : c.Optimizing kind) :
    c.optimizerStage? kind = some c.optimizer := by
  unfold optimizerStage? Level.optimizes
  simp [hopt.1, hopt.2]

theorem optimizerStage?_of_not (hnot : ¬ c.Optimizing kind) : c.optimizerStage? kind = none := by
  unfold Optimizing at hnot
  unfold optimizerStage? Level.optimizes
  simpa using hnot

/-- The plan of a source that is streamed. -/
theorem plan_front {command : Command} (hfront : c.front? h kind source = some command) :
    runFrom (c.plan kind source) h =
      (streamPlan h command (c.optimizerStage? kind), h) := by
  cases kind <;> cases hfront <;> rfl

/-- A stream succeeds exactly with what the front end and then the optimizer make. -/
theorem stream_iff {command : Command} (hfront : c.front? h kind source = some command)
    (hroom : s.room = none) :
    (∃ p k, located h ⟨command :: (c.optimizerStage? kind).toList⟩ = .ok p ∧
        runFrom (p.runInto .null) ⟨h, s⟩ = (.ok n, ⟨k, s'⟩) ∧ k.tree = t) ↔
      ∃ out, c.Renders kind source h out t ∧ n = out.length ∧ s' = s.accept out := by
  have hkind : kind ≠ .typedSuperset := by
    rintro rfl
    cases hfront
  rw [Pipeline.located_succeeds_iff (by simp) (rfl : Pipeline.inputData h .null = .ok ([], false))
    rfl hroom]
  constructor
  · rintro ⟨ls, out, hstarts, hflows, rfl, rfl⟩
    refine ⟨out, ?_, rfl, rfl⟩
    -- with an optimizer there are two processes, and the first is read by the second; else one
    by_cases hopt : c.Optimizing kind
    · rw [optimizerStage?_of hopt] at hstarts
      rcases hstarts with _ | ⟨hfirst, _ | ⟨hsecond, _ | _⟩⟩
      rcases hflows with _ | ⟨hturns, hread, hlast | _⟩
      exact .streamed hfront hfirst hturns (.passed hopt hsecond hlast fun _ => hread)
    · rw [optimizerStage?_of_not hopt] at hstarts
      rcases hstarts with _ | ⟨hfirst, _ | _⟩
      rcases hflows with hturns | _
      exact .streamed hfront hfirst hturns (.plain hopt)
  · rintro ⟨out, hrenders, rfl, rfl⟩
    cases hrenders with
    | drafted hdrafted => exact absurd hdrafted hkind
    | streamed hfront' hfirst hturns hopt =>
      rw [hfront, Option.some.injEq] at hfront'
      subst hfront'
      cases hopt with
      | plain hnot =>
        rw [optimizerStage?_of_not hnot]
        exact ⟨_, out, .cons hfirst .nil, .last hturns, rfl, rfl⟩
      | passed hopt hsecond hlast hread =>
        rw [optimizerStage?_of hopt]
        exact ⟨_, out, .cons hfirst (.cons hsecond .nil),
          .cons hturns (hread hkind) (.last hlast), rfl, rfl⟩

/-- An artifact is passed on exactly with what the optimizer makes of it, or as it is. -/
theorem pass_iff {found m : Host} {artifact : Path} (hm : found.Runs m) (hroom : s.room = none)
    (hkind : kind = .typedSuperset) :
    (∃ (optimize : Option Pipeline) (k : Host), Optimizes found (c.optimizerStage? kind) optimize ∧
        runFrom (match optimize with
          | some p => p.runInto (.file artifact)
          | none => copyFile artifact) ⟨m, s⟩ = (.ok n, ⟨k, s'⟩) ∧ k.tree = t) ↔
      ∃ data broken out, Drafted m.tree m.directory artifact data broken ∧
        c.Optimized kind found { found with tree := m.tree } m.tree data broken out t ∧
        n = out.length ∧ s' = s.accept out := by
  have hnow : ({ found with tree := m.tree } : Host).now = m.now := by
    obtain ⟨tree, journal, rfl⟩ := hm
    rfl
  by_cases hopt : c.Optimizing kind
  · -- the optimizer is a pipeline of its own, which reads the artifact
    rw [optimizerStage?_of hopt]
    constructor
    · rintro ⟨optimize, k, ⟨p, hp, rfl⟩, hrun, rfl⟩
      obtain ⟨data, broken, -, hdata, -⟩ := Pipeline.runInto_ok_iff.mp ⟨k, hrun, rfl⟩
      obtain ⟨ls, out, hstarts, hflows, rfl, rfl⟩ :=
        (Pipeline.located_succeeds_iff (by simp) hdata rfl hroom).mp ⟨p, k, hp, hrun, rfl⟩
      rcases hstarts with _ | ⟨hfirst, _ | _⟩
      rcases hflows with hturns | _
      rw [← hnow] at hturns
      exact ⟨data, broken, out, inputData_file_iff.mp hdata,
        .passed hopt (hm.starts.mp hfirst) hturns fun hne => absurd hkind hne, rfl, rfl⟩
    · rintro ⟨data, broken, out, hdraft, hoptimized, rfl, rfl⟩
      cases hoptimized with
      | plain hnot => exact absurd hopt hnot
      | passed _ hstarts hturns _ =>
        rw [hnow] at hturns
        obtain ⟨p, k, hp, hrun, htree⟩ := (Pipeline.located_succeeds_iff (s := s) (by simp)
          (inputData_file_iff.mpr hdraft) rfl hroom).mpr
            ⟨_, out, .cons (hm.starts.mpr hstarts) .nil, .last hturns, rfl, rfl⟩
        exact ⟨some p, k, ⟨p, hp, rfl⟩, hrun, htree⟩
  · -- the artifact is copied
    rw [optimizerStage?_of_not hopt]
    constructor
    · rintro ⟨optimize, k, rfl, hrun, rfl⟩
      obtain ⟨data, hdata, rfl, heq⟩ := (copyFile_unlimited_iff hroom).mp hrun
      cases heq
      exact ⟨data, false, data, bytesAt_iff_drafted.mp hdata, .plain hopt, rfl, rfl⟩
    · rintro ⟨data, broken, out, hdraft, hoptimized, rfl, rfl⟩
      cases hoptimized with
      | passed hopt' => exact absurd hopt' hopt
      | plain =>
        exact ⟨none, m, rfl, (copyFile_unlimited_iff hroom).mpr
          ⟨_, bytesAt_iff_drafted.mpr hdraft, rfl, rfl⟩, rfl⟩

/-- Making an artifact and passing it on. -/
theorem draft_pass_iff {found : Host} {artifact : Path} (hroom : s.room = none)
    (hkind : kind = .typedSuperset) :
    (∃ compile optimize m, located found ⟨[c.typescript source artifact]⟩ = .ok compile ∧
        Optimizes found (c.optimizerStage? kind) optimize ∧
        runFrom (passArtifact compile artifact optimize) ⟨found, s⟩ = (.ok n, ⟨m, s'⟩) ∧
        m.tree = t) ↔
      ∃ l printed data broken out t₁, (c.typescript source artifact).Starts found found l ∧
        l.Turns found.now found.tree [] false printed t₁ ∧
        Drafted t₁ found.directory artifact data broken ∧
        c.Optimized kind found { found with tree := t₁ } t₁ data broken out t ∧
        n = out.length ∧ s' = s.accept out := by
  have hfront : ∀ {p : Pipeline} {m : Host}, runFrom (runAside p) found = (.ok (), m) →
      found.Runs m := by
    intro p m hmade
    have hruns := runAside_runs p found
    rwa [hmade] at hruns
  constructor
  · rintro ⟨compile, optimize, k, hlocated, hoptimize, hrun, rfl⟩
    obtain ⟨path, hpath, rfl⟩ := located_single_iff.mp hlocated
    obtain ⟨m, hmade, hpass⟩ := passArtifact_ok_iff.mp hrun
    have hruns := hfront hmade
    -- the front end leaves the artifact, and what it prints is dropped
    obtain ⟨l, hlaunch, hsuccess, htree⟩ := Pipeline.runAside_single_iff.mp ⟨m, hmade, rfl⟩
    obtain ⟨data, broken, out, hdraft, hopt, hn, hs⟩ :=
      (pass_iff hruns hroom hkind).mp ⟨optimize, k, hoptimize, hpass, rfl⟩
    rw [hruns.directory] at hdraft
    exact ⟨l, _, data, broken, out, m.tree, ⟨path, hpath, hlaunch⟩, ⟨hsuccess, rfl, htree.symm⟩,
      hdraft, hopt, hn, hs⟩
  · rintro ⟨l, printed, data, broken, out, t₁, ⟨path, hpath, hlaunch⟩, hturns, hdraft, hopt, hn, hs⟩
    obtain ⟨m, hmade, rfl⟩ :=
      Pipeline.runAside_single_iff.mpr ⟨l, hlaunch, hturns.success, hturns.tree.symm⟩
    have hruns := hfront hmade
    rw [← hruns.directory] at hdraft
    obtain ⟨optimize, k, hoptimize, hpass, rfl⟩ :=
      (pass_iff (s := s) hruns hroom hkind).mpr ⟨data, broken, out, hdraft, hopt, hn, hs⟩
    exact ⟨_, optimize, k, located_single_iff.mpr ⟨path, hpath, rfl⟩, hoptimize,
      passArtifact_ok_iff.mpr ⟨m, hmade, hpass⟩, rfl⟩

/-! ## §6 Whole sources -/

/-- The working directory stays where it is. -/
def SameDirectory (h k : Host) : Prop :=
  k.directory = h.directory

theorem sameDirectory_refl (h : Host) : SameDirectory h h :=
  rfl

theorem sameDirectory_trans (h k l : Host) (hk : SameDirectory h k) (hl : SameDirectory k l) :
    SameDirectory h l :=
  Eq.trans hl hk

theorem removeScratch_sameDirectory (scratch : Path) (k : Host) :
    SameDirectory k (removeScratch scratch k) := by
  unfold removeScratch SameDirectory
  split
  · rfl
  · rfl

theorem makeScratch_sameDirectory : Moves SameDirectory makeScratch := by
  intro h
  unfold makeScratch
  rw [runFrom_ofPair]
  dsimp only
  split
  · rfl
  · rfl

/-- What is left after a scratch directory is removed depends on the files, not on the journal. -/
theorem removeScratch_tree {found m : Host} (hm : found.Runs m) (scratch : Path) :
    (removeScratch scratch m).tree =
      (removeScratch scratch { found with tree := m.tree }).tree := by
  obtain ⟨tree, journal, rfl⟩ := hm
  unfold removeScratch
  simp only
  split
  · rfl
  · rfl

theorem passArtifact_runs (compile : Pipeline) (artifact : Path) (optimize : Option Pipeline) :
    MovesHost Host.Runs (passArtifact compile artifact optimize) := by
  refine .bind Host.Runs.trans (.ofAct (runAside_runs compile)) fun _ => ?_
  cases optimize with
  | some p => exact p.runInto_runs (.file artifact)
  | none => exact copyFile_moves Host.Runs.refl Host.Runs.trans artifact

theorem sameDirectory_steps : StepRelation SameDirectory :=
  ⟨sameDirectory_refl, sameDirectory_trans, makeScratch_sameDirectory, removeScratch_sameDirectory,
    fun p input o => (p.runInto_runs input o).directory⟩

theorem runPlan_sameDirectory (plan : Plan) : MovesHost SameDirectory (runPlan plan) := by
  cases plan with
  | passthrough path => exact copyFile_moves sameDirectory_refl sameDirectory_trans path
  | bundle path => exact .pure sameDirectory_refl 0
  | stream p => exact sameDirectory_steps.runInto p .null
  | intermediate compile artifact optimize scratch =>
    exact sameDirectory_steps.withScratch
      (sameDirectory_steps.passArtifact compile artifact optimize) scratch

theorem runPlan_intermediate {compile : Pipeline} {artifact scratch : Path}
    {optimize : Option Pipeline} {o : Outlet} {result : Except Failure Nat} {m : Host} {sink : Sink}
    (hpass : runFrom (passArtifact compile artifact optimize) o = (result, ⟨m, sink⟩)) :
    runFrom (runPlan (.intermediate compile artifact optimize scratch)) o =
      (result, ⟨removeScratch scratch m, sink⟩) := by
  show runFrom (withScratch scratch (passArtifact compile artifact optimize)) o = _
  rw [runFrom_withScratch, hpass]

/-- The plan for a typed superset succeeds exactly with what is made of its artifact. -/
theorem typed_iff (hroom : s.room = none) :
    (∃ plan h₁ k, runFrom (c.plan .typedSuperset source) h = (.ok plan, h₁) ∧
        runFrom (runPlan plan) ⟨h₁, s⟩ = (.ok n, ⟨k, s'⟩) ∧ k.tree = t) ↔
      ∃ out, c.Renders .typedSuperset source h out t ∧ n = out.length ∧ s' = s.accept out := by
  constructor
  · rintro ⟨plan, h₁, k, hplan, hrun, rfl⟩
    obtain ⟨scratch, compile, optimize, hmake, hcompile, hoptimize, rfl⟩ :=
      plan_typedSuperset_ok_iff.mp hplan
    -- the scratch directory is removed from what passing the artifact on leaves
    rcases hpass : runFrom (passArtifact compile (scratch.join "out.js") optimize) ⟨h₁, s⟩ with
      ⟨result, m, sink⟩
    rw [runPlan_intermediate hpass, Prod.mk.injEq, Outlet.mk.injEq] at hrun
    obtain ⟨rfl, rfl, rfl⟩ := hrun
    have hruns := passArtifact_runs compile (scratch.join "out.js") optimize ⟨h₁, s⟩
    rw [hpass] at hruns
    obtain ⟨l, printed, data, broken, out, t₁, hstarts, hturns, hdraft, hopt, hn, hs⟩ :=
      (draft_pass_iff hroom rfl).mp ⟨compile, optimize, m, hcompile, hoptimize, hpass, rfl⟩
    rw [removeScratch_tree hruns]
    exact ⟨out, .drafted rfl hmake hstarts hturns hdraft hopt, hn, hs⟩
  · rintro ⟨out, hrenders, hn, hs⟩
    cases hrenders with
    | streamed hfront => cases hfront
    | @drafted scratch h₁ l printed data out broken t₁ t' _ hmake hstarts hturns hdraft hopt =>
      obtain ⟨compile, optimize, m, hcompile, hoptimize, hpass, rfl⟩ :=
        (draft_pass_iff (c := c) (s := s) hroom rfl).mpr
          ⟨l, printed, data, broken, out, t₁, hstarts, hturns, hdraft, hopt, hn, hs⟩
      have hruns := passArtifact_runs compile (scratch.join "out.js") optimize ⟨h₁, s⟩
      rw [hpass] at hruns
      exact ⟨.intermediate compile (scratch.join "out.js") optimize scratch, h₁,
        removeScratch scratch m, plan_typedSuperset_ok_iff.mpr
          ⟨scratch, compile, optimize, hmake, hcompile, hoptimize, rfl⟩,
        runPlan_intermediate hpass, removeScratch_tree hruns scratch⟩

/-- Planning and running the plan succeeds exactly with what front end and optimizer make. -/
theorem runPlan_renders_iff (hkind : kind ∈ unitKinds) (hroom : s.room = none) :
    (∃ plan h₁ k, runFrom (c.plan kind source) h = (.ok plan, h₁) ∧
        runFrom (runPlan plan) ⟨h₁, s⟩ = (.ok n, ⟨k, s'⟩) ∧ k.tree = t) ↔
      ∃ out, c.Renders kind source h out t ∧ n = out.length ∧ s' = s.accept out := by
  by_cases htyped : kind = .typedSuperset
  · subst htyped
    exact typed_iff hroom
  · obtain ⟨command, hfront⟩ : ∃ command, c.front? h kind source = some command := by
      cases kind with
      | component | stylesheet | preprocessedScript => exact ⟨_, rfl⟩
      | typedSuperset => exact absurd rfl htyped
      | bundle | passthrough | unknown => simp [unitKinds] at hkind
    rw [← stream_iff hfront hroom, plan_front hfront]
    unfold streamPlan
    constructor
    · rintro ⟨plan, h₁, k, hplan, hrun, htree⟩
      cases hlocated : located h ⟨command :: (c.optimizerStage? kind).toList⟩ with
      | error e =>
        rw [hlocated] at hplan
        cases hplan
      | ok p =>
        rw [hlocated] at hplan
        cases hplan
        exact ⟨p, k, rfl, hrun, htree⟩
    · rintro ⟨p, k, hlocated, hrun, htree⟩
      rw [hlocated]
      exact ⟨.stream p, h, k, rfl, hrun, htree⟩

/-- Compiling succeeds exactly with what front end and optimizer make and then the files that the
    directives name. -/
theorem compile_ok_iff (hkind : kind ∈ unitKinds) (hroom : s.room = none) :
    (∃ k, runFrom (c.compile kind source) ⟨h, s⟩ = (.ok n, ⟨k, s'⟩) ∧ k.tree = t) ↔
      ∃ out extra, c.Renders kind source h out t ∧ Includes t h.directory source extra ∧
        n = (out ++ extra).length ∧ s' = s.accept (out ++ extra) := by
  have hdirectory : ∀ {plan h₁ k m s₁}, runFrom (c.plan kind source) h = (.ok plan, h₁) →
      runFrom (runPlan plan) ⟨h₁, s⟩ = (.ok m, ⟨k, s₁⟩) → k.directory = h.directory := by
    intro plan h₁ k m s₁ hplan hout
    have hfirst := sameDirectory_steps.plan c kind source h
    have hsecond := runPlan_sameDirectory plan ⟨h₁, s⟩
    rw [hplan] at hfirst
    rw [hout] at hsecond
    exact sameDirectory_trans h h₁ k hfirst hsecond
  rw [compile_of_mem hkind, compileSource_eq]
  constructor
  · rintro ⟨k, hrun, rfl⟩
    -- planning, running the plan and following the directives have all succeeded
    obtain ⟨plan, o, hplanned, hfinish⟩ := runFrom_bind_ok.mp hrun
    obtain ⟨h₁, hplan, rfl⟩ := runFrom_ofAct_ok.mp hplanned
    rw [finishPlan_of_runs (plan_runs hkind hplan)] at hfinish
    obtain ⟨m, ⟨k₁, s₁⟩, hout, hrest⟩ := runFrom_bind_ok.mp hfinish
    obtain ⟨more, o₂, hexpand, hsum⟩ := runFrom_bind_ok.mp hrest
    rw [runFrom_pure, Prod.mk.injEq, Except.ok.injEq] at hsum
    obtain ⟨rfl, rfl⟩ := hsum
    obtain ⟨out, hrenders, rfl, rfl⟩ :=
      (runPlan_renders_iff hkind hroom).mp ⟨plan, h₁, k₁, hplan, hout, rfl⟩
    obtain ⟨extra, hincludes, rfl, heq⟩ := (expand_ok_iff (s := s.accept out) hroom).mp hexpand
    cases heq
    rw [hdirectory hplan hout] at hincludes
    exact ⟨out, extra, hrenders, hincludes, List.length_append.symm, Sink.accept_accept _ _⟩
  · rintro ⟨out, extra, hrenders, hincludes, rfl, rfl⟩
    obtain ⟨plan, h₁, k, hplan, hout, rfl⟩ :=
      (runPlan_renders_iff (s := s) hkind hroom).mpr ⟨out, hrenders, rfl, rfl⟩
    rw [← hdirectory hplan hout] at hincludes
    have hexpand := (expand_ok_iff (s := s.accept out) (k := k) hroom).mpr
      ⟨extra, hincludes, rfl, rfl⟩
    refine ⟨k, runFrom_bind_ok.mpr ⟨plan, ⟨h₁, s⟩, by rw [runFrom_ofAct, hplan], ?_⟩, rfl⟩
    rw [finishPlan_of_runs (plan_runs hkind hplan)]
    refine runFrom_bind_ok.mpr ⟨_, _, hout, runFrom_bind_ok.mpr ⟨_, _, hexpand, ?_⟩⟩
    rw [runFrom_pure, List.length_append, Sink.accept_accept]

end Compiler

end AssetServer
