import AssetServer.Proofs.Mirror
import AssetServer.Proofs.Reaping

/-!
# What a pipeline passes on

The stages of a pipeline are functions, each of all that the one before it writes. What the last one
writes goes to the sink, whether stages fail or not, and one failure is reported: that of the sink,
else that of the first stage that fails, else that of passing on the input.

- `Sink.Accepts`, `Sink.Refuses`: whether a sink takes some data piece by piece, or which piece it
  refuses first; `Sink.copy_accepts` and `Sink.copy_refuses` say what a copy comes to.
- `Pipeline.through`, `Pipeline.endings`: the output and the statuses of a chain of functions;
  `Pipeline.executions_filters` is the induction along the chain.
- `Pipeline.runInto_flows`: all of this for a run.
-/

namespace AssetServer

/-! ## §1 Copies -/

namespace Sink

variable {s : Sink} {data : Bytes} {e : OsError}

/-- The piece of some data that a copy passes on with its write number `i`. -/
def piece (data : Bytes) (i : Nat) : Bytes :=
  (data.drop (i * pieceBytes)).take pieceBytes

/-- Why a sink refuses a piece of some data, all pieces before it having been accepted. -/
def pieceRefusal? (s : Sink) (data : Bytes) (i : Nat) : Option (OsError × Nat) :=
  (s.accept (data.take (i * pieceBytes))).refusal? (piece data i)

/-- The sink refuses no piece of the data. -/
def Accepts (s : Sink) (data : Bytes) : Prop :=
  ∀ i, i * pieceBytes < data.length → s.pieceRefusal? data i = none

/-- The sink refuses a piece of the data, the first of those that it does not accept. -/
def Refuses (s : Sink) (data : Bytes) (e : OsError) : Prop :=
  ∃ i taken, i * pieceBytes < data.length ∧ s.pieceRefusal? data i = some (e, taken) ∧
    ∀ j < i, s.pieceRefusal? data j = none

theorem accept_accept (a b : Bytes) : (s.accept a).accept b = s.accept (a ++ b) := by
  simp [accept]

/-- Data is accepted, or some piece of it is the first to be refused. -/
theorem accepts_or_refuses (s : Sink) (data : Bytes) :
    s.Accepts data ∨ ∃ e, s.Refuses data e := by
  by_cases hall : s.Accepts data
  · exact .inl hall
  · right
    unfold Accepts at hall
    push Not at hall
    -- the least number of a piece that is not accepted
    obtain ⟨⟨hi, hrefused⟩, hleast⟩ := And.intro (Nat.find_spec hall) fun j => Nat.find_min (m := j) hall
    obtain ⟨⟨e, taken⟩, hsome⟩ := Option.ne_none_iff_exists'.mp hrefused
    refine ⟨e, _, taken, hi, hsome, fun j hj => ?_⟩
    by_contra hnone
    refine hleast j hj ⟨Nat.lt_of_le_of_lt (Nat.mul_le_mul_right _ (Nat.le_of_lt hj)) hi, hnone⟩

theorem Accepts.not_refuses (hs : s.Accepts data) : ¬ s.Refuses data e := by
  rintro ⟨i, taken, hi, hrefused, -⟩
  rw [hs i hi] at hrefused
  cases hrefused

theorem unlimited_accepts (h : s.room = none) (data : Bytes) : s.Accepts data := by
  intro i _
  unfold pieceRefusal? refusal? accept
  simp [h]

/-- The pieces after the first are those of the rest of the data. -/
theorem pieceRefusal?_drop (s : Sink) (data : Bytes) (i : Nat) :
    (s.accept (data.take pieceBytes)).pieceRefusal? (data.drop pieceBytes) i =
      s.pieceRefusal? data (i + 1) := by
  have hnext : pieceBytes + i * pieceBytes = (i + 1) * pieceBytes := by
    rw [Nat.add_mul, Nat.one_mul, Nat.add_comm]
  unfold pieceRefusal? piece
  rw [accept_accept, ← List.take_add, List.drop_drop, hnext]

/-- The first piece goes to the sink as it is. -/
theorem pieceRefusal?_zero (s : Sink) (data : Bytes) :
    s.pieceRefusal? data 0 = s.refusal? (data.take pieceBytes) := by
  simp [pieceRefusal?, piece, accept]

theorem copyWithin_accepts {fuel : Nat} (hfuel : data.length ≤ fuel * pieceBytes)
    (hs : s.Accepts data) : copyWithin fuel s data = (.ok (), s.accept data) := by
  induction fuel generalizing s data with
  | zero =>
    obtain rfl : data = [] := List.length_eq_zero_iff.mp (by omega)
    simp [copyWithin, accept]
  | succ fuel ih =>
    cases data with
    | nil => simp [copyWithin, accept]
    | cons b data =>
      -- the first piece is taken, and the copy goes on with the rest and a sink that holds more
      have hfirst := hs 0 (by simp)
      rw [pieceRefusal?_zero] at hfirst
      have hrest : (s.accept ((b :: data).take pieceBytes)).Accepts ((b :: data).drop pieceBytes) := by
        intro i hi
        rw [pieceRefusal?_drop]
        refine hs (i + 1) ?_
        rw [List.length_drop] at hi
        rw [Nat.add_mul, Nat.one_mul]
        omega
      have hlength : ((b :: data).drop pieceBytes).length ≤ fuel * pieceBytes := by
        rw [List.length_drop]
        rw [Nat.add_mul, Nat.one_mul] at hfuel
        omega
      unfold copyWithin write
      simp only [hfirst]
      rw [ih hlength hrest, accept_accept, List.take_append_drop]

theorem copyWithin_refuses {fuel : Nat} (hfuel : data.length ≤ fuel * pieceBytes)
    (hs : s.Refuses data e) :
    ∃ n, copyWithin fuel s data = (.error e, s.accept (data.take n)) := by
  induction fuel generalizing s data with
  | zero =>
    obtain ⟨i, -, hi, -⟩ := hs
    omega
  | succ fuel ih =>
    obtain ⟨i, taken, hi, hrefused, hbefore⟩ := hs
    cases data with
    | nil => simp at hi
    | cons b data =>
      unfold copyWithin write
      cases i with
      | zero =>
        rw [pieceRefusal?_zero] at hrefused
        simp only [hrefused]
        exact ⟨min taken pieceBytes, by rw [List.take_take]⟩
      | succ i =>
        -- the first piece is accepted, and one of the others is refused
        have hfirst := hbefore 0 (Nat.succ_pos i)
        rw [pieceRefusal?_zero] at hfirst
        have hrest : (s.accept ((b :: data).take pieceBytes)).Refuses
            ((b :: data).drop pieceBytes) e := by
          refine ⟨i, taken, ?_, by rw [pieceRefusal?_drop]; exact hrefused, fun j hj => ?_⟩
          · rw [List.length_drop]
            rw [Nat.add_mul, Nat.one_mul] at hi
            omega
          · rw [pieceRefusal?_drop]
            exact hbefore (j + 1) (Nat.succ_lt_succ hj)
        have hlength : ((b :: data).drop pieceBytes).length ≤ fuel * pieceBytes := by
          rw [List.length_drop]
          rw [Nat.add_mul, Nat.one_mul] at hfuel
          omega
        obtain ⟨n, hcopy⟩ := ih hlength hrest
        simp only [hfirst]
        rw [hcopy, accept_accept, ← List.take_add]
        exact ⟨pieceBytes + n, rfl⟩

theorem length_le_pieces (data : Bytes) :
    data.length ≤ (data.length / pieceBytes + 1) * pieceBytes := by
  have hpos : 0 < pieceBytes := by decide
  exact Nat.le_of_lt (Nat.lt_div_mul_add hpos |>.trans_le (by rw [Nat.add_mul, Nat.one_mul]))

/-- Data that is accepted is held afterwards as a whole. -/
theorem copy_accepts (hs : s.Accepts data) : s.copy data = (.ok (), s.accept data) := by
  unfold copy
  split
  · rfl
  · exact copyWithin_accepts (length_le_pieces data) hs

/-- Of data that is refused a part from its front is held afterwards. -/
theorem copy_refuses (hs : s.Refuses data e) :
    ∃ n, s.copy data = (.error e, s.accept (data.take n)) := by
  unfold copy
  split
  · rename_i hroom
    exact absurd hs (unlimited_accepts hroom data).not_refuses
  · exact copyWithin_refuses (length_le_pieces data) hs

end Sink

/-! ## §2 Chains of functions -/

/-- What a process makes of its whole input: what it writes, and how it ends. -/
abbrev Filter := Bytes → Bytes × ExitStatus

/-- A process that can be started is a function of its input. It reads all of it, but for what stays
    behind in the pipe. -/
structure Launch.Filters (l : Launch) (now : Instant) (f : Filter) : Prop where
  output : ∀ input t, (l.run now input false t).output = (f input).1
  status : ∀ input t, (l.run now input false t).status = (f input).2
  reads : ∀ input t, (l.run now input false t).unread ≤ Pipeline.pipeCapacity

namespace Pipeline

/-- What the last function of a chain makes of an input of the first. -/
def through : List Filter → Bytes → Bytes
  | [], input => input
  | f :: rest, input => through rest (f input).1

/-- The statuses of a chain of functions. -/
def endings : List Filter → Bytes → List ExitStatus
  | [], _ => []
  | f :: rest, input => (f input).2 :: endings rest (f input).1

theorem length_endings (fs : List Filter) (input : Bytes) : (endings fs input).length = fs.length := by
  induction fs generalizing input with
  | nil => rfl
  | cons f rest ih => simp [endings, ih]

theorem lastOutput_cons (input : Bytes) (run : Execution) (runs : List Execution) :
    lastOutput input (run :: runs) = lastOutput run.output runs := by
  cases runs with
  | nil => rfl
  | cons next rest => simp [lastOutput, List.getLast?_cons]

/-- A process is ended by its pipe only if the next one leaves much of it unread. -/
theorem statuses_of_read {runs : List Execution} (h : ∀ run ∈ runs, run.unread ≤ pipeCapacity) :
    statuses runs = runs.map Execution.status := by
  induction runs with
  | nil => rfl
  | cons run rest ih =>
    cases rest with
    | nil => rfl
    | cons next more =>
      have hnext : ¬ pipeCapacity < next.unread := Nat.not_lt.mpr (h next (by simp))
      rw [statuses, if_neg hnext, ih fun r hr => h r (List.mem_cons_of_mem _ hr)]
      rfl

variable {now : Instant} {ls : List Launch} {fs : List Filter}

/-- The runs of a chain of processes are those of the chain of their functions. -/
theorem executions_filters (hfilters : List.Forall₂ (fun l f => Launch.Filters l now f) ls fs)
    (input : Bytes) (t : Tree) :
    lastOutput input (executions now ls input false t).1 = through fs input ∧
      (executions now ls input false t).1.map Execution.status = endings fs input ∧
      ∀ run ∈ (executions now ls input false t).1, run.unread ≤ pipeCapacity := by
  induction hfilters generalizing input t with
  | nil => exact ⟨rfl, rfl, by simp [executions]⟩
  | @cons l f ls fs hfirst _ ih =>
    have houtput := hfirst.output input t
    -- the output of the first is the input of the rest
    have hrest := ih (f input).1 (l.run now input false t).tree
    rw [← houtput] at hrest
    obtain ⟨hlast, hstatuses, hread⟩ := hrest
    have hruns : (executions now (l :: ls) input false t).1 = l.run now input false t ::
        (executions now ls (l.run now input false t).output false
          (l.run now input false t).tree).1 := rfl
    rw [hruns]
    refine ⟨?_, ?_, fun run hrun => ?_⟩
    · rw [lastOutput_cons, hlast, through, houtput]
    · rw [List.map_cons, hstatuses, hfirst.status, endings, houtput]
    · rcases List.mem_cons.mp hrun with rfl | hrun
      · exact hfirst.reads input t
      · exact hread run hrun

/-! ## §3 Starting -/

variable {h : Host} {p : Pipeline} {input : PipelineInput} {data : Bytes}

/-- All stages of a pipeline can be started, and are functions of their inputs. -/
def Computes (p : Pipeline) (h : Host) (fs : List Filter) : Prop :=
  List.Forall₂ (fun c f => ∃ l, h.launch c = .ok l ∧ l.Filters h.now f) p.stages fs

theorem Computes.launches (hp : p.Computes h fs) : ∃ ls : List Launch,
    p.stages.map h.launch = ls.map .ok ∧ List.Forall₂ (fun l f => Launch.Filters l h.now f) ls fs := by
  unfold Computes at hp
  generalize p.stages = cs at hp
  induction hp with
  | nil => exact ⟨[], rfl, .nil⟩
  | cons hfirst _ ih =>
    obtain ⟨l, hl, hfilters⟩ := hfirst
    obtain ⟨ls, hls, hrest⟩ := ih
    exact ⟨l :: ls, by rw [List.map_cons, hl, hls]; rfl, .cons hfilters hrest⟩

/-- Such a pipeline starts. What is left to pass on is the output of the chain, and its stages end
    with the statuses of the chain. -/
theorem Computes.spawn (hp : p.Computes h fs) (hinput : inputData h input = .ok (data, false)) :
    ∃ stages k, runFrom (p.spawn input) h = (.ok ⟨stages, some (through fs data)⟩, k) ∧
      stages.map RunningStage.status = endings fs data ∧
      stages.map (fun s => (s.name, s.index)) = (p.stages.map Command.name).zipIdx ∧
      Running.feedFailure? stages =
        if p.stages = [] then none else (feedFault? h input).map .pipe := by
  obtain ⟨ls, hls, hfilters⟩ := hp.launches
  obtain ⟨started, k, hstart, hlaunches, hnames, htree, hnow⟩ := start_launches hls 0 []
  obtain ⟨hlast, hstatuses, hread⟩ := executions_filters hfilters data h.tree
  rw [List.reverse_nil, List.nil_append] at hstart
  have hlength : (endings fs data).length = started.length := by
    rw [length_endings, ← hfilters.length_eq, ← hlaunches, List.length_map]
  have hempty : p.stages = [] ↔ started = [] := by
    rw [← List.length_eq_zero_iff, ← List.length_eq_zero_iff, ← hlength, length_endings]
    exact (List.Forall₂.length_eq hp) ▸ Iff.rfl
  refine ⟨runningStages (feedFault? h input) started (endings fs data), _,
    spawn_ok_iff.mpr ⟨data, false, started, k, hinput, hstart, ?_, rfl⟩, ?_, ?_, ?_⟩
  · rw [hlaunches, hnow, htree, hlast, statuses_of_read hread, hstatuses]
  · exact map_runningStages_status _ hlength
  · rw [map_runningStages_started (g := fun s => (s.name, s.index)) (fun _ _ => rfl)
      (fun _ _ => rfl) _ hlength, hnames]
  · rw [feedFailure?_runningStages _ hlength]
    simp only [hempty]

end Pipeline

/-! ## §4 Ending -/

namespace Running

variable {stages : List RunningStage} {out : Bytes} {s : Sink} {e : OsError}

/-- The stage that is reported is the first one that fails, by its place in the pipeline. -/
theorem firstFailure?_eq_some {i index : Nat} {name : String} {status : ExitStatus}
    (hstatus : (stages.map RunningStage.status)[i]? = some status) (hfails : status.success = false)
    (hfirst : ∀ j < i, ∀ t, (stages.map RunningStage.status)[j]? = some t → t.success = true)
    (hname : (stages.map fun s => (s.name, s.index))[i]? = some (name, index)) :
    firstFailure? stages = some (.stageFailed index name status) := by
  rw [List.getElem?_map, Option.map_eq_some_iff] at hstatus hname
  obtain ⟨stage, hstage, rfl⟩ := hstatus
  obtain ⟨stage', hstage', hname⟩ := hname
  obtain rfl : stage = stage' := Option.some.inj (hstage.symm.trans hstage')
  rw [Prod.mk.injEq] at hname
  obtain ⟨rfl, rfl⟩ := hname
  obtain ⟨hi, hget⟩ := List.getElem?_eq_some_iff.mp hstage
  have hfind : stages.find? (fun s => !s.status.success) = some stage := by
    refine List.find?_eq_some_iff_getElem.mpr ⟨by simp [hfails], i, hi, hget, fun j hj => ?_⟩
    have hsuccess := hfirst j hj stages[j].status (by
      rw [List.getElem?_map, List.getElem?_eq_getElem (Nat.lt_trans hj hi)]
      rfl)
    simp [hsuccess]
  unfold firstFailure?
  rw [hfind]
  rfl

/-- With the output passed on as a whole, a failure of a stage is reported, else one of passing on
    the input, else how much there was. -/
theorem finish_accepts (stages : List RunningStage) (hs : s.Accepts out) (h : Host) :
    ∃ k, runFrom (finish ⟨stages, some out⟩) ⟨h, s⟩ =
      (match (firstFailure? stages).or (feedFailure? stages) with
        | some failure => .error failure
        | none => .ok out.length, ⟨k, s.accept out⟩) := by
  unfold finish
  rw [runFrom_emit]
  simp only [drain, Sink.copy_accepts hs, wait, failure?, closed]
  cases (firstFailure? stages).or (feedFailure? stages) with
  | none => exact ⟨_, rfl⟩
  | some failure => exact ⟨_, rfl⟩

/-- If the output is refused, that is reported, whatever becomes of the stages. -/
theorem finish_refuses (stages : List RunningStage) (hs : s.Refuses out e) (h : Host) :
    ∃ k n, runFrom (finish ⟨stages, some out⟩) ⟨h, s⟩ =
      (.error (.pipe e), ⟨k, s.accept (out.take n)⟩) := by
  obtain ⟨n, hcopy⟩ := Sink.copy_refuses hs
  unfold finish
  rw [runFrom_emit]
  simp only [drain, hcopy]
  exact ⟨_, n, rfl⟩

end Running

/-! ## §5 Runs -/

namespace Pipeline

/-- What a run of a pipeline comes to whose stages are functions, and what the sink holds then: by
    what the sink makes of the output, how the stages end and what goes wrong with the input. -/
inductive Outcome (p : Pipeline) (fs : List Filter) (data : Bytes) (fault : Option OsError)
    (s : Sink) : Except Failure Nat → Sink → Prop where
  /-- The sink refuses a part of the output. -/
  | refused {e : OsError} {n : Nat} (hrefuses : s.Refuses (through fs data) e) :
      Outcome p fs data fault s (.error (.pipe e)) (s.accept ((through fs data).take n))
  /-- A stage fails, and none before it does. -/
  | failed {i : Nat} {c : Command} {status : ExitStatus} (haccepts : s.Accepts (through fs data))
      (hstage : p.stages[i]? = some c) (hstatus : (endings fs data)[i]? = some status)
      (hfails : status.success = false)
      (hfirst : ∀ j < i, ∀ t, (endings fs data)[j]? = some t → t.success = true) :
      Outcome p fs data fault s (.error (.stageFailed i c.name status))
        (s.accept (through fs data))
  /-- No stage fails, but something goes wrong with the input. -/
  | unfed {e : OsError} (haccepts : s.Accepts (through fs data))
      (hall : ∀ t ∈ endings fs data, t.success = true) (hfault : fault = some e) :
      Outcome p fs data fault s (.error (.pipe e)) (s.accept (through fs data))
  | done (haccepts : s.Accepts (through fs data))
      (hall : ∀ t ∈ endings fs data, t.success = true) (hfault : fault = none) :
      Outcome p fs data fault s (.ok (through fs data).length) (s.accept (through fs data))

variable {p : Pipeline} {h : Host} {fs : List Filter} {input input' : PipelineInput} {data : Bytes}

/-- Starting a pipeline depends on its input only by what reaches the first stage and what goes wrong
    with that. -/
theorem spawn_congr (hdata : inputData h input = inputData h input')
    (hfault : feedFault? h input = feedFault? h input') :
    runFrom (p.spawn input) h = runFrom (p.spawn input') h := by
  unfold spawn
  rw [runFrom_ofPair, runFrom_ofPair, hdata, hfault]

/-- The sink holds the output as a whole, or a part from its front if it refuses a write. -/
theorem Outcome.held {fault : Option OsError} {s after : Sink} {result : Except Failure Nat}
    (ho : Outcome p fs data fault s result after) :
    (s.Accepts (through fs data) → after.held = s.held ++ through fs data) ∧
      ∃ n, after.held = s.held ++ (through fs data).take n := by
  cases ho with
  | @refused e n hrefuses => exact ⟨fun haccepts => absurd hrefuses haccepts.not_refuses, n, rfl⟩
  | failed | unfed | done =>
    exact ⟨fun _ => rfl, (through fs data).length, by rw [List.take_length]; rfl⟩

/-- Among statuses that are not all of success there is a first that is none. -/
theorem exists_first_failure {l : List ExitStatus} (h : ¬ ∀ t ∈ l, t.success = true) :
    ∃ (i : Nat) (status : ExitStatus), l[i]? = some status ∧ status.success = false ∧
      ∀ j < i, ∀ t : ExitStatus, l[j]? = some t → t.success = true := by
  have hsome : (l.find? fun t => !t.success).isSome := by
    rw [List.find?_isSome]
    push Not at h
    obtain ⟨t, ht, hfails⟩ := h
    exact ⟨t, ht, by simpa using hfails⟩
  obtain ⟨status, hfind⟩ := Option.isSome_iff_exists.mp hsome
  obtain ⟨hfails, i, hi, hget, hbefore⟩ := List.find?_eq_some_iff_getElem.mp hfind
  refine ⟨i, status, List.getElem?_eq_some_iff.mpr ⟨hi, hget⟩, by simpa using hfails,
    fun j hj t ht => ?_⟩
  obtain ⟨hj', rfl⟩ := List.getElem?_eq_some_iff.mp ht
  simpa using hbefore j hj

/-- A run of a pipeline whose stages are functions. -/
theorem Computes.outcome (hp : p.Computes h fs) (hne : p.stages ≠ [])
    (hinput : inputData h input = .ok (data, false)) (s : Sink) :
    ∃ result after, runFrom (p.runInto input) ⟨h, s⟩ = (result, after) ∧
      Outcome p fs data (feedFault? h input) s result after.sink := by
  obtain ⟨stages, k, hspawn, hstatuses, hnames, hfeed⟩ := hp.spawn hinput
  rw [if_neg hne] at hfeed
  rw [runInto_eq, runFrom_bind, runFrom_ofAct, hspawn]
  generalize feedFault? h input = fault at hfeed ⊢
  rcases s.accepts_or_refuses (through fs data) with haccepts | ⟨e, hrefuses⟩
  -- with all output written, how the stages ended decides
  · obtain ⟨l, hfinish⟩ := Running.finish_accepts stages haccepts k
    refine ⟨_, _, hfinish, ?_⟩
    by_cases hall : ∀ t ∈ endings fs data, t.success = true
    · -- the stages end well, so passing on the input decides
      have hnone : Running.firstFailure? stages = none := by
        rw [← hstatuses, List.forall_mem_map] at hall
        exact firstFailure?_eq_none.mpr hall
      rw [hnone, hfeed]
      cases fault with
      | none => exact .done haccepts hall rfl
      | some e => exact .unfed haccepts hall rfl
    · obtain ⟨i, status, hstatus, hfails, hfirst⟩ := exists_first_failure hall
      have hi : i < p.stages.length := by
        rw [List.Forall₂.length_eq hp, ← length_endings fs data]
        exact (List.getElem?_eq_some_iff.mp hstatus).1
      have hname : (stages.map fun s => (s.name, s.index))[i]? = some (p.stages[i].name, i) := by
        rw [hnames]
        simp [hi]
      rw [Running.firstFailure?_eq_some (by rw [hstatuses]; exact hstatus) hfails
        (by rw [hstatuses]; exact hfirst) hname]
      exact .failed haccepts (by simp) hstatus hfails hfirst
  · -- the error of the sink comes first, so neither statuses nor the input matter
    obtain ⟨l, n, hfinish⟩ := Running.finish_refuses stages hrefuses k
    exact ⟨_, _, hfinish, .refused hrefuses⟩

/-- What a run of a pipeline comes to, all of whose stages start and are functions of what they read.

    The sink receives what the last of them makes of the rest, whether stages fail or not, or a part
    from the front of it if it refuses a write. The error of the sink is reported, else the first
    stage that fails, else what goes wrong with the input, else how many bytes were passed on. Bytes
    that get through to the first stage come to the same as a file that holds them. -/
theorem runInto_flows (hp : p.Computes h fs) (hne : p.stages ≠ []) :
    (∀ input data, inputData h input = .ok (data, false) → ∀ s : Sink, ∃ result after,
      runFrom (p.runInto input) ⟨h, s⟩ = (result, after) ∧
      (s.Accepts (through fs data) → after.sink.held = s.held ++ through fs data) ∧
      (∃ n, after.sink.held = s.held ++ (through fs data).take n) ∧
      Outcome p fs data (feedFault? h input) s result after.sink) ∧
    ∀ b path f, h.tree.openFile h.directory path = .ok (.file f) → f.content = b →
      h.feeding b = none → ∀ s : Sink,
      runFrom (p.runInto (.bytes b)) ⟨h, s⟩ = runFrom (p.runInto (.file path)) ⟨h, s⟩ := by
  constructor
  · intro input data hinput s
    obtain ⟨result, after, hrun, houtcome⟩ := hp.outcome hne hinput s
    exact ⟨result, after, hrun, houtcome.held.1, houtcome.held.2, houtcome⟩
  · rintro b path f hopen rfl hfeeding s
    have hspawn : runFrom (p.spawn (.bytes f.content)) h = runFrom (p.spawn (.file path)) h :=
      spawn_congr (by simp [inputData, hfeeding, hopen]) (by simp [feedFault?, hfeeding])
    rw [runInto_eq, runInto_eq, runFrom_bind, runFrom_bind, runFrom_ofAct, runFrom_ofAct, hspawn]

/-- A function that writes all that it reads twice, and fails. -/
def doubling : Filter := fun b => (b ++ b, .exited 3)

/-- The program that is this function. -/
def doublingProgram : Program := fun call t => ⟨(doubling call.input).1, (doubling call.input).2, 0, t⟩

/-- A host that has it installed. -/
def doublingHost : Host :=
  .ofTree ⟨[(["bin"], .directory), (["bin", "tool"], executableFile)]⟩ (installed doublingProgram)

/-- Twice the same program. -/
def doublingPipeline : Pipeline :=
  ⟨[.ofProgram ⟨"/bin/tool"⟩, .ofProgram ⟨"/bin/tool"⟩]⟩

theorem doublingPipeline_computes : doublingPipeline.Computes doublingHost [doubling, doubling] := by
  have hlaunch : (doublingHost.launch (.ofProgram ⟨"/bin/tool"⟩)).toOption.isSome = true := by
    decide +kernel
  obtain ⟨l, hl⟩ : ∃ l, doublingHost.launch (.ofProgram ⟨"/bin/tool"⟩) = .ok l := by
    cases hcases : doublingHost.launch (.ofProgram ⟨"/bin/tool"⟩) with
    | ok l => exact ⟨l, rfl⟩
    | error e =>
      rw [hcases] at hlaunch
      cases hlaunch
  obtain ⟨loc, hloc⟩ := Host.launch_program hl
  have hprogram : l.program = doublingProgram := installed_eq hloc
  have hfilters : l.Filters doublingHost.now doubling := by
    constructor
    · intro input t
      rw [Launch.run, hprogram]
      rfl
    · intro input t
      rw [Launch.run, hprogram]
      rfl
    · intro input t
      rw [Launch.run, hprogram]
      exact Nat.zero_le _
  exact .cons ⟨l, hl, hfilters⟩ (.cons ⟨l, hl, hfilters⟩ .nil)

theorem doubled_flows : ∃ after,
    runFrom (doublingPipeline.runInto (.bytes [7])) ⟨doublingHost, ⟨[1], some (.ofSize 5)⟩⟩ =
      (.error (.stageFailed 0 "tool" (.exited 3)), after) ∧ after.sink.held = [1, 7, 7, 7, 7] := by
  obtain ⟨result, after, hrun, hheld, -, houtcome⟩ :=
    (runInto_flows doublingPipeline_computes (by decide)).1 (.bytes [7]) [7] rfl
      ⟨[1], some (.ofSize 5)⟩
  have haccepts : Sink.Accepts ⟨[1], some (.ofSize 5)⟩ (through [doubling, doubling] [7]) := by
    intro i hi
    obtain rfl : i = 0 := by
      change i * 8192 < 4 at hi
      omega
    decide
  refine ⟨after, hrun.trans (Prod.ext ?_ rfl), hheld haccepts⟩
  generalize after.sink = sink at houtcome
  cases houtcome with
  | refused hrefuses => exact absurd hrefuses haccepts.not_refuses
  | @failed i c status _ hstage hstatus hfails hfirst =>
    cases i with
    | zero =>
      cases hstage
      cases hstatus
      rfl
    | succ i => exact absurd (hfirst 0 (Nat.succ_pos i) _ rfl) (by decide)
  | unfed _ hall => exact absurd (hall _ (List.mem_cons_self)) (by decide)
  | done _ hall => exact absurd (hall _ (List.mem_cons_self)) (by decide)

end Pipeline

end AssetServer
