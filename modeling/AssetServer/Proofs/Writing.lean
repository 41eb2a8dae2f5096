import AssetServer.Proofs.Action

/-!
# Writing to a sink that takes everything

A compilation only ever puts bytes behind those that a sink holds, so on a sink without a limit it
comes to the same whatever is held already. Two compilations in a row then write what each of them
writes alone (`Emit.collect_bind_ok`), which is how outputs of several sources are told apart.

- `Appends`: a run on a sink without a limit is the run on an empty one, behind what is held.
- `Counts`: the number that a run gives is that of the bytes it has written.
- `Compiler.compile_appends`, `Compiler.compile_counts`: compiling does both.
-/

namespace AssetServer

variable {α β : Type}

/-! ## §1 Runs on an empty sink -/

namespace Emit

theorem collect_pure (a : α) (h : Host) : (pure a : Emit α).collect h = (.ok a, [], h) := rfl

theorem collect_throw (e : Failure) (h : Host) :
    (throw e : Emit α).collect h = (.error e, [], h) := rfl

theorem collect_ofAct (act : Act α) (h : Host) :
    (Emit.ofAct act).collect h = ((runFrom act h).1, [], (runFrom act h).2) := rfl

/-- What two runs in a row come to: the second starts on the host that the first leaves, and its
    bytes go behind those of the first. -/
def chained (first : Except Failure α × Bytes × Host)
    (next : α → Host → Except Failure β × Bytes × Host) : Except Failure β × Bytes × Host :=
  match first with
  | (.ok a, b, k) => ((next a k).1, b ++ (next a k).2.1, (next a k).2.2)
  | (.error e, b, k) => (.error e, b, k)

end Emit

/-- What a sink without a limit holds does not matter to a run: the bytes that the run writes to an
    empty one are put behind it. -/
def Appends (act : Emit α) : Prop :=
  ∀ h held, runFrom act ⟨h, ⟨held, none⟩⟩ =
    ((act.collect h).1, ⟨(act.collect h).2.2, ⟨held ++ (act.collect h).2.1, none⟩⟩)

/-- The number that a run gives is that of the bytes it has written. -/
def Counts (act : Emit Nat) : Prop :=
  ∀ h n b k, act.collect h = (.ok n, b, k) → n = b.length

namespace Appends

/-- It is enough to say what every run comes to. -/
theorem of_runs {act : Emit α} (f : Host → Except Failure α × Bytes × Host)
    (hf : ∀ h held, runFrom act ⟨h, ⟨held, none⟩⟩ =
      ((f h).1, ⟨(f h).2.2, ⟨held ++ (f h).2.1, none⟩⟩)) : Appends act := by
  have hcollect : ∀ h, act.collect h = f h := by
    intro h
    rw [Emit.collect_eq]
    unfold Sink.unlimited
    rw [hf h []]
    rfl
  intro h held
  rw [hcollect]
  exact hf h held

theorem pure (a : α) : Appends (Pure.pure a : Emit α) := by
  refine of_runs (fun h => (.ok a, [], h)) fun h held => ?_
  rw [runFrom_pure, List.append_nil]

theorem throw (e : Failure) : Appends (MonadExcept.throw e : Emit α) := by
  refine of_runs (fun h => (.error e, [], h)) fun h held => ?_
  rw [runFrom_throw, List.append_nil]

theorem ofAct (act : Act α) : Appends (Emit.ofAct act) := by
  refine of_runs (fun h => ((runFrom act h).1, [], (runFrom act h).2)) fun h held => ?_
  rw [runFrom_ofAct, List.append_nil]

theorem copy (fault : OsError → Failure) (data : Bytes) : Appends (Emit.copy fault data) := by
  refine of_runs (fun h => (.ok data.length, data, h)) fun h held => ?_
  unfold Emit.copy
  rw [runFrom_emit, Sink.copy_unlimited rfl]

theorem bind {act : Emit α} {next : α → Emit β} (hact : Appends act)
    (hnext : ∀ a, Appends (next a)) : Appends (act >>= next) := by
  refine of_runs (fun h => Emit.chained (act.collect h) fun a k => (next a).collect k)
    fun h held => ?_
  rw [runFrom_bind, hact h held]
  rcases act.collect h with ⟨result, b, k⟩
  cases result with
  | ok a =>
    simp only [Emit.chained]
    rw [hnext a k (held ++ b), List.append_assoc]
  | error e => rfl

theorem withScratch {act : Emit α} (hact : Appends act) (scratch : Path) :
    Appends (withScratch scratch act) := by
  refine of_runs (fun h => ((act.collect h).1, (act.collect h).2.1,
    removeScratch scratch (act.collect h).2.2)) fun h held => ?_
  rw [runFrom_withScratch, hact h held]

end Appends

namespace Emit

variable {act : Emit α} {next : α → Emit β} {h k : Host} {b : Bytes}

theorem collect_bind (hact : Appends act) (hnext : ∀ a, Appends (next a)) (h : Host) :
    (act >>= next).collect h = chained (act.collect h) fun a k => (next a).collect k := by
  rw [collect_eq, runFrom_bind]
  unfold Sink.unlimited
  rw [hact h []]
  rcases act.collect h with ⟨result, b, k⟩
  cases result with
  | ok a =>
    simp only [chained, List.nil_append]
    rw [hnext a k b]
  | error e => rfl

/-- What a run has put behind some bytes is told apart from them. -/
theorem behind_iff {r : Except Failure α × Bytes × Host} {result : Except Failure α} {b₁ : Bytes} :
    (r.1, b₁ ++ r.2.1, r.2.2) = (result, b, k) ↔ ∃ b₂, r = (result, b₂, k) ∧ b = b₁ ++ b₂ := by
  constructor
  · intro heq
    rw [Prod.mk.injEq, Prod.mk.injEq] at heq
    obtain ⟨hresult, rfl, hhost⟩ := heq
    exact ⟨r.2.1, Prod.ext hresult (Prod.ext rfl hhost), rfl⟩
  · rintro ⟨b₂, rfl, rfl⟩
    rfl

/-- Two actions in a row write what each of them writes alone. -/
theorem collect_bind_ok {c : β} (hact : Appends act) (hnext : ∀ a, Appends (next a)) :
    (act >>= next).collect h = (.ok c, b, k) ↔ ∃ a b₁ k₁ b₂, act.collect h = (.ok a, b₁, k₁) ∧
      (next a).collect k₁ = (.ok c, b₂, k) ∧ b = b₁ ++ b₂ := by
  rw [collect_bind hact hnext]
  rcases act.collect h with ⟨result, b₁, k₁⟩
  cases result with
  | ok a =>
    simp only [chained, behind_iff]
    constructor
    · rintro ⟨b₂, hsecond, rfl⟩
      exact ⟨a, b₁, k₁, b₂, rfl, hsecond, rfl⟩
    · rintro ⟨a', b', k', b₂, hfirst, hsecond, rfl⟩
      cases hfirst
      exact ⟨b₂, hsecond, rfl⟩
  | error e => simp [chained]

/-- If two actions in a row fail, the first failed, or it has written all of its output and the
    second failed. -/
theorem collect_bind_error {e : Failure} (hact : Appends act) (hnext : ∀ a, Appends (next a)) :
    (act >>= next).collect h = (.error e, b, k) ↔ act.collect h = (.error e, b, k) ∨
      ∃ a b₁ k₁ b₂, act.collect h = (.ok a, b₁, k₁) ∧
        (next a).collect k₁ = (.error e, b₂, k) ∧ b = b₁ ++ b₂ := by
  rw [collect_bind hact hnext]
  rcases act.collect h with ⟨result, b₁, k₁⟩
  cases result with
  | ok a =>
    simp only [chained, behind_iff]
    constructor
    · rintro ⟨b₂, hsecond, rfl⟩
      exact .inr ⟨a, b₁, k₁, b₂, rfl, hsecond, rfl⟩
    · rintro (hfirst | ⟨a', b', k', b₂, hfirst, hsecond, rfl⟩)
      · cases hfirst
      · cases hfirst
        exact ⟨b₂, hsecond, rfl⟩
  | error e' => simp [chained]

variable {first second : Emit Nat} {n : Nat}

/-- Two actions whose numbers are added write what each of them writes alone. -/
theorem collect_add_ok (hfirst : Appends first) (hsecond : Appends second) :
    (first >>= fun n => second >>= fun m => (pure (n + m) : Emit Nat)).collect h = (.ok n, b, k) ↔
      ∃ n₁ b₁ k₁ n₂ b₂, first.collect h = (.ok n₁, b₁, k₁) ∧ second.collect k₁ = (.ok n₂, b₂, k) ∧
        n = n₁ + n₂ ∧ b = b₁ ++ b₂ := by
  rw [collect_bind_ok hfirst fun _ => .bind hsecond fun _ => .pure _]
  constructor
  · rintro ⟨n₁, b₁, k₁, b₂, hone, hrest, rfl⟩
    obtain ⟨n₂, b₃, k₂, b₄, htwo, hsum, rfl⟩ := (collect_bind_ok hsecond fun _ => .pure _).mp hrest
    rw [collect_pure, Prod.mk.injEq, Prod.mk.injEq, Except.ok.injEq] at hsum
    obtain ⟨rfl, rfl, rfl⟩ := hsum
    exact ⟨n₁, b₁, k₁, n₂, b₃, hone, htwo, rfl, by rw [List.append_nil]⟩
  · rintro ⟨n₁, b₁, k₁, n₂, b₂, hone, htwo, rfl, rfl⟩
    exact ⟨n₁, b₁, k₁, b₂, hone, (collect_bind_ok hsecond fun _ => .pure _).mpr
      ⟨n₂, b₂, k, [], htwo, collect_pure _ _, (List.append_nil _).symm⟩, rfl⟩

/-- Adding numbers does not fail, so it is one of the two actions that does. -/
theorem collect_add_error {e : Failure} (hfirst : Appends first) (hsecond : Appends second) :
    (first >>= fun n => second >>= fun m => (pure (n + m) : Emit Nat)).collect h =
        (.error e, b, k) ↔
      first.collect h = (.error e, b, k) ∨ ∃ n₁ b₁ k₁ b₂, first.collect h = (.ok n₁, b₁, k₁) ∧
        second.collect k₁ = (.error e, b₂, k) ∧ b = b₁ ++ b₂ := by
  have hsecond_error : ∀ (n₁ : Nat) (k₁ : Host) (b₂ : Bytes),
      (second >>= fun m => (pure (n₁ + m) : Emit Nat)).collect k₁ = (.error e, b₂, k) ↔
        second.collect k₁ = (.error e, b₂, k) := by
    intro n₁ k₁ b₂
    rw [collect_bind_error hsecond fun _ => .pure _]
    exact or_iff_left fun ⟨_, _, _, _, _, hpure, _⟩ => by cases hpure
  rw [collect_bind_error hfirst fun _ => .bind hsecond fun _ => .pure _]
  simp only [hsecond_error]

end Emit

/-! ## §2 Counting -/

namespace Counts

theorem pure_zero : Counts (Pure.pure 0 : Emit Nat) := by
  intro h n b k hrun
  rw [Emit.collect_pure] at hrun
  cases hrun
  rfl

theorem throw (e : Failure) : Counts (MonadExcept.throw e : Emit Nat) := by
  intro h n b k hrun
  cases hrun

theorem copy (fault : OsError → Failure) (data : Bytes) : Counts (Emit.copy fault data) := by
  intro h n b k hrun
  have hcopied : (Emit.copy fault data).collect h = (.ok data.length, data, h) := by
    rw [Emit.collect_eq]
    unfold Emit.copy
    rw [runFrom_emit, Sink.copy_unlimited rfl]
    rfl
  rw [hcopied] at hrun
  cases hrun
  rfl

/-- An action that writes nothing does not have to be counted. -/
theorem after {act : Act α} {next : α → Emit Nat} (happends : ∀ a, Appends (next a))
    (hnext : ∀ a, Counts (next a)) : Counts (Emit.ofAct act >>= next) := by
  intro h n b k hrun
  obtain ⟨a, b₁, k₁, b₂, hfirst, hsecond, rfl⟩ :=
    (Emit.collect_bind_ok (.ofAct act) happends).mp hrun
  rw [Emit.collect_ofAct, Prod.mk.injEq, Prod.mk.injEq] at hfirst
  obtain ⟨-, rfl, -⟩ := hfirst
  rw [List.nil_append]
  exact hnext a k₁ n b₂ k hsecond

/-- The numbers of two actions in a row are added. -/
theorem add {act more : Emit Nat} (hact : Appends act) (hmore : Appends more)
    (hcount : Counts act) (hcountMore : Counts more) :
    Counts (act >>= fun n => more >>= fun m => (Pure.pure (n + m) : Emit Nat)) := by
  intro h n b k hrun
  obtain ⟨n₁, b₁, k₁, n₂, b₂, hfirst, hsecond, rfl, rfl⟩ := (Emit.collect_add_ok hact hmore).mp hrun
  rw [List.length_append, hcount _ _ _ _ hfirst, hcountMore _ _ _ _ hsecond]

theorem withScratch {act : Emit Nat} (hact : Counts act) (scratch : Path) :
    Counts (withScratch scratch act) := by
  intro h n b k hrun
  have hcollect : (AssetServer.withScratch scratch act).collect h =
      ((act.collect h).1, (act.collect h).2.1, removeScratch scratch (act.collect h).2.2) := rfl
  rw [hcollect, Prod.mk.injEq, Prod.mk.injEq] at hrun
  obtain ⟨hresult, rfl, -⟩ := hrun
  exact hact h n _ _ (Prod.ext hresult rfl)

end Counts

/-! ## §3 Pipelines -/

/-- Passes on the output of a pipeline that has been started, and waits for its stages. -/
def Running.finish (r : Running) : Emit Nat :=
  Emit.ofPair fun o =>
    let (copied, running, sink) := r.drain o.sink
    let (waited, _, host) := running.wait o.host
    let result := match copied, waited with
      | .error e, _ => .error e
      | .ok _, .error e => .error e
      | .ok n, .ok () => .ok n
    (result, ⟨host, sink⟩)

theorem Pipeline.runInto_eq (p : Pipeline) (input : PipelineInput) :
    p.runInto input = Emit.ofAct (p.spawn input) >>= Running.finish := rfl

namespace Running

/-- The bytes that are left to pass on. -/
def left (r : Running) : Bytes :=
  r.output.getD []

theorem drain_unlimited (r : Running) :
    ∃ r', ∀ held, r.drain ⟨held, none⟩ = (.ok r.left.length, r', ⟨held ++ r.left, none⟩) := by
  unfold drain left
  cases houtput : r.output with
  | none => exact ⟨r, fun held => by simp⟩
  | some data =>
    refine ⟨{ r with output := some [] }, fun held => ?_⟩
    simp only [Sink.copy_unlimited, Option.getD_some]

/-- What is left goes to the sink, whether the stages end well or not. -/
theorem runFrom_finish (r : Running) : ∃ f : Host → Except Failure Nat × Host, ∀ h held,
    runFrom r.finish ⟨h, ⟨held, none⟩⟩ = ((f h).1, ⟨(f h).2, ⟨held ++ r.left, none⟩⟩) ∧
      ∀ n, (f h).1 = .ok n → n = r.left.length := by
  obtain ⟨r', hdrain⟩ := r.drain_unlimited
  refine ⟨fun h => ((r'.wait h).1.map fun _ => r.left.length, (r'.wait h).2.2), fun h held => ?_⟩
  unfold finish
  rw [runFrom_emit]
  simp only [hdrain]
  rcases r'.wait h with ⟨waited, r'', after⟩
  cases waited with
  | ok u => exact ⟨rfl, fun n hn => (Except.ok.inj hn).symm⟩
  | error e => exact ⟨rfl, fun n hn => by cases hn⟩

theorem finish_appends (r : Running) : Appends r.finish := by
  obtain ⟨f, hf⟩ := r.runFrom_finish
  exact .of_runs (fun h => ((f h).1, r.left, (f h).2)) fun h held => (hf h held).1

theorem finish_counts (r : Running) : Counts r.finish := by
  intro h n b k hrun
  obtain ⟨f, hf⟩ := r.runFrom_finish
  obtain ⟨heq, hcount⟩ := hf h []
  rw [Emit.collect_eq] at hrun
  unfold Sink.unlimited at hrun
  rw [heq, Prod.mk.injEq, Prod.mk.injEq] at hrun
  obtain ⟨hresult, rfl, -⟩ := hrun
  exact hcount n hresult

end Running

namespace Pipeline

theorem runInto_appends (p : Pipeline) (input : PipelineInput) : Appends (p.runInto input) := by
  rw [runInto_eq]
  exact .bind (.ofAct _) Running.finish_appends

theorem runInto_counts (p : Pipeline) (input : PipelineInput) : Counts (p.runInto input) := by
  rw [runInto_eq]
  exact .after Running.finish_appends Running.finish_counts

end Pipeline

/-! ## §4 Files -/

theorem copyFile_appends (p : Path) : Appends (copyFile p) :=
  .bind (.ofAct _) fun _ => .copy _ _

theorem copyFile_counts (p : Path) : Counts (copyFile p) :=
  .after (fun _ => .copy _ _) fun _ => .copy _ _

theorem appendFile_appends (source p : Path) : Appends (appendFile source p) := by
  refine .bind (.ofAct _) fun opened => ?_
  cases opened.read with
  | ok data => exact .copy _ _
  | error e => exact .throw _

theorem appendFile_counts (source p : Path) : Counts (appendFile source p) := by
  refine .after (fun opened => ?_) fun opened => ?_
  · cases opened.read with
    | ok data => exact .copy _ _
    | error e => exact .throw _
  · cases opened.read with
    | ok data => exact .copy _ _
    | error e => exact .throw _

theorem appendFiles_appends (source : Path) (paths : List Path) :
    Appends (appendFiles source paths) := by
  induction paths with
  | nil => exact .pure 0
  | cons p rest ih =>
    exact .bind (appendFile_appends source p) fun n => .bind ih fun more => .pure _

theorem appendFiles_counts (source : Path) (paths : List Path) :
    Counts (appendFiles source paths) := by
  induction paths with
  | nil => exact .pure_zero
  | cons p rest ih =>
    exact .add (appendFile_appends source p) (appendFiles_appends source rest)
      (appendFile_counts source p) ih

theorem expand_appends (source : Path) : Appends (expand source) :=
  .bind (.ofAct _) fun _ => appendFiles_appends _ _

theorem expand_counts (source : Path) : Counts (expand source) :=
  .after (fun _ => appendFiles_appends _ _) fun _ => appendFiles_counts _ _

/-! ## §5 Sources -/

theorem passArtifact_appends (compile : Pipeline) (artifact : Path) (optimize : Option Pipeline) :
    Appends (passArtifact compile artifact optimize) := by
  refine .bind (.ofAct _) fun _ => ?_
  cases optimize with
  | some p => exact p.runInto_appends _
  | none => exact copyFile_appends _

theorem passArtifact_counts (compile : Pipeline) (artifact : Path) (optimize : Option Pipeline) :
    Counts (passArtifact compile artifact optimize) := by
  refine .after (fun _ => ?_) fun _ => ?_
  · cases optimize with
    | some p => exact p.runInto_appends _
    | none => exact copyFile_appends _
  · cases optimize with
    | some p => exact p.runInto_counts _
    | none => exact copyFile_counts _

namespace Compiler

/-- Runs what a plan asks for, without the directives of its source. -/
def runPlan : Plan → Emit Nat
  | .passthrough path => copyFile path
  | .bundle _ => pure 0
  | .stream pipeline => pipeline.runInto .null
  | .intermediate compile artifact optimize scratch =>
    withScratch scratch (passArtifact compile artifact optimize)

theorem runPlan_appends (plan : Plan) : Appends (runPlan plan) := by
  cases plan with
  | passthrough path => exact copyFile_appends path
  | bundle _ => exact .pure 0
  | stream pipeline => exact pipeline.runInto_appends _
  | intermediate compile artifact optimize scratch =>
    exact .withScratch (passArtifact_appends compile artifact optimize) scratch

theorem runPlan_counts (plan : Plan) : Counts (runPlan plan) := by
  cases plan with
  | passthrough path => exact copyFile_counts path
  | bundle _ => exact .pure_zero
  | stream pipeline => exact pipeline.runInto_counts _
  | intermediate compile artifact optimize scratch =>
    exact .withScratch (passArtifact_counts compile artifact optimize) scratch

/-- What follows the plan of a source: the files that its directives name, but for files that are
    copied as they are. -/
def finishPlan (source : Path) (plan : Plan) : Emit Nat :=
  match plan with
  | .passthrough _ | .bundle _ => runPlan plan
  | .stream _ | .intermediate .. => do
    let n ← runPlan plan
    let more ← expand source
    return n + more

theorem compileSource_eq (c : Compiler) (kind : Kind) (source : Path) :
    c.compileSource kind source = Emit.ofAct (c.plan kind source) >>= finishPlan source := by
  unfold compileSource
  congr 1
  funext plan
  cases plan with
  | passthrough path => rfl
  | bundle m => rfl
  | stream pipeline => rfl
  | intermediate compile artifact optimize scratch => rfl

theorem finishPlan_appends (source : Path) (plan : Plan) : Appends (finishPlan source plan) := by
  have hdirectives : ∀ plan, Appends (runPlan plan >>= fun n => expand source >>= fun more =>
      (Pure.pure (n + more) : Emit Nat)) := fun plan =>
    .bind (runPlan_appends plan) fun _ => .bind (expand_appends source) fun _ => .pure _
  cases plan with
  | passthrough path => exact runPlan_appends (.passthrough path)
  | bundle m => exact runPlan_appends (.bundle m)
  | stream pipeline => exact hdirectives _
  | intermediate compile artifact optimize scratch => exact hdirectives _

theorem finishPlan_counts (source : Path) (plan : Plan) : Counts (finishPlan source plan) := by
  have hdirectives : ∀ plan, Counts (runPlan plan >>= fun n => expand source >>= fun more =>
      (Pure.pure (n + more) : Emit Nat)) := fun plan =>
    .add (runPlan_appends plan) (expand_appends source) (runPlan_counts plan)
      (expand_counts source)
  cases plan with
  | passthrough path => exact runPlan_counts (.passthrough path)
  | bundle m => exact runPlan_counts (.bundle m)
  | stream pipeline => exact hdirectives _
  | intermediate compile artifact optimize scratch => exact hdirectives _

theorem compileSource_appends (c : Compiler) (kind : Kind) (source : Path) :
    Appends (c.compileSource kind source) := by
  rw [compileSource_eq]
  exact .bind (.ofAct _) (finishPlan_appends source)

theorem compileSource_counts (c : Compiler) (kind : Kind) (source : Path) :
    Counts (c.compileSource kind source) := by
  rw [compileSource_eq]
  exact .after (finishPlan_appends source) (finishPlan_counts source)

/-! ## §6 Bundles -/

theorem compileUnits_appends (c : Compiler) (manifest dir : Path) (m : Manifest)
    (units : List BundleUnit) (index : Nat) :
    Appends (c.compileUnits manifest dir m index units) := by
  induction units generalizing index with
  | nil => exact .pure 0
  | cons u rest ih =>
    unfold compileUnits
    simp only
    split
    · exact .throw _
    · exact .bind (compileSource_appends _ _ _) fun n => .bind (ih (index + 1)) fun more => .pure _

theorem compileUnits_counts (c : Compiler) (manifest dir : Path) (m : Manifest)
    (units : List BundleUnit) (index : Nat) :
    Counts (c.compileUnits manifest dir m index units) := by
  induction units generalizing index with
  | nil => exact .pure_zero
  | cons u rest ih =>
    unfold compileUnits
    simp only
    split
    · exact .throw _
    · exact .add (compileSource_appends _ _ _) (compileUnits_appends c manifest dir m rest _)
        (compileSource_counts _ _ _) (ih (index + 1))

/-- What compiling writes goes behind what a sink without a limit holds. -/
theorem compile_appends (c : Compiler) (kind : Kind) (source : Path) :
    Appends (c.compile kind source) := by
  unfold compile
  split
  · exact .bind (.ofAct _) fun _ => compileUnits_appends _ _ _ _ _ _
  · exact compileSource_appends _ _ _

/-- Compiling gives the number of bytes that it has written. -/
theorem compile_counts (c : Compiler) (kind : Kind) (source : Path) :
    Counts (c.compile kind source) := by
  unfold compile
  split
  · exact .after (fun _ => compileUnits_appends _ _ _ _ _ _) fun _ => compileUnits_counts _ _ _ _ _ _
  · exact compileSource_counts _ _ _

end Compiler

end AssetServer
