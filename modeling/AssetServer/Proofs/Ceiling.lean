import AssetServer.Proofs.Bundle
import AssetServer.Proofs.Staging

/-!
# Levels under a ceiling

The level of the whole caps the level of each part, in every stage that a compilation starts.

- `Noting` actions keep the plans that they ask for; `Noting.compile` is compilation as such an action,
  and `Noting.compile_notes` says that it does the same and asks for one plan for a source, or one
  for each unit of a bundle, in order.
- `Compiler.Told` says what a tool is told by its command line, and at which level.
- `Noting.level_ceiling`: no stage is told a higher level than the whole is compiled at.
-/

namespace AssetServer

variable {α β : Type}

/-! ## §1 Plans that are asked for -/

/-- A source to be compiled, with the tools and settings for it. -/
structure Job where
  compiler : Compiler
  kind : Kind
  source : Path

/-- A plan that was asked for, and what planning gave. -/
structure Asked extends Job where
  result : Except Failure Plan

/-- An action on an outlet that keeps the plans it has asked for. -/
abbrev Noting := ExceptT Failure (StateM (Outlet × List Asked))

/-- The unit of a bundle as a source to be compiled. -/
def Compiler.unitJob (c : Compiler) (m : Manifest) (dir : Path) (u : BundleUnit) : Job :=
  ⟨c.ofUnit m dir u, Kind.ofPath (dir.join u.file), dir.join u.file⟩

namespace Noting

/-- An action that asks for no plan. -/
def quiet (act : Emit α) : Noting α :=
  ExceptT.mk fun s =>
    let (result, o) := act.runOn s.1
    (result, (o, s.2))

/-- Asks for the plan of a source. -/
def plan (job : Job) : Noting Plan :=
  ExceptT.mk fun s =>
    let (result, h) := (job.compiler.plan job.kind job.source).runOn s.1.host
    (result, ({ s.1 with host := h }, s.2 ++ [{ job with result }]))

def compileSource (job : Job) : Noting Nat := do
  let made ← plan job
  quiet (Compiler.finishPlan job.source made)

def compileUnits (c : Compiler) (manifest dir : Path) (m : Manifest) :
    Nat → List BundleUnit → Noting Nat
  | _, [] => return 0
  | index, u :: rest =>
    match Compiler.unitFailure? manifest (dir.join u.file) index u with
    | some failure => throw failure
    | none => do
      let n ← compileSource (c.unitJob m dir u)
      let more ← compileUnits c manifest dir m (index + 1) rest
      return n + more

/-- Compiles a source and keeps the plans that this asks for. -/
def compile (c : Compiler) (kind : Kind) (source : Path) : Noting Nat :=
  if kind = .bundle then do
    let m ← quiet (Emit.ofAct (Compiler.loadManifest source))
    compileUnits c source (Compiler.unitsDirectory source) m 0 m.units
  else compileSource ⟨c, kind, source⟩

/-! ## §2 Keeping plans changes nothing -/

/-- The action does what another one does, and the plans that it has asked for are as `P` says. -/
def Notes (act : Noting α) (plain : Emit α) (P : Outlet → Except Failure α → List Asked → Prop) :
    Prop :=
  ∀ o before, ∃ asked,
    runFrom act (o, before) = ((runFrom plain o).1, (runFrom plain o).2, before ++ asked) ∧
      P o (runFrom plain o).1 asked

variable {act : Noting α} {plain : Emit α} {P P' : Outlet → Except Failure α → List Asked → Prop}
  {next : α → Noting β} {plainNext : α → Emit β}
  {Q : α → Outlet → Except Failure β → List Asked → Prop}

theorem Notes.mono (h : Notes act plain P)
    (hP : ∀ o result asked, P o result asked → P' o result asked) : Notes act plain P' := by
  intro o before
  obtain ⟨asked, hrun, hasked⟩ := h o before
  exact ⟨asked, hrun, hP _ _ _ hasked⟩

/-- Two actions in a row ask for the plans of both, unless the first fails. -/
theorem Notes.bind (h : Notes act plain P) (hnext : ∀ a, Notes (next a) (plainNext a) (Q a)) :
    Notes (act >>= next) (plain >>= plainNext) fun o result asked =>
      (∃ e, result = .error e ∧ P o (.error e) asked) ∨
        ∃ a o' first second, asked = first ++ second ∧ runFrom plain o = (.ok a, o') ∧
          P o (.ok a) first ∧ Q a o' result second := by
  intro o before
  obtain ⟨first, hfirst, hP⟩ := h o before
  rw [runFrom_bind, runFrom_bind, hfirst]
  rcases hplain : runFrom plain o with ⟨result, o'⟩
  rw [hplain] at hP
  cases result with
  | error e => exact ⟨first, rfl, .inl ⟨e, rfl, hP⟩⟩
  | ok a =>
    -- what the rest asks for is noted behind what has been asked for
    obtain ⟨second, hsecond, hQ⟩ := hnext a o' (before ++ first)
    refine ⟨first ++ second, ?_, .inr ⟨a, o', first, second, rfl, hplain, hP, hQ⟩⟩
    rw [List.append_assoc] at hsecond
    exact hsecond

theorem Notes.pure (a : α) : Notes (Pure.pure a) (Pure.pure a) fun _ result asked =>
    result = .ok a ∧ asked = [] :=
  fun o before => ⟨[], by rw [List.append_nil]; rfl, rfl, rfl⟩

theorem Notes.throw (e : Failure) : Notes (throw e : Noting α) (throw e) fun _ result asked =>
    result = .error e ∧ asked = [] :=
  fun o before => ⟨[], by rw [List.append_nil]; rfl, rfl, rfl⟩

theorem Notes.quiet (act : Emit α) : Notes (Noting.quiet act) act fun o result asked =>
    result = (runFrom act o).1 ∧ asked = [] :=
  fun o before => ⟨[], by rw [List.append_nil]; rfl, rfl, rfl⟩

end Noting

/-- What was asked is what planning gives on some host. -/
def Asked.Genuine (x : Asked) : Prop :=
  ∃ h : Host, x.result = (runFrom (x.compiler.plan x.kind x.source) h).1

namespace Noting

variable {c : Compiler} {manifest dir source : Path} {m : Manifest} {kind : Kind}

theorem Notes.plan (job : Job) : Notes (Noting.plan job)
    (Emit.ofAct (job.compiler.plan job.kind job.source)) fun _ result asked =>
      asked = [{ job with result }] ∧ ∀ x ∈ asked, x.Genuine := by
  intro o before
  refine ⟨_, rfl, rfl, fun x hx => ?_⟩
  rw [List.mem_singleton.mp hx]
  exact ⟨o.host, rfl⟩

theorem compileSource_notes (job : Job) : Notes (compileSource job)
    (job.compiler.compileSource job.kind job.source) fun _ _ asked =>
      asked.map Asked.toJob = [job] ∧ ∀ x ∈ asked, x.Genuine := by
  rw [Compiler.compileSource_eq]
  refine ((Notes.plan job).bind fun made => .quiet _).mono ?_
  rintro o result asked (⟨e, -, rfl, hgenuine⟩ |
    ⟨made, o', first, second, rfl, -, ⟨rfl, hgenuine⟩, -, rfl⟩)
  · exact ⟨rfl, hgenuine⟩
  · rw [List.append_nil]
    exact ⟨rfl, hgenuine⟩

/-- The units of a bundle ask for one plan each, in order, up to one that fails. -/
theorem compileUnits_notes (index : Nat) (units : List BundleUnit) :
    Notes (compileUnits c manifest dir m index units) (c.compileUnits manifest dir m index units)
      fun _ result asked => (∀ x ∈ asked, x.Genuine) ∧
        asked.map Asked.toJob <+: units.map (c.unitJob m dir) ∧
        ∀ n, result = .ok n → asked.map Asked.toJob = units.map (c.unitJob m dir) := by
  induction units generalizing index with
  | nil =>
    refine (Notes.pure 0).mono ?_
    rintro o result asked ⟨-, rfl⟩
    simp
  | cons u rest ih =>
    unfold compileUnits Compiler.compileUnits
    simp only
    cases hrefused : Compiler.unitFailure? manifest (dir.join u.file) index u with
    | some failure =>
      -- a unit that is refused asks for nothing, and those behind it are not reached
      refine (Notes.throw failure).mono ?_
      rintro o result asked ⟨rfl, rfl⟩
      simp
    | none =>
      refine ((compileSource_notes (c.unitJob m dir u)).bind fun n =>
        (ih (index + 1)).bind fun more => .pure (n + more)).mono ?_
      rintro o result asked (⟨e, rfl, hjobs, hgenuine⟩ |
        ⟨n, o₁, first, second, rfl, -, ⟨hjobs, hgenuine⟩, hrest⟩)
      · -- the unit fails, and the others are not looked at
        refine ⟨hgenuine, ?_, by simp⟩
        rw [hjobs, List.map_cons]
        exact List.prefix_append [_] _
      · rcases hrest with ⟨e, rfl, hlater, hprefix, -⟩ |
          ⟨more, o₂, later, last, rfl, -, ⟨hlater, hprefix, hall⟩, rfl, rfl⟩
        · refine ⟨?_, ?_, by simp⟩
          · rw [List.forall_mem_append]
            exact ⟨hgenuine, hlater⟩
          · rw [List.map_append, hjobs, List.map_cons]
            exact List.prefix_append_right_inj [_] |>.mpr hprefix
        · rw [List.append_nil, List.forall_mem_append, List.map_append, hjobs, hall more rfl]
          exact ⟨⟨hgenuine, hlater⟩, List.prefix_rfl, fun _ _ => rfl⟩

/-- The plans that compiling a source asks for. -/
def Plans (c : Compiler) (kind : Kind) (source : Path) (o : Outlet) (result : Except Failure Nat)
    (jobs : List Job) : Prop :=
  (kind ≠ .bundle ∧ jobs = [⟨c, kind, source⟩]) ∨
    (kind = .bundle ∧ jobs = [] ∧
      ∃ e, (runFrom (Compiler.loadManifest source) o.host).1 = .error e) ∨
    (kind = .bundle ∧ ∃ m, (runFrom (Compiler.loadManifest source) o.host).1 = .ok m ∧
      jobs <+: m.units.map (c.unitJob m (Compiler.unitsDirectory source)) ∧
      ∀ n, result = .ok n → jobs = m.units.map (c.unitJob m (Compiler.unitsDirectory source)))

/-- Keeping the plans changes nothing about a compilation. -/
theorem compile_notes (c : Compiler) (kind : Kind) (source : Path) :
    Notes (compile c kind source) (c.compile kind source) fun o result asked => (∀ x ∈ asked, x.Genuine) ∧
      Plans c kind source o result (asked.map Asked.toJob) := by
  unfold compile Compiler.compile
  split_ifs with hkind
  · refine ((Notes.quiet (Emit.ofAct (Compiler.loadManifest source))).bind fun m =>
      compileUnits_notes 0 m.units).mono ?_
    rintro o result asked (⟨e, -, hload, rfl⟩ |
      ⟨m, o', first, second, rfl, hrun, ⟨-, rfl⟩, hgenuine, hprefix, hall⟩)
    · exact ⟨by simp, .inr (.inl ⟨hkind, rfl, e, hload.symm⟩)⟩
    · exact ⟨hgenuine, .inr (.inr ⟨hkind, m, congrArg Prod.fst hrun, hprefix, hall⟩)⟩
  · refine (compileSource_notes ⟨c, kind, source⟩).mono ?_
    rintro o result asked ⟨hjobs, hgenuine⟩
    exact ⟨hgenuine, .inl ⟨hkind, hjobs⟩⟩

end Noting

/-! ## §3 What a tool is told -/

namespace Compiler

/-- The flags that tell a tool a level. -/
def levelFlags : Role → Level → List String
  | .component, .none => []
  | .component, .basic => ["--release"]
  | .component, .advanced => ["--release", "--optimize", "no-assert,no-log,inline,return-if"]
  | .stylesheet, .none => []
  | .stylesheet, .basic => ["--style", "compact"]
  | .stylesheet, .advanced => ["--style", "compressed"]
  | .optimizer, .none | .optimizer, .basic => ["--compilation_level", "SIMPLE"]
  | .optimizer, .advanced => ["--compilation_level", "ADVANCED"]
  | .typescript, _ | .preprocessor, _ => []

/-- The flags that tell a tool the files or directories in its list, in the order of the list. -/
def listFlags (s : Settings) (h : Host) : Role → List String
  | .component =>
    s.componentIncludes.flatMap fun dir => ["--add-search-path", ((h.absolute? dir).getD dir).text]
  | .stylesheet => s.stylesheetIncludes.flatMap fun dir => ["-I", dir.text]
  | .preprocessor => s.preprocessorIncludes.map fun dir => "-I" ++ dir.text
  | .optimizer => s.externs.flatMap fun file => ["--externs", file.text]
  | .typescript => []

/-- The other flags of a tool. -/
def ownFlags (s : Settings) (artifact : Path) : Role → List String
  | .preprocessor => s.preprocessorFlags
  | .typescript => ["--out", artifact.text]
  | .component | .stylesheet | .optimizer => []

/-- The source as an argument: its path, or its name for a stage that runs in its directory. -/
inductive Names (source : Path) (stage : Command) : List String → Prop where
  | path (hdirectory : stage.directory = none) : Names source stage [source.text]
  | name {dir : Path} {name : String} (hparent : source.parent = some dir)
      (hname : source.fileName = some name) (hdirectory : stage.directory = some dir) :
      Names source stage [name]

/-- What the tool for a role is told: its own leading arguments come first, then what the settings
    say, with the flags for the level before or behind the others, and the source at the end if the
    tool is a front end. -/
structure Told (c : Compiler) (h : Host) (source artifact : Path) (role : Role) (stage : Command) :
    Prop where
  name : stage.name = (c.tools.get role).name
  program : stage.program = (c.tools.get role).program
  arguments : ∃ generated last,
    stage.arguments = (c.tools.get role).arguments ++ (generated ++ last) ∧
    (generated = levelFlags role c.settings.level ++
        (ownFlags c.settings artifact role ++ listFlags c.settings h role) ∨
      generated = ownFlags c.settings artifact role ++ listFlags c.settings h role ++
        levelFlags role c.settings.level) ∧
    (role = .optimizer ∧ last = [] ∨ role ≠ .optimizer ∧ Names source stage last)

variable {c : Compiler} {h k : Host} {source artifact : Path} {kind : Kind}

theorem component_told (c : Compiler) (h : Host) (source : Path) : ∃ last,
    (c.component h source).arguments = c.tools.component.arguments ++
      (listFlags c.settings h .component ++ levelFlags .component c.settings.level ++ last) ∧
    Names source (c.component h source) last := by
  have hflags : componentFlags c.settings.level = levelFlags .component c.settings.level := by
    cases c.settings.level <;> rfl
  unfold component
  rw [hflags]
  split
  · rename_i dir name hparent hname
    simp only
    split_ifs with hempty
    · exact ⟨[source.text], List.append_assoc _ _ _, .path rfl⟩
    · exact ⟨[name], List.append_assoc _ _ _, .name hparent hname rfl⟩
  · exact ⟨[source.text], List.append_assoc _ _ _, .path rfl⟩

/-- Each stage is told the level that its source is compiled at. -/
theorem command_told (role : Role) :
    c.Told h source artifact role (c.command h source artifact role) := by
  refine ⟨(command_name role).1, command_program role, ?_⟩
  cases role with
  | component =>
    obtain ⟨last, harguments, hnames⟩ := component_told c h source
    exact ⟨_, last, harguments, .inr rfl, .inr ⟨by decide, hnames⟩⟩
  | typescript => exact ⟨_, [source.text], rfl, .inl rfl, .inr ⟨by decide, .path rfl⟩⟩
  | stylesheet =>
    have hflags : stylesheetFlags c.settings.level = levelFlags .stylesheet c.settings.level := by
      cases c.settings.level <;> rfl
    refine ⟨_, [source.text], ?_, .inl rfl, .inr ⟨by decide, .path rfl⟩⟩
    rw [← hflags]
    rfl
  | preprocessor => exact ⟨_, [source.text], rfl, .inl rfl, .inr ⟨by decide, .path rfl⟩⟩
  | optimizer =>
    have hflags : ["--compilation_level", optimizerLevel c.settings.level] =
        levelFlags .optimizer c.settings.level := by
      cases c.settings.level <;> rfl
    refine ⟨_, [], ?_, .inl rfl, .inl ⟨rfl, rfl⟩⟩
    rw [← hflags, List.append_nil]
    rfl

/-- The optimizer has a part in what is compiled above the lowest level only. -/
theorem mem_roles_iff : Role.optimizer ∈ c.roles kind ↔
    kind.optimized = true ∧ 0 < c.settings.level.rank := by
  have hrank : c.settings.level ≠ .none ↔ 0 < c.settings.level.rank := by
    cases c.settings.level <;> decide
  have hfront : Role.optimizer ∉ kind.frontRole?.toList := by
    cases kind <;> decide
  rw [← hrank, roles, List.mem_append]
  simp only [hfront, false_or]
  split_ifs with hopt
  · unfold Optimizing at hopt
    simpa using hopt
  · unfold Optimizing at hopt
    simpa using hopt

/-- The optimizer is the last stage, and there is one optimizer at most. -/
theorem optimizer_last {before after : List Role}
    (hroles : c.roles kind = before ++ .optimizer :: after) :
    after = [] ∧ Role.optimizer ∉ before := by
  have hfront : Role.optimizer ∉ kind.frontRole?.toList := by
    cases kind <;> decide
  unfold roles at hroles
  split_ifs at hroles with hopt
  · rcases List.eq_nil_or_concat after with rfl | ⟨init, last, rfl⟩
    · obtain ⟨rfl, -⟩ := List.append_inj' hroles rfl
      exact ⟨rfl, hfront⟩
    · -- an optimizer in front of the last stage would be a front end
      rw [List.concat_eq_append, ← List.cons_append, ← List.append_assoc] at hroles
      rw [(List.append_inj' hroles rfl).1] at hfront
      simp at hfront
  · rw [List.append_nil] at hroles
    rw [hroles] at hfront
    simp at hfront

end Compiler

/-! ## §4 The ceiling -/

/-- A plan that was asked for keeps under the level of the whole: that of its source is no higher, the
    optimizer has a part in it only above the lowest level, and then as its last stage, and its
    stages are the command lines for its tools, each told the level of the source. -/
structure Asked.Capped (x : Asked) (whole : Level) : Prop where
  level : x.compiler.settings.level ≤ whole
  optimizer : Role.optimizer ∈ x.compiler.roles x.kind ↔
    x.kind.optimized = true ∧ 0 < x.compiler.settings.level.rank
  above : Role.optimizer ∈ x.compiler.roles x.kind → 0 < whole.rank
  last : ∀ before after, x.compiler.roles x.kind = before ++ .optimizer :: after →
    after = [] ∧ Role.optimizer ∉ before
  stages : ∃ (k : Host) (artifact : Path) (commands : List Command),
    List.Forall₂ (x.compiler.Told k x.source artifact) (x.compiler.roles x.kind) commands ∧
    ∀ plan, x.result = .ok plan → List.Forall₂ (Pipeline.Pins k) commands plan.stages

namespace Noting

variable {c : Compiler} {kind : Kind} {source : Path}

theorem capped {x : Asked} {whole : Level} (hgenuine : x.Genuine)
    (hlevel : x.compiler.settings.level ≤ whole) : x.Capped whole := by
  obtain ⟨h, hresult⟩ := hgenuine
  refine ⟨hlevel, Compiler.mem_roles_iff, fun hmem => ?_, fun _ _ => Compiler.optimizer_last, ?_⟩
  · exact Nat.lt_of_lt_of_le (Compiler.mem_roles_iff.mp hmem).2 hlevel
  · have htold : ∀ (k : Host) (artifact : Path),
        List.Forall₂ (x.compiler.Told k x.source artifact) (x.compiler.roles x.kind)
          (x.compiler.commands k x.kind x.source artifact) := by
      intro k artifact
      rw [Compiler.commands, List.forall₂_map_right_iff]
      exact List.forall₂_same.mpr fun role _ => Compiler.command_told role
    -- a plan that has failed has no stages to speak of
    cases hplan : x.result with
    | error e => exact ⟨h, ⟨""⟩, _, htold _ _, by simp⟩
    | ok plan =>
      rw [hplan] at hresult
      rcases hrun : runFrom (x.compiler.plan x.kind x.source) h with ⟨result, k⟩
      rw [hrun] at hresult
      obtain rfl : result = .ok plan := hresult.symm
      obtain ⟨scratch, hprep⟩ := Compiler.exists_prepared hrun
      refine ⟨k, scratch.join "out.js", _, htold _ _, fun plan' hsame => ?_⟩
      cases hsame
      exact (Compiler.plan_stages hprep hrun).2

/-- The level of the whole is a ceiling for every stage. Compiling a source asks for the plans that it
    would ask for unobserved: one for the source, or one for each unit of its manifest, in order, up
    to a unit that fails. The settings of a unit have the lower of its own level and that of the
    whole, and its lists behind those of the manifest and of the whole. No stage of any plan is told
    a higher level, and the optimizer has a part in a plan exactly if the kind of the source has one
    and the level of the source is above the lowest. -/
theorem level_ceiling (c : Compiler) (kind : Kind) (source : Path) (o : Outlet) : ∃ asked,
    runFrom (compile c kind source) (o, []) = ((runFrom (c.compile kind source) o).1,
      (runFrom (c.compile kind source) o).2, asked) ∧
    Plans c kind source o (runFrom (c.compile kind source) o).1 (asked.map Asked.toJob) ∧
    (∀ m dir u, Compiler.UnitSettings c.settings m dir u
      (c.unitJob m dir u).compiler.settings) ∧
    ∀ x ∈ asked, x.Capped c.settings.level := by
  obtain ⟨asked, hrun, hgenuine, hplans⟩ := compile_notes c kind source o []
  refine ⟨asked, hrun, hplans, fun m dir u => c.ofUnit_settings m dir u, fun x hx => ?_⟩
  refine capped (hgenuine x hx) ?_
  have hjob : x.toJob ∈ asked.map Asked.toJob := List.mem_map_of_mem hx
  -- a source has the level of the whole, and a unit the lower one of that and its own
  have hunit : ∀ (m : Manifest) dir, x.toJob ∈ m.units.map (c.unitJob m dir) →
      x.compiler.settings.level ≤ c.settings.level := by
    intro m dir hmem
    obtain ⟨u, -, hu⟩ := List.mem_map.mp hmem
    have hlevel := (c.ofUnit_settings m dir u).level
    have hcompiler : c.ofUnit m dir u = x.compiler := congrArg Job.compiler hu
    rw [hcompiler] at hlevel
    exact hlevel.trans_le (Nat.min_le_right _ _)
  rcases hplans with ⟨-, hjobs⟩ | ⟨-, hjobs, -⟩ | ⟨-, m, -, hasked, -⟩
  · rw [hjobs, List.mem_singleton] at hjob
    have hcompiler : x.compiler = c := congrArg Job.compiler hjob
    rw [hcompiler]
    exact Nat.le_refl _
  · rw [hjobs] at hjob
    cases hjob
  · exact hunit m _ (hasked.subset hjob)

end Noting

end AssetServer
