import AssetServer.Proofs.Construction
import AssetServer.Proofs.Rendering

/-!
# The stages of a plan

Which tools a source passes through, and what a plan makes of them.

- `Compiler.roles` lists the roles of the tools in the order of their stages, `Compiler.command` gives
  the command line of each.
- `Kind.Prepared` is the host on which the tools of a plan are looked up.
- `Compiler.plan_pins`: planning comes to locating the tools of its stages, whether they are put in
  one pipeline or in two.
-/

namespace AssetServer

/-! ## §1 Stages -/

/-- The stages that a plan has, first stage first. -/
def Plan.stages : Plan → List Command
  | .passthrough _ | .bundle _ => []
  | .stream pipeline => pipeline.stages
  | .intermediate compile _ optimize _ => compile.stages ++ (optimize.map Pipeline.stages).getD []

/-- The role of the tool that a source of a kind passes through first, if it passes through one. -/
def Kind.frontRole? : Kind → Option Role
  | .component => some .component
  | .typedSuperset => some .typescript
  | .stylesheet => some .stylesheet
  | .preprocessedScript => some .preprocessor
  | .bundle | .passthrough | .unknown => none

namespace Compiler

instance (c : Compiler) (kind : Kind) : Decidable (c.Optimizing kind) :=
  inferInstanceAs (Decidable (_ ∧ _))

/-- The roles of the tools that a source of a kind passes through. -/
def roles (c : Compiler) (kind : Kind) : List Role :=
  kind.frontRole?.toList ++ if c.Optimizing kind then [.optimizer] else []

/-- The command line of the tool for a role. -/
def command (c : Compiler) (h : Host) (source artifact : Path) : Role → Command
  | .component => c.component h source
  | .typescript => c.typescript source artifact
  | .stylesheet => c.stylesheet source
  | .preprocessor => c.preprocessor source
  | .optimizer => c.optimizer

/-- The command lines for the stages of a plan, before their tools are located. -/
def commands (c : Compiler) (h : Host) (kind : Kind) (source artifact : Path) : List Command :=
  (c.roles kind).map (c.command h source artifact)

variable {c : Compiler} {h k l : Host} {kind : Kind} {source artifact scratch : Path}

@[simp] theorem component_program : (c.component h source).program = c.tools.component.program := by
  unfold component
  split
  · simp only
    split <;> rfl
  · rfl

@[simp] theorem component_role : (c.component h source).role = some c.tools.component.name := by
  unfold component
  split
  · simp only
    split <;> rfl
  · rfl

/-- A stage runs the program of the tool for its role. -/
theorem command_program (role : Role) :
    (c.command h source artifact role).program = (c.tools.get role).program := by
  cases role with
  | component => exact component_program
  | _ => rfl

theorem command_role (role : Role) :
    (c.command h source artifact role).role = some (c.tools.get role).name := by
  cases role with
  | component => exact component_role
  | _ => rfl

/-- A stage is named by the tool for its role, whatever executable is found for it. -/
theorem command_name (role : Role) :
    (c.command h source artifact role).name = (c.tools.get role).name ∧
      ∀ path, ((c.command h source artifact role).withProgram path).name =
        (c.tools.get role).name := by
  unfold Command.name Command.withProgram
  simp only [command_role, implies_true, and_self]

theorem optimizerStage?_eq (c : Compiler) (kind : Kind) :
    c.optimizerStage? kind = if c.Optimizing kind then some c.optimizer else none := by
  split_ifs with hopt
  · exact optimizerStage?_of hopt
  · exact optimizerStage?_of_not hopt

/-- The command lines for the stages: that of the front end, and that of the optimizer if it has a
    part. -/
theorem commands_eq : c.commands h kind source artifact =
    (kind.frontRole?.map (c.command h source artifact)).toList ++
      (c.optimizerStage? kind).toList := by
  rw [optimizerStage?_eq]
  unfold commands roles
  split_ifs <;> cases kind <;> rfl

end Compiler

/-! ## §2 Planning -/

/-- What planning a source of a kind has come to before the tools are looked up: for a typed superset
    there is a scratch directory by then. -/
inductive Kind.Prepared (kind : Kind) (h : Host) : Path → Host → Prop where
  | made {scratch : Path} {k : Host} (hkind : kind = .typedSuperset)
      (hmake : runFrom makeScratch h = (.ok scratch, k)) : Prepared kind h scratch k
  | unmade {scratch : Path} (hkind : kind ≠ .typedSuperset) (hknown : kind ≠ .unknown) :
      Prepared kind h scratch h

namespace Compiler

variable {c : Compiler} {h k l : Host} {kind : Kind} {source artifact scratch : Path}

/-- What is left when a plan fails: a scratch directory is removed again. -/
def abandoned (kind : Kind) (scratch : Path) (k : Host) : Host :=
  if kind = .typedSuperset then removeScratch scratch k else k

theorem located_eq (k : Host) (cs : List Command) : located k ⟨cs⟩ =
    match Pipeline.pin k cs with
    | (stages, none) => .ok ⟨stages⟩
    | (_, some e) => .error e := by
  unfold located Pipeline.resolveTools
  rcases Pipeline.pin k cs with ⟨stages, _ | e⟩ <;> rfl

/-- What planning comes to, from what locating the tools of its stages comes to. -/
def Settles (pinned : List Command × Option Failure) (kind : Kind) (scratch : Path) (k : Host)
    (result : Except Failure Plan × Host) : Prop :=
  match pinned with
  | (stages, none) => ∃ plan, result = (.ok plan, k) ∧ plan.stages = stages
  | (_, some e) => result = (.error e, abandoned kind scratch k)

theorem streamPlan_settles (hkind : kind ≠ .typedSuperset) (first : Command)
    (optimizer : Option Command) :
    Settles (Pipeline.pin k (first :: optimizer.toList)) kind scratch k
      (streamPlan k first optimizer, k) := by
  unfold streamPlan
  rw [located_eq]
  rcases Pipeline.pin k (first :: optimizer.toList) with ⟨stages, _ | e⟩
  · exact ⟨_, rfl, rfl⟩
  · simp [Settles, abandoned, hkind, Except.map]

/-- The tools of two pipelines are located one after the other. -/
theorem intermediatePlan_settles (optimizer : Option Command) :
    Settles (Pipeline.pin k ([c.typescript source (scratch.join "out.js")] ++ optimizer.toList))
      .typedSuperset scratch k
      (match c.intermediatePlan k source scratch optimizer with
        | .ok plan => (.ok plan, k)
        | .error e => (.error e, removeScratch scratch k)) := by
  unfold intermediatePlan
  rw [Pipeline.pin_append]
  simp only [located_eq]
  -- the compiler is located first, then the optimizer if there is one
  rcases Pipeline.pin k [c.typescript source (scratch.join "out.js")] with ⟨first, _ | e⟩
  · cases optimizer with
    | none => exact ⟨_, rfl, rfl⟩
    | some stage =>
      simp only [Option.toList_some]
      rcases Pipeline.pin k [stage] with ⟨second, _ | e⟩
      · exact ⟨_, rfl, rfl⟩
      · rfl
  · rfl

/-- Planning comes to locating the tools of its stages, in order. -/
theorem plan_pins (c : Compiler) (source : Path) (hprep : kind.Prepared h scratch k) :
    Settles (Pipeline.pin k (c.commands k kind source (scratch.join "out.js"))) kind scratch k
      (runFrom (c.plan kind source) h) := by
  rw [commands_eq]
  cases hprep with
  | made hkind hmake =>
    -- the scratch directory is made first, since the compiler is told where to write
    subst hkind
    rw [plan_typedSuperset, runFrom_bind, hmake]
    exact intermediatePlan_settles _
  | unmade hkind hknown =>
    cases kind with
    | typedSuperset => exact absurd rfl hkind
    | unknown => exact absurd rfl hknown
    | bundle => exact ⟨_, rfl, rfl⟩
    | passthrough => exact ⟨_, rfl, rfl⟩
    | component => exact streamPlan_settles hkind _ _
    | stylesheet => exact streamPlan_settles hkind _ _
    | preprocessedScript => exact streamPlan_settles hkind _ _

/-- A plan is made after what it needs has been prepared. -/
theorem exists_prepared {plan : Plan} (hplan : runFrom (c.plan kind source) h = (.ok plan, l)) :
    ∃ scratch, kind.Prepared h scratch l := by
  by_cases htyped : kind = .typedSuperset
  · subst htyped
    rw [plan_typedSuperset, runFrom_bind_ok] at hplan
    obtain ⟨scratch, k, hmake, hrest⟩ := hplan
    rw [runFrom_ofPair] at hrest
    split at hrest
    · rw [Prod.mk.injEq] at hrest
      obtain ⟨-, rfl⟩ := hrest
      exact ⟨scratch, .made rfl hmake⟩
    · rw [Prod.mk.injEq] at hrest
      cases hrest.1
  · obtain ⟨f, hread, -⟩ := plan_reads c htyped source
    -- a fragment has no plan at all
    have hunknown : kind ≠ .unknown := by
      rintro rfl
      cases hplan
    rw [hread, runFrom_read, Prod.mk.injEq] at hplan
    obtain ⟨-, rfl⟩ := hplan
    exact ⟨⟨""⟩, .unmade htyped hunknown⟩

/-- The stages of a plan are the command lines for its roles, in order, with the executables that are
    found for their tools. -/
theorem plan_stages (hprep : kind.Prepared h scratch k) {plan : Plan}
    (hplan : runFrom (c.plan kind source) h = (.ok plan, l)) :
    l = k ∧ List.Forall₂ (Pipeline.Pins k) (c.commands k kind source (scratch.join "out.js"))
      plan.stages := by
  have hsettles := plan_pins c source hprep
  rw [hplan] at hsettles
  rcases hpin : Pipeline.pin k (c.commands k kind source (scratch.join "out.js")) with
    ⟨stages, _ | e⟩
  · rw [hpin] at hsettles
    obtain ⟨plan', hsame, rfl⟩ := hsettles
    cases hsame
    exact ⟨rfl, Pipeline.pin_ok_iff.mp hpin⟩
  · rw [hpin] at hsettles
    cases hsettles

end Compiler

end AssetServer
