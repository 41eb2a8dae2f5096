import AssetServer.Proofs.Absolute
import AssetServer.Proofs.Bundle
import AssetServer.Proofs.Confinement
import AssetServer.Proofs.Staging

/-!
# Tools that are missing

A plan is made exactly if the tools of its stages are found, before anything is started.

- `Kind.Prepared.sound` and `Kind.Prepared.undone`: a scratch directory is made in a file system that
  stays well formed, and removing it leaves the files as they were.
- `Compiler.plan_error_iff` names the first tool that is missing.
- `Compiler.plan_complete` puts together what planning says about tools.
-/

namespace AssetServer

/-! ## §1 Scratch directories -/

namespace Kind.Prepared

variable {kind : Kind} {h k : Host} {scratch : Path}

/-- The tools are looked up in a file system that is well formed. -/
theorem sound (hprep : kind.Prepared h scratch k) (hwf : h.tree.WellFormed)
    (hcwd : h.tree.get? h.directory = some .directory) :
    k.tree.WellFormed ∧ k.tree.get? k.directory = some .directory := by
  cases hprep with
  | unmade => exact ⟨hwf, hcwd⟩
  | made hkind hmake =>
    obtain ⟨-, dir, n, slash, -, hdir, hnone, hn, rfl⟩ := makeScratch_put hwf hcwd hmake
    have hgrown := Tree.Grown.put (P := fun _ => True) hwf hdir hn hnone trivial
    exact ⟨hgrown.wellFormed, hgrown.partOf _ _ hcwd⟩

/-- Removing what planning has made leaves the files as they were. -/
theorem undone (hprep : kind.Prepared h scratch k) (hwf : h.tree.WellFormed)
    (hcwd : h.tree.get? h.directory = some .directory) (loc : Location) :
    (Compiler.abandoned kind scratch k).tree.get? loc = h.tree.get? loc := by
  cases hprep with
  | unmade hkind => simp [Compiler.abandoned, hkind]
  | made hkind hmake =>
    obtain ⟨-, dir, n, slash, hfind, hdir, hnone, hn, rfl⟩ := makeScratch_put hwf hcwd hmake
    have hgrown := Tree.Grown.put (P := fun _ => True) hwf hdir hn hnone trivial
    have hput : ∀ other, other ≠ dir ++ [n] →
        (h.tree.put (dir ++ [n]) .directory).get? other = h.tree.get? other :=
      fun other hne => Tree.get?_put_of_ne _ hne _
    -- the path of the scratch directory leads to what was made
    have hstat := Tree.stat_filled hfind hgrown.partOf
      (Tree.get?_put_self h.tree (by simp) .directory) (.inl rfl)
    have hcanonical : (h.tree.put (dir ++ [n]) .directory).canonical h.directory scratch =
        .ok (dir ++ [n]) := by
      rw [Tree.canonical, hstat]
      rfl
    unfold Compiler.abandoned removeScratch
    rw [if_pos hkind]
    simp only [hcanonical]
    rw [Tree.get?_delete (by simp)]
    split_ifs with hbelow
    · obtain ⟨rest, rfl⟩ := hbelow
      rw [hwf.absent_below hnone]
    · exact hput loc fun hsame => hbelow (hsame ▸ List.prefix_rfl)

end Kind.Prepared

/-! ## §2 Planning -/

namespace Compiler

variable {c : Compiler} {kind : Kind} {source scratch : Path} {h k l : Host}

/-- The tool for a role is found. -/
def Locates (c : Compiler) (k : Host) (role : Role) : Prop :=
  k.locate? (c.tools.get role).program ≠ none

/-- The failure that names a missing tool. -/
def missing (c : Compiler) (role : Role) : Failure :=
  .toolNotFound (c.tools.get role).name (c.tools.get role).program

/-- A plan is made if every tool of its stages is found. -/
theorem plan_ok_iff (hprep : kind.Prepared h scratch k) :
    (∃ plan, (runFrom (c.plan kind source) h).1 = .ok plan) ↔
      ∀ role ∈ c.roles kind, c.Locates k role := by
  have hsettles := plan_pins c source hprep
  -- the programs of the commands are the tools of the roles
  have hnone : (Pipeline.pin k (c.commands k kind source (scratch.join "out.js"))).2 = none ↔
      ∀ role ∈ c.roles kind, c.Locates k role := by
    rw [Pipeline.pin_none_iff, commands, List.forall_mem_map]
    simp only [command_program]
    rfl
  rw [← hnone]
  generalize Pipeline.pin k (c.commands k kind source (scratch.join "out.js")) = pinned
    at hsettles ⊢
  rcases pinned with ⟨stages, _ | e⟩
  · obtain ⟨plan, hplan, -⟩ := hsettles
    simp [hplan]
  · have hplan : runFrom (c.plan kind source) h = (.error e, abandoned kind scratch k) := hsettles
    simp [hplan]

/-- If a tool is missing, the first one in the order of the stages is reported, and no scratch
    directory is left. -/
theorem plan_error_iff (hprep : kind.Prepared h scratch k) {e : Failure} :
    runFrom (c.plan kind source) h = (.error e, l) ↔ l = abandoned kind scratch k ∧
      ∃ before role after, c.roles kind = before ++ role :: after ∧
        (∀ r ∈ before, c.Locates k r) ∧ ¬ c.Locates k role ∧ e = c.missing role := by
  have hsettles := plan_pins c source hprep
  -- the first command without a program is that of the first role without a tool
  have hfirst : (∃ stages, Pipeline.pin k (c.commands k kind source (scratch.join "out.js")) =
      (stages, some e)) ↔ ∃ before role after, c.roles kind = before ++ role :: after ∧
        (∀ r ∈ before, c.Locates k r) ∧ ¬ c.Locates k role ∧ e = c.missing role := by
    rw [Pipeline.pin_error_iff]
    constructor
    · rintro ⟨before, command, after, hroles, hbefore, hnone, rfl⟩
      unfold commands at hroles
      obtain ⟨first, rest, hsplit, rfl, hrest⟩ := List.map_eq_append_iff.mp hroles
      obtain ⟨role, last, rfl, rfl, rfl⟩ := List.map_eq_cons_iff.mp hrest
      refine ⟨first, role, last, hsplit, fun r hr => ?_, ?_, ?_⟩
      · have hfound := hbefore _ (List.mem_map_of_mem hr)
        rwa [command_program] at hfound
      · rw [command_program] at hnone
        exact not_not_intro hnone
      · rw [missing, (command_name role).1, command_program]
    · rintro ⟨before, role, after, hroles, hbefore, hnone, rfl⟩
      refine ⟨before.map (c.command k source (scratch.join "out.js")),
        c.command k source (scratch.join "out.js") role,
        after.map (c.command k source (scratch.join "out.js")), ?_, ?_, ?_, ?_⟩
      · rw [commands, hroles, List.map_append, List.map_cons]
      · rw [List.forall_mem_map]
        intro r hr
        rw [command_program]
        exact hbefore r hr
      · rw [command_program]
        exact not_not.mp hnone
      · rw [missing, (command_name role).1, command_program]
  rw [← hfirst]
  generalize Pipeline.pin k (c.commands k kind source (scratch.join "out.js")) = pinned
    at hsettles ⊢
  rcases pinned with ⟨stages, _ | e'⟩
  · obtain ⟨plan, hplan, -⟩ := hsettles
    simp [hplan]
  · have hplan : runFrom (c.plan kind source) h = (.error e', abandoned kind scratch k) := hsettles
    rw [hplan]
    simp [eq_comm, and_comm]

/-- Only the tools of the stages matter. -/
theorem plan_congr {tools : Toolchain}
    (hsame : ∀ role ∈ c.roles kind, tools.get role = c.tools.get role) :
    ({ c with tools } : Compiler).plan kind source = c.plan kind source := by
  have hstage : ({ c with tools } : Compiler).optimizerStage? kind = c.optimizerStage? kind := by
    by_cases hopt : c.Optimizing kind
    · have htool : tools.optimizer = c.tools.optimizer := hsame .optimizer (by simp [roles, hopt])
      rw [optimizerStage?_of hopt, optimizerStage?_of (c := { c with tools }) hopt]
      simp only [optimizer, htool]
    · rw [optimizerStage?_of_not hopt, optimizerStage?_of_not (c := { c with tools }) hopt]
  have hfirst : ∀ role ∈ kind.frontRole?, tools.get role = c.tools.get role := by
    intro role hrole
    exact hsame role (by simp [roles, Option.mem_def.mp hrole])
  -- each front end reads its own tool
  cases kind with
  | component =>
    have htool : tools.component = c.tools.component := hfirst .component rfl
    rw [plan_component, plan_component, hstage]
    simp only [component, htool]
  | typedSuperset =>
    have htool : tools.typescript = c.tools.typescript := hfirst .typescript rfl
    rw [plan_typedSuperset, plan_typedSuperset, hstage]
    simp only [intermediatePlan, typescript, htool]
  | stylesheet =>
    have htool : tools.stylesheet = c.tools.stylesheet := hfirst .stylesheet rfl
    rw [plan_stylesheet, plan_stylesheet, hstage]
    simp only [stylesheet, htool]
  | preprocessedScript =>
    have htool : tools.preprocessor = c.tools.preprocessor := hfirst .preprocessor rfl
    rw [plan_preprocessedScript, plan_preprocessedScript, hstage]
    simp only [preprocessor, htool]
  | bundle => rfl
  | passthrough => rfl
  | unknown => rfl

/-- The stages of a plan run the executables that are found for the tools of their roles. -/
theorem plan_executables (hwf : h.tree.WellFormed)
    (hcwd : h.tree.get? h.directory = some .directory) (hprep : kind.Prepared h scratch k)
    {plan : Plan} (hplan : runFrom (c.plan kind source) h = (.ok plan, l)) :
    List.Forall₂ (fun role (stage : Command) => stage.name = (c.tools.get role).name ∧
      k.locate? (c.tools.get role).program = some stage.program ∧
      k.tree.Executable stage.program) (c.roles kind) plan.stages := by
  obtain ⟨hwf', hcwd'⟩ := hprep.sound hwf hcwd
  obtain ⟨-, hstages⟩ := plan_stages hprep hplan
  rw [commands, List.forall₂_map_left_iff] at hstages
  refine hstages.imp ?_
  rintro role _ ⟨path, hpath, rfl⟩
  rw [command_program] at hpath
  exact ⟨(command_name role).2 path, hpath, Host.locate?_executable hwf' hcwd' hpath⟩

/-- A source whose tools are not all found has started nothing and written nothing. -/
theorem compile_missing (hkind : kind ≠ .bundle) {o o' : Outlet} {tool : String} {path : Path}
    (hrun : runFrom (c.compile kind source) o = (.error (.toolNotFound tool path), o')) :
    o'.host.journal = o.host.journal ∧ o'.sink = o.sink := by
  unfold compile at hrun
  rw [if_neg hkind] at hrun
  obtain ⟨events, hhalted, hsink, hjournal⟩ := compileSource_halts hrun rfl
  cases hhalted
  exact ⟨by rw [hjournal, List.append_nil], hsink⟩

/-- Planning is complete about tools and starts nothing. Given that a scratch directory can be made
    where one is needed:

    A plan is made exactly if the tools of its stages are all found. Else the first one that is
    missing, in the order of the stages, is reported by its name and the path it was given by, and
    the files are as before. Tools of other roles do not matter, and no process is started. The
    stages of a plan are named by the tools of their roles and run, by absolute paths, the
    executables that are found for them. So a source that is compiled on its own lacks a tool only
    before anything has been started or written. -/
theorem plan_complete (hwf : h.tree.WellFormed) (hcwd : h.tree.get? h.directory = some .directory)
    (hprep : kind.Prepared h scratch k) :
    ((∃ plan, (runFrom (c.plan kind source) h).1 = .ok plan) ↔
      ∀ role ∈ c.roles kind, c.Locates k role) ∧
    (∀ before role after, c.roles kind = before ++ role :: after →
      (∀ r ∈ before, c.Locates k r) → ¬ c.Locates k role →
      ∃ l, runFrom (c.plan kind source) h = (.error (.toolNotFound (c.tools.get role).name
        (c.tools.get role).program), l) ∧ ∀ loc, l.tree.get? loc = h.tree.get? loc) ∧
    (∀ tools : Toolchain, (∀ role ∈ c.roles kind, tools.get role = c.tools.get role) →
      runFrom (({ c with tools } : Compiler).plan kind source) h =
        runFrom (c.plan kind source) h) ∧
    (runFrom (c.plan kind source) h).2.journal = h.journal ∧
    (∀ plan l, runFrom (c.plan kind source) h = (.ok plan, l) → l = k ∧
      List.Forall₂ (fun role (stage : Command) => stage.name = (c.tools.get role).name ∧
        k.locate? (c.tools.get role).program = some stage.program ∧
        k.tree.Executable stage.program) (c.roles kind) plan.stages) ∧
    (kind ≠ .bundle → ∀ (s : Sink) (o : Outlet) (tool : String) (path : Path),
      runFrom (c.compile kind source) ⟨h, s⟩ = (.error (.toolNotFound tool path), o) →
      o.host.journal = h.journal ∧ o.sink = s) := by
  refine ⟨plan_ok_iff hprep, ?_, ?_, (c.plan_result kind source h).2, ?_, ?_⟩
  · intro before role after hroles hbefore hmissing
    exact ⟨_, (plan_error_iff hprep).mpr ⟨rfl, before, role, after, hroles, hbefore, hmissing, rfl⟩,
      hprep.undone hwf hcwd⟩
  · intro tools hsame
    rw [plan_congr hsame]
  · intro plan l hplan
    exact ⟨(plan_stages hprep hplan).1, plan_executables hwf hcwd hprep hplan⟩
  · intro hkind s o tool path hrun
    exact compile_missing hkind hrun

/-- A host whose search path leads up from its working directory. -/
def searchingHost : Host :=
  { Host.ofTree bundleTree (installed .echoing) with
    directory := ["site"], environment := [("PATH", "../bin")] }

/-- Tools that are searched for, with an optimizer that is not there. -/
def searchedTools : Toolchain :=
  { Toolchain.ofRoles fun role => ⟨role.label, ⟨"tool"⟩, []⟩ with
    optimizer := ⟨"optimizer", ⟨"shrink"⟩, []⟩ }

theorem plan_searched :
    (∃ l, runFrom ((⟨searchedTools, { (default : Settings) with level := .advanced }⟩ :
        Compiler).plan .typedSuperset ⟨"a.main.ts"⟩) searchingHost =
      (.error (.toolNotFound "optimizer" ⟨"shrink"⟩), l) ∧
        ∀ loc, l.tree.get? loc = searchingHost.tree.get? loc) ∧
    ∃ plan, (runFrom ((⟨searchedTools, { (default : Settings) with level := .none }⟩ :
        Compiler).plan .typedSuperset ⟨"a.main.ts"⟩) searchingHost).1 = .ok plan := by
  have hwf : searchingHost.tree.WellFormed :=
    Tree.wellFormed_of_entries (by decide +kernel) (by decide +kernel)
  have hcwd : searchingHost.tree.get? searchingHost.directory = some .directory := by
    decide +kernel
  have hprep : Kind.typedSuperset.Prepared searchingHost ⟨"/tmp/kiln-tsc000000"⟩
      (runFrom makeScratch searchingHost).2 := .made rfl (Prod.ext (by decide +kernel) rfl)
  have hfound : (runFrom makeScratch searchingHost).2.locate? ⟨"tool"⟩ ≠ none := by decide +kernel
  have hlost : (runFrom makeScratch searchingHost).2.locate? ⟨"shrink"⟩ = none := by decide +kernel
  refine ⟨(plan_complete hwf hcwd hprep).2.1 [.typescript] .optimizer [] (by decide) ?_ ?_, ?_⟩
  · intro role hrole
    rw [List.mem_singleton.mp hrole]
    exact hfound
  · exact not_not_intro hlost
  · refine (plan_complete hwf hcwd hprep).1.mpr fun role hrole => ?_
    have hroles : (⟨searchedTools, { (default : Settings) with level := .none }⟩ :
        Compiler).roles .typedSuperset = [.typescript] := by decide
    rw [hroles, List.mem_singleton] at hrole
    rw [hrole]
    exact hfound

end Compiler

end AssetServer
