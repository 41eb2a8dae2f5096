import AssetServer.Proofs.Fold
import AssetServer.Proofs.Rerun

/-!
# What an export spares

An export may end in the place of a file that was there before, also of a source. Each visit changes
the place of its output alone, and does not change it if the file is in its place already or cannot be
copied (`Visit.Done.spares`, `Visit.Fails.spares`). So a file stays as it is unless a visit writes to
its place, in an export that fails as well (`Export.tree_spares`). Sources of the same root do not do
this in a directory that is root and destination at once, but for those that compile into the file.
-/

namespace AssetServer

/-! ## §1 One visit -/

namespace Visit

variable {x : Export} {v : Visit} {k : Host} {loc : Location} {f : RegularFile} {roots : List Path}

/-- The file is compiled or copied to a place. -/
def WritesTo (x : Export) (v : Visit) (loc : Location) : Prop :=
  v.Writes x ∧ ∃ names, v.output? = some names ∧ x.location ++ names = loc

/-- Writing an output keeps the files in all other places. -/
theorem spares_of_changes {o : String} (hf : v.host.tree.get? loc = some (.file f))
    (hchanges : x.Changes (v.dir ++ [o]) v.host k) (hne : x.location ++ (v.dir ++ [o]) ≠ loc) :
    k.tree.get? loc = some (.file f) := by
  rcases hchanges.places loc with hsame | ⟨hnone, -⟩ | ⟨heq, -⟩
  · rw [hsame, hf]
  · simp [hf] at hnone
  · exact absurd heq.symm hne

/-- Exporting a file keeps the files in places that it does not write to. -/
theorem Done.spares (hd : v.Done x k) (hf : v.host.tree.get? loc = some (.file f))
    (hloc : ¬ v.WritesTo x loc) : k.tree.get? loc = some (.file f) := by
  cases hd with
  | fragment hkind => exact hf
  | inPlace hkind hplace => exact hf
  | written ho hkind hb hchanges hheld =>
    apply spares_of_changes hf hchanges
    intro heq
    exact hloc ⟨hkind, _, Export.output?_eq ho, heq⟩

/-- So does a file that cannot be exported. If it cannot be copied then no file changes at all. -/
theorem Fails.spares {e : Failure} (hfails : v.Fails x e k) (ha : x.Amid v.host)
    (hmet : v.Met x roots) (hf : v.host.tree.get? loc = some (.file f))
    (hloc : ¬ v.WritesTo x loc) : k.tree.get? loc = some (.file f) := by
  by_cases hcompiled : v.Compiled
  -- a compilation may fail when its output has been emptied
  · obtain ⟨o, ho, hchanges⟩ := hfails.changes
    apply spares_of_changes hf hchanges
    intro heq
    exact hloc ⟨.inl hcompiled, _, Export.output?_eq ho, heq⟩
  -- a copy fails before anything but directories has been made
  · obtain ⟨p, p', hhost, hrun, rfl⟩ := hfails.run
    obtain ⟨hdir, hn, hroot⟩ := hmet.isName ha
    rcases Export.file_cases ha.based.dest_ne_empty hroot hdir hn hrun with
      ⟨-, hok, -⟩ | ⟨hplain, hcopy⟩ | ⟨o, -, -, -, ho, hkind, -⟩
    · cases hok
    · cases hsame : p.host.tree.samePlace p.host.directory
        (Export.descend v.root (v.dir ++ [v.name])) (Export.descend x.dest (v.dir ++ [v.name])) with
      | true =>
        rw [Export.runFrom_copy_inPlace hsame] at hcopy
        cases hcopy
      | false =>
        rcases Export.copy_cases (hhost ▸ ha.based) hdir hn hsame hcopy with
          ⟨-, k₁, -, ⟨t, hgrown, rfl⟩, rfl⟩ | ⟨-, -, -, hok, -⟩
        · exact hgrown.partOf loc _ (hhost ▸ hf)
        · cases hok
    · exact absurd (Export.compiled_of_exportName? ho hkind) hcompiled

end Visit

/-! ## §2 A whole export -/

namespace Export

variable {x : Export} {h k k' made h' : Host} {v : Visit} {visits : List Visit} {ending : Ending}
  {loc : Location} {f : RegularFile} {roots : List Path} {dest : Path} {compiler : Compiler}

/-- A file stays as it is if no visit writes to its place. -/
theorem Chain.spares (hchain : Chain x k visits k' ending) (ha : x.Amid k)
    (hmet : ∀ v, Visited visits ending v → v.Met x roots)
    (hf : k.tree.get? loc = some (.file f))
    (hloc : ∀ v, Visited visits ending v → ¬ v.WritesTo x loc) :
    k'.tree.get? loc = some (.file f) := by
  induction hchain with
  | finished => exact hf
  | unlisted => exact hf
  | failed hfile hfails => exact hfails.spares ha (hmet _ (.inr ⟨_, rfl⟩)) hf (hloc _ (.inr ⟨_, rfl⟩))
  | visit hfile hdone hrest ih =>
    have hfirst := hdone.spares hf (hloc _ (.inl List.mem_cons_self))
    refine ih (done_amid hdone hfile ha).1 (fun v hv => hmet v ?_) hfirst fun v hv => hloc v ?_
    all_goals exact hv.imp (List.mem_cons_of_mem _) id

/-- A source in the directory that `dir` leads to from `R` is compiled into a file of this name. -/
def IsOutput (h : Host) (R : Location) (dir : List String) (n : String) : Prop :=
  ∃ m f, h.tree.get? (R ++ (dir ++ [m])) = some (.file f) ∧ Kind.ofName m ∈ Kind.compiled ∧
    Kind.exportName? m = some n

/-- A source that is foreign to the root at `R`: it comes from another place, or was made by the
    export, or the destination lies above the root. -/
def Foreign (x : Export) (h : Host) (R : Location) (v : Visit) : Prop :=
  v.base ≠ R ∨ (∀ f, h.tree.get? (v.base ++ v.names) ≠ some (.file f)) ∨
    x.location <+: R ∧ x.location ≠ R

/-- The files that an export spares: all outside of the destination, and those below a root that no
    source beside them compiles into, unless they lie in a destination inside of the root or a foreign
    source writes to their place. -/
structure Spares (x : Export) (h h' : Host) (visits : List Visit) (ending : Ending) : Prop where
  outside : ∀ loc f, h.tree.get? loc = some (.file f) → ¬ x.location <+: loc →
    h'.tree.get? loc = some (.file f)
  source : ∀ R dir n f, h.tree.get? (R ++ (dir ++ [n])) = some (.file f) → ¬ IsOutput h R dir n →
    ¬ (R <+: x.location ∧ R ≠ x.location ∧ x.location <+: R ++ (dir ++ [n])) →
    (∀ v, Visited visits ending v → Foreign x h R v → ¬ v.WritesTo x (R ++ (dir ++ [n]))) →
    h'.tree.get? (R ++ (dir ++ [n])) = some (.file f)

/-- A source of a root is in its place already, or compiles into a file beside it. -/
theorem not_writesTo_of_not_foreign {R : Location} {dir : List String} {n : String}
    (hown : ¬ IsOutput h R dir n)
    (hinside : ¬ (R <+: x.location ∧ R ≠ x.location ∧ x.location <+: R ++ (dir ++ [n])))
    (hforeign : ¬ Foreign x h R v) : ¬ v.WritesTo x (R ++ (dir ++ [n])) := by
  rintro ⟨hwrites, names, hnames, hplace⟩
  unfold Foreign at hforeign
  push Not at hforeign
  obtain ⟨hbase, ⟨g, hg⟩, habove⟩ := hforeign
  obtain ⟨o, ho⟩ := hwrites.exists_exportName?
  obtain rfl : v.dir ++ [o] = names := Option.some.inj ((output?_eq ho).symm.trans hnames)
  have hbelow : x.location <+: R ++ (dir ++ [n]) := hplace ▸ List.prefix_append _ _
  -- the destination is the root: it lies neither above the root nor inside of it
  have heq : x.location = R := by
    rcases List.prefix_or_prefix_of_prefix hbelow (List.prefix_append R _) with hpre | hpre
    · exact habove hpre
    · by_contra hne
      exact hinside ⟨hpre, fun h => hne h.symm, hbelow⟩
  rw [heq, List.append_cancel_left_eq] at hplace
  obtain ⟨hdir, hname⟩ := List.append_inj' hplace rfl
  obtain rfl : o = n := List.singleton_injective hname
  rcases hwrites with hcompiled | hcopied
  · apply hown
    refine ⟨v.name, g, ?_, hcompiled, ho⟩
    rw [← hdir, ← hbase]
    exact hg
  · exact hcopied.2 (by rw [hbase, heq])

/-- An export that can make its destination spares the files below its roots, whether it succeeds or
    fails. One that cannot make its destination spares all files. -/
theorem tree_spares {result : Except Failure Report} {progress : List Progress} (hready : h.Ready)
    (hfree : h.tree.LinkFree [])
    (hdest : ∀ D made, (makeDestination dest).runOn h = (.ok D, made) → Destined h dest D made)
    (hrun : Export.tree roots dest compiler h = (result, progress, h')) :
    (∃ e, (makeDestination dest).runOn h = (.error e, h') ∧ result = .error e ∧
      ∀ loc f, h.tree.get? loc = some (.file f) → h'.tree.get? loc = some (.file f)) ∨
    ∃ D made visits ending, (makeDestination dest).runOn h = (.ok D, made) ∧
      Tour ⟨compiler, dest, D⟩ roots made visits h' ending ∧
      result = ending.result.map (fun _ => tally ⟨compiler, dest, D⟩ visits) ∧
      Spares ⟨compiler, dest, D⟩ h h' visits ending := by
  rcases hmakes : (makeDestination dest).runOn h with ⟨e | D, made⟩
  · rw [tree_unmade roots compiler hmakes] at hrun
    cases hrun
    refine .inl ⟨e, rfl, rfl, fun loc f hf => ?_⟩
    obtain ⟨rfl, -⟩ := makeDestination_run hmakes
    exact (Tree.makeDirectories_grownOn dest hready.wellFormed hready.directory).1.partOf loc _ hf
  · have hd := hdest D made hmakes
    obtain ⟨visits, ending, htour, hresult, -⟩ := hd.tour hready hfree hrun
    have ha : Amid ⟨compiler, dest, D⟩ made := hd.amid hready hfree
    obtain ⟨t, rfl, hgrown, -⟩ := hd.grown hready
    have hkept : ∀ {loc f}, h.tree.get? loc = some (.file f) →
        (∀ v, Visited visits ending v → ¬ v.WritesTo ⟨compiler, dest, D⟩ loc) →
        h'.tree.get? loc = some (.file f) := fun hf =>
      htour.chain.spares ha (fun v => htour.met ha) (hgrown.partOf _ _ hf)
    refine .inr ⟨D, _, visits, ending, rfl, htour, hresult, ?_, ?_⟩
    · intro loc f hf houtside
      apply hkept hf
      rintro v - ⟨-, names, -, rfl⟩
      exact houtside (List.prefix_append _ _)
    · intro R dir n f hf hown hinside hforeign
      apply hkept hf
      intro v hv
      by_cases hfv : Foreign ⟨compiler, dest, D⟩ h R v
      · exact hforeign v hv hfv
      · exact not_writesTo_of_not_foreign hown hinside hfv

/-- Two roots with a file of one name; the first of them has another file too. -/
def sharedTree : Tree :=
  ⟨[(["extra"], .directory), (["extra", "f.txt"], plainFile [2]), (["site"], .directory),
    (["site", "f.txt"], plainFile [1]), (["site", "g.txt"], plainFile [3]), (["tmp"], .directory)]⟩

/-- A host with these files. -/
def sharedHost : Host :=
  .ofTree sharedTree fun _ => none

/-- What making the first root a destination leads to. -/
def sharedMade : Host :=
  ((makeDestination ⟨"site"⟩).runOn sharedHost).2

/-- An export of both roots into the first of them. -/
def sharedExport : Except Failure Report × List Progress × Host :=
  Export.tree [⟨"site"⟩, ⟨"extra"⟩] ⟨"site"⟩ default sharedHost

theorem shared_ready : sharedHost.Ready :=
  Host.ready_ofTree (by decide) (by decide +kernel) (by decide +kernel) (by decide +kernel)
    (by rintro loc run ⟨⟩)

theorem shared_makes : (makeDestination ⟨"site"⟩).runOn sharedHost = (.ok ["site"], sharedMade) :=
  Prod.ext (by decide +kernel) rfl

/-- That export spares what it does not write to. -/
theorem shared_spares : ∃ visits ending,
    Tour ⟨default, ⟨"site"⟩, ["site"]⟩ [⟨"site"⟩, ⟨"extra"⟩] sharedMade visits
        sharedExport.2.2 ending ∧
      sharedExport.1 = ending.result.map (fun _ => tally ⟨default, ⟨"site"⟩, ["site"]⟩ visits) ∧
      Spares ⟨default, ⟨"site"⟩, ["site"]⟩ sharedHost sharedExport.2.2 visits ending := by
  have hdest : ∀ D made, (makeDestination ⟨"site"⟩).runOn sharedHost = (.ok D, made) →
      Destined sharedHost ⟨"site"⟩ D made := by
    intro D made hmakes
    rw [shared_makes] at hmakes
    cases hmakes
    have htemporary : sharedHost.temporary = ["tmp"] :=
      Host.temporary_of_opens (Host.opens_ofTree _ (by decide +kernel))
    exact destined_of_names htemporary (by decide +kernel) (by decide +kernel) (by decide)
  rcases tree_spares shared_ready (Tree.linkFree_of_entries (by decide +kernel) []) hdest rfl with
    ⟨e, hmakes, -⟩ | ⟨D, made, visits, ending, hmakes, hspares⟩
  · rw [shared_makes] at hmakes
    cases hmakes
  · rw [shared_makes] at hmakes
    cases hmakes
    exact ⟨visits, ending, hspares⟩

/-- The other root overwrites the file that both have; nothing compiles into it. -/
theorem shared_overwritten : sharedHost.tree.stat [] ⟨"site"⟩ = .ok (["site"], .directory) ∧
    sharedHost.Holds [1] ["site", "f.txt"] ∧ ¬ IsOutput sharedHost ["site"] [] "f.txt" ∧
    sharedExport.1 = .ok ⟨0, 1, 2⟩ ∧ sharedExport.2.2.Holds [2] ["site", "f.txt"] ∧
    ¬ sharedExport.2.2.Holds [1] ["site", "f.txt"] := by
  have hplace : sharedExport.2.2.tree.get? ["site", "f.txt"] = some (plainFile [2]) := by
    decide +kernel
  refine ⟨by decide +kernel, ⟨_, rfl, rfl⟩, ?_, by decide +kernel, ⟨_, hplace, rfl⟩, ?_⟩
  · rintro ⟨m, f, hm, hkind, -⟩
    have hnames : sharedHost.tree.names ["site"] = ["f.txt", "g.txt"] := by decide +kernel
    have hmem : m ∈ sharedHost.tree.names ["site"] := Tree.mem_names_iff.mpr ⟨_, hm⟩
    rw [hnames] at hmem
    simp only [List.mem_cons, List.not_mem_nil, or_false] at hmem
    rcases hmem with rfl | rfl
    all_goals exact absurd hkind (by decide)
  · rintro ⟨f, hf, hbytes⟩
    rw [hplace] at hf
    cases hf
    cases hbytes

end Export

end AssetServer
