import Mathlib.Data.Finset.Max
import AssetServer.Proofs.Serving
import AssetServer.Proofs.Steady

/-!
# An export beside the server

An export that succeeds (`Export.Succeeds`) sees what the server sees, apart from its own destination
and scratch directories (`Export.Hidden`). What it compiles the server compiles as well, to the same
bytes (`Export.Succeeds.gives`), and the place of an output holds what its last source is rendered
as (`Export.Succeeds.place`).
-/

namespace AssetServer

/-! ## §1 What is found stays found -/

namespace Host

variable {h k : Host} {G : Location → Prop}

/-- Nothing lies at the hidden places. -/
def Vacates (h : Host) (G : Location → Prop) : Prop :=
  ∀ loc, G loc → h.tree.get? loc = none

theorem Vacates.partOf (hG : h.Vacates G) (hk : h.Beside G k) : h.tree.PartOf k.tree := by
  intro loc e he
  rw [hk.tree loc, he]
  intro hloc
  rw [hG loc hloc] at he
  cases he

/-- What is found does not depend on places where nothing lies. -/
theorem Vacates.reads (hG : h.Vacates G) {p : Path} {found : Location × Entry}
    (hstat : h.tree.stat h.directory p = .ok found) : h.Reads G p := by
  intro k hk _
  have hstat' := Tree.stat_of_partOf hstat (hG.partOf hk)
  simp only [Tree.openFile, hk.directory, hstat, hstat']

theorem Vacates.execute (hG : h.Vacates G) (hk : h.Beside G k) {cwd : Location} {depth : Nat}
    {p : Path} {arguments : List String} {found : Program × List String}
    (hfound : h.execute cwd depth p arguments = .ok found) :
    k.execute cwd depth p arguments = .ok found := by
  -- the file that is started may name the program that it is for, which is looked for in turn
  induction depth generalizing p arguments with
  | zero => cases hfound
  | succ depth ih =>
    unfold Host.execute at hfound ⊢
    cases hstat : h.tree.stat cwd p with
    | error e =>
      simp only [hstat] at hfound
      cases hfound
    | ok place =>
      rw [Tree.stat_of_partOf hstat (hG.partOf hk)]
      simp only [hstat, hk.programs] at hfound ⊢
      obtain ⟨loc, e⟩ := place
      cases e with
      | directory => cases hfound
      | link target => cases hfound
      | file f =>
        simp only at hfound ⊢
        split at hfound
        · cases hfound
        · rename_i hmay
          rw [if_neg hmay]
          split at hfound
          · exact hfound
          · exact ih hfound
          · cases hfound

theorem Vacates.commandDirectory (hG : h.Vacates G) (hk : h.Beside G k) {c : Command}
    {cwd : Location} (hcwd : h.commandDirectory c = .ok cwd) : k.commandDirectory c = .ok cwd := by
  unfold Host.commandDirectory at hcwd ⊢
  rw [hk.directory]
  cases hdir : c.directory with
  | none => simpa only [hdir] using hcwd
  | some dir =>
    simp only [hdir] at hcwd ⊢
    split at hcwd
    · rename_i hstat
      rw [Tree.stat_of_partOf hstat (hG.partOf hk)]
      exact hcwd
    · cases hcwd
    · cases hcwd

/-- A program that is named by its path is found on hosts that differ at vacant places only. -/
theorem Vacates.launch (hG : h.Vacates G) (hk : h.Beside G k) {c : Command} {l : Launch}
    (hslash : c.program.text.toList.contains '/' = true) (hlaunch : h.launch c = .ok l) :
    k.launch c = .ok l := by
  have hne : c.program.text ≠ "" := by
    intro hempty
    rw [hempty] at hslash
    cases hslash
  obtain ⟨hnul, cwd, found, hcwd, hfound, rfl⟩ := Host.launch_ok_iff.mp hlaunch
  refine Host.launch_ok_iff.mpr ⟨hnul, cwd, found, hG.commandDirectory hk hcwd, ?_, ?_⟩
  · unfold Host.commandProgram at hfound ⊢
    rw [if_neg hne, if_pos hslash] at hfound ⊢
    exact hG.execute hk hfound
  · rw [hk.environment]

/-- A command whose program is named by its path and found there is steady if what it shows is. -/
theorem Vacates.steady (hG : h.Vacates G) {c : Command} {path : Path} {l : Launch}
    (hcomponents : 1 < c.program.components.length) (hlocate : h.locate? c.program = some path)
    (hslash : path.text.toList.contains '/' = true) (hlaunch : h.launch (c.withProgram path) = .ok l)
    (hshown : ∀ input broken, h.Fixes G fun k => (l.run h.now input broken k.tree).shown) :
    c.Steady h G := by
  refine ⟨fun k hk _ => ?_, fun path' hpath' => ?_⟩
  · have hexecutable : h.tree.isExecutable h.directory c.program = true := by
      unfold Host.locate? at hlocate
      simp only [hcomponents, if_true] at hlocate
      split at hlocate
      · assumption
      · cases hlocate
    have hexecutable' : k.tree.isExecutable h.directory c.program = true := by
      obtain ⟨loc, f, hstat, hf⟩ := Tree.isExecutable_iff.mp hexecutable
      exact Tree.isExecutable_iff.mpr ⟨loc, f, Tree.stat_of_partOf hstat (hG.partOf hk), hf⟩
    unfold Host.locate? Host.absolute? Host.workingPath
    simp only [hcomponents, hexecutable, hexecutable', if_true, hk.directory]
  · rw [hlocate, Option.some.injEq] at hpath'
    subst hpath'
    refine ⟨fun k hk _ => ?_, fun l' hl' => ?_⟩
    · exact (hG.launch hk hslash hlaunch).trans hlaunch.symm
    · rw [hlaunch, Except.ok.injEq] at hl'
      subst hl'
      exact hshown

end Host
namespace Export

/-- The places that an export may change: the destination, directories above it that were made for
    it, and scratch directories. -/
def Hidden (h made : Host) (D loc : Location) : Prop :=
  D <+: loc ∨ made.tree.get? loc ≠ h.tree.get? loc ∨
    ∃ n rest, loc = h.temporary ++ Host.scratchName n :: rest

/-- An export of roots without links, into a destination that is absent and in none of them, that
    succeeds. -/
structure Succeeds (roots : List Path) (settings : Settings) (tools : Toolchain) (dest : Path)
    (h : Host) (D : Location) (made : Host) (after : Content) (h' : Host) : Prop where
  ready : h.Ready
  absent : Absent h dest D made
  sources : ∀ r ∈ roots, SourceRoot h D r
  exported : ∃ report progress,
    (Content.ofRoots roots settings tools).exportTo dest h = (.ok report, progress, after, h')

variable {roots : List Path} {settings : Settings} {tools : Toolchain} {dest root : Path}
  {h made h' : Host} {D : Location} {after : Content} {dir : List String} {o n : String}

/-! ## §2 Hosts -/

theorem hidden_scratch : HidesScratch h (Hidden h made D) :=
  fun n rest => .inr (.inr ⟨n, rest, rfl⟩)

/-- Nothing lies at hidden places before an export. -/
theorem hidden_vacates (hready : h.Ready) (hd : Absent h dest D made) :
    h.Vacates (Hidden h made D) := by
  obtain ⟨-, hgrown, -⟩ := hd.grown hready
  rintro loc (⟨rest, rfl⟩ | hchanged | ⟨n, rest, rfl⟩)
  · exact hready.wellFormed.absent_below hd.absent rest
  · rcases hgrown.same loc with hsame | ⟨-, hnone, -⟩
    · exact absurd hsame hchanged
    · exact hnone
  · rw [List.append_cons]
    exact hready.wellFormed.absent_below (hready.noScratch n) rest

/-- In the course of an export, a host differs from what it was before at hidden places only. -/
theorem Under.matches {x : Export} {k : Host} (hu : x.Under made k) (hready : h.Ready)
    (hd : Absent h dest D made) (hx : x.location = D) : h.Matches (Hidden h made D) k := by
  obtain ⟨hmade, hgrown, -⟩ := hd.grown hready
  -- making the destination and exporting to it change hidden places only
  have hbeside : h.Beside (Hidden h made D) made := by
    rw [hmade]
    refine .withTree fun loc hloc => ?_
    by_contra hne
    exact hloc (.inr (.inl hne))
  have hboth : h.Beside (Hidden h made D) k := by
    refine hbeside.trans (hu.beside.mono fun loc hloc => ?_)
    rw [hx] at hloc
    exact .inl hloc
  refine ⟨hu.ready, hboth, ?_⟩
  exact (Host.temporary_of_partOf hready (hgrown.partOf.trans hu.partOf) hboth.directory
    hboth.environment).1

/-- What an export rendered a source as, the server gives for it as well. -/
theorem Rendered.gives {b : Bytes} {source : Path} {compiler : Compiler} (hready : h.Ready)
    (hd : Absent h dest D made) (hfile : h.tree.isFile h.directory source = true)
    (hsteady : Kind.ofPath source ≠ .passthrough →
      compiler.Steady h (Hidden h made D) (Kind.ofPath source) source)
    (hrendered : Rendered ⟨compiler, dest, D⟩ made source b) :
    compiler.Gives h (Kind.ofPath source) source b := by
  obtain ⟨hmade, hgrown, -⟩ := hd.grown hready
  unfold Rendered at hrendered
  unfold Compiler.Gives
  split at hrendered
  · rename_i hplain
    rw [if_pos hplain]
    have hdirectory : made.directory = h.directory := by rw [hmade]
    obtain ⟨loc, f, hstat⟩ := Tree.isFile_iff.mp hfile
    have hstat' := Tree.stat_of_partOf hstat hgrown.partOf
    rw [hdirectory, Tree.bytesAt_of_stat hstat'] at hrendered
    rw [Tree.bytesAt_of_stat hstat]
    exact hrendered
  · rename_i hcompiled
    rw [if_neg hcompiled]
    -- what a compilation amid the export gives, it gives on the host before
    obtain ⟨k, n, o, hu, hrun, hheld⟩ := hrendered
    have hcount : made.scratches = h.scratches := by rw [hmade]
    have htwin : Twin h (Hidden h made D) h k :=
      ⟨⟨hready, .refl h, rfl⟩, hu.matches hready hd rfl, hcount ▸ hu.scratches⟩
    obtain ⟨k₁, hdone, -⟩ :=
      (Compiler.compile_follows hready hidden_scratch (hsteady hcompiled)).twin htwin hrun
    exact ⟨n, ⟨k₁, o.sink⟩, hdone, hheld⟩

/-! ## §3 The last source -/

theorem exists_last {α : Type} {p : α → Prop} {l : List α} (h : ∃ a ∈ l, p a) :
    ∃ before a after, l = before ++ a :: after ∧ p a ∧ ∀ b ∈ after, ¬ p b := by
  induction l with
  | nil =>
    obtain ⟨a, ha, -⟩ := h
    cases ha
  | cons a rest ih =>
    by_cases hrest : ∃ b ∈ rest, p b
    · obtain ⟨before, b, after, rfl, hb, hlast⟩ := ih hrest
      exact ⟨a :: before, b, after, rfl, hb, hlast⟩
    · obtain ⟨b, hb, hpb⟩ := h
      rcases List.mem_cons.mp hb with rfl | hb
      · exact ⟨[], b, rest, rfl, hpb, fun c hc hpc => hrest ⟨c, hc, hpc⟩⟩
      · exact absurd ⟨b, hb, hpb⟩ hrest

/-- Sources of one output have different endings, so one of them has the greatest name. -/
theorem Produces.exists_greatest (hp : Produces h root dir o n) :
    ∃ m, Produces h root dir o m ∧ ∀ m', Produces h root dir o m' → m' ≤ m := by
  classical
  -- the output leaves only these names
  let endings : List String := Kind.compiled.filterMap Kind.suffix?
  let stems : List String := [".js", ".css"].filterMap (Kind.stem? o)
  let all : Finset String := (o :: stems.flatMap fun s => endings.map (s ++ ·)).toFinset
  have hall : ∀ m, Produces h root dir o m → m ∈ all := by
    intro m hm
    rcases Kind.exportName?_iff.mp hm.exported with ⟨-, rfl⟩ | ⟨k, suffix, out, s, hs, ho, rfl, rfl⟩
    · simp [all]
    · have hstem : s ∈ stems := by
        refine List.mem_filterMap.mpr ⟨out.extension, ?_, Kind.stem?_iff.mpr rfl⟩
        cases out <;> simp [Output.extension]
      have hending : suffix ∈ endings := by
        refine List.mem_filterMap.mpr ⟨k, ?_, hs⟩
        cases k <;> simp [Kind.compiled] <;> cases hs
      simp only [all, List.mem_toFinset, List.mem_cons, List.mem_flatMap, List.mem_map]
      exact .inr ⟨s, hstem, suffix, hending, rfl⟩
  obtain ⟨m, hm, hgreatest⟩ := (all.filter fun m => Produces h root dir o m).exists_max_image id
    ⟨n, Finset.mem_filter.mpr ⟨hall n hp, hp⟩⟩
  exact ⟨m, (Finset.mem_filter.mp hm).2, fun m' hm' =>
    hgreatest m' (Finset.mem_filter.mpr ⟨hall m' hm', hm'⟩)⟩

/-- The source that a place is exported from last: the greatest in the last root that has one. -/
structure LastSource (h : Host) (roots : List Path) (dir : List String) (o : String) (root : Path)
    (n : String) : Prop where
  produces : Produces h root dir o n
  greatest : ∀ m, Produces h root dir o m → m ≤ n
  last : ∃ before after, roots = before ++ root :: after ∧
    ∀ r ∈ after, ∀ m, ¬ Produces h r dir o m

theorem LastSource.mem (hlast : LastSource h roots dir o root n) : root ∈ roots := by
  obtain ⟨before, after, rfl, -⟩ := hlast.last
  simp

theorem Produces.exists_lastSource (hp : Produces h root dir o n) (hroot : root ∈ roots) :
    ∃ r m, LastSource h roots dir o r m := by
  obtain ⟨before, r, after, hroots, ⟨m, hm⟩, hlater⟩ :=
    exists_last (p := fun r => ∃ m, Produces h r dir o m) ⟨root, hroot, n, hp⟩
  obtain ⟨m', hm', hgreatest⟩ := hm.exists_greatest
  exact ⟨r, m', hm', hgreatest, before, after, hroots, fun r' hr' m'' hm'' => hlater r' hr' ⟨m'', hm''⟩⟩

/-- Compiling a source does not depend on what the export changes. -/
def SteadySource (h made : Host) (D : Location) (compiler : Compiler) (source : Path) : Prop :=
  Kind.ofPath source ≠ .passthrough →
    compiler.Steady h (Hidden h made D) (Kind.ofPath source) source

namespace Succeeds

theorem tree (hx : Succeeds roots settings tools dest h D made after h') :
    ∃ report progress, Export.tree roots dest ⟨tools, settings⟩ h = (.ok report, progress, h') ∧
      after = (Content.ofRoots roots settings tools).addExport h' dest := by
  obtain ⟨report, progress, hexport⟩ := hx.exported
  -- a content that has exported nothing yet has all its roots for sources
  have hsources : (Content.ofRoots roots settings tools).sources = roots := by
    unfold Content.sources Content.ofRoots
    simp
  unfold Content.exportTo at hexport
  rw [hsources] at hexport
  rcases hrun : Export.tree roots dest (Content.ofRoots roots settings tools).compiler h with
    ⟨result, told, last⟩
  rw [hrun] at hexport
  cases result with
  | error e => cases hexport
  | ok found =>
    simp only [Prod.mk.injEq] at hexport
    obtain ⟨-, -, rfl, rfl⟩ := hexport
    exact ⟨found, told, hrun, rfl⟩

theorem kind (hx : Succeeds roots settings tools dest h D made after h') (hroot : root ∈ roots)
    (hp : Produces h root dir o n) : Kind.ofPath (descend root (dir ++ [n])) = Kind.ofName n := by
  obtain ⟨R, hstat, -⟩ := hx.sources root hroot
  exact ofPath_descend (Tree.ne_empty_of_stat hstat)
    (fun m hm => hp.isName m (List.mem_append_left _ hm)) (hp.isName n (by simp))

/-- The place of an output holds what its last source is rendered as. -/
theorem place (hx : Succeeds roots settings tools dest h D made after h')
    (hlast : LastSource h roots dir o root n) : Under ⟨⟨tools, settings⟩, dest, D⟩ made h' ∧
      ∃ b, Rendered ⟨⟨tools, settings⟩, dest, D⟩ made (descend root (dir ++ [n])) b ∧
        h'.Holds b (D ++ (dir ++ [o])) := by
  obtain ⟨before, later, rfl, hlater⟩ := hlast.last
  obtain ⟨report, progress, hrun, -⟩ := hx.tree
  exact tree_ok hx.ready hx.absent hx.sources hrun hlast.produces hlast.greatest hlater

theorem under (hx : Succeeds roots settings tools dest h D made after h') (hroot : root ∈ roots)
    (hp : Produces h root dir o n) : Under ⟨⟨tools, settings⟩, dest, D⟩ made h' := by
  obtain ⟨r, m, hlast⟩ := hp.exists_lastSource hroot
  exact (hx.place hlast).1

/-- The server gives something for every source that was exported. -/
theorem gives (hx : Succeeds roots settings tools dest h D made after h') (hroot : root ∈ roots)
    (hp : Produces h root dir o n)
    (hsteady : SteadySource h made D ⟨tools, settings⟩ (descend root (dir ++ [n]))) :
    ∃ b, Compiler.Gives ⟨tools, settings⟩ h (Kind.ofName n) (descend root (dir ++ [n])) b := by
  obtain ⟨report, progress, hrun, -⟩ := hx.tree
  obtain ⟨b, hrendered⟩ := tree_renders hx.ready hx.absent hx.sources hrun hroot hp
  rw [← hx.kind hroot hp]
  exact ⟨b, hrendered.gives hx.ready hx.absent hp.isFile hsteady⟩

/-- The place of an output holds what the server gives for its last source. -/
theorem holds_iff (hx : Succeeds roots settings tools dest h D made after h')
    (hlast : LastSource h roots dir o root n)
    (hsteady : SteadySource h made D ⟨tools, settings⟩ (descend root (dir ++ [n]))) {b : Bytes} :
    h'.Holds b (D ++ (dir ++ [o])) ↔
      Compiler.Gives ⟨tools, settings⟩ h (Kind.ofName n) (descend root (dir ++ [n])) b := by
  obtain ⟨-, b', hrendered, hholds⟩ := hx.place hlast
  have hgives := hrendered.gives hx.ready hx.absent hlast.produces.isFile hsteady
  rw [hx.kind hlast.mem hlast.produces] at hgives
  constructor
  · rintro ⟨f, hf, rfl⟩
    obtain ⟨f', hf', rfl⟩ := hholds
    rw [hf] at hf'
    cases hf'
    exact hgives
  · intro hb
    rw [hb.unique hgives]
    exact hholds

/-- No root has a directory with an index at the place of an output. -/
theorem index_absent (hx : Succeeds roots settings tools dest h D made after h') (hroot : root ∈ roots)
    (hp : Produces h root dir o n) {r : Path} (hr : r ∈ roots) :
    h.tree.isFile h.directory (descend r (dir ++ [o] ++ ["index.html"])) = false := by
  rw [← Bool.not_eq_true]
  intro hindex
  obtain ⟨r₁, m₁, hlast⟩ := hp.exists_lastSource hroot
  obtain ⟨hu, b, -, f, hf, -⟩ := hx.place hlast
  have hnames : ∀ m ∈ (dir ++ [o]) ++ ["index.html"], IsName m := by
    intro m hm
    rcases List.mem_append.mp hm with hm | hm
    · rcases List.mem_append.mp hm with hm | hm
      · exact hp.isName m (List.mem_append_left _ hm)
      · rw [List.mem_singleton.mp hm]
        exact Kind.exportName?_isName (hp.isName n (by simp)) hp.exported
    · rw [List.mem_singleton.mp hm]
      exact ⟨by decide, by decide, by decide, by decide, by decide, by decide⟩
  have hexported : Kind.exportName? "index.html" = some "index.html" := by decide
  -- the place of the output is a file, so an index below it would have a file for its parent
  have hbelow : Produces h r (dir ++ [o]) "index.html" "index.html" := ⟨hnames, hindex, hexported⟩
  obtain ⟨r₂, m₂, hlast'⟩ := hbelow.exists_lastSource hr
  obtain ⟨-, b', -, f', hf', -⟩ := hx.place hlast'
  have hbelow : h'.tree.get? ((D ++ (dir ++ [o])) ++ ["index.html"]) = some (.file f') := by
    rw [List.append_assoc]
    exact hf'
  have hdirectory := hu.ready.wellFormed.parents hbelow (by simp)
  rw [hf] at hdirectory
  cases hdirectory

/-! ## §4 After an export -/

theorem destination (hx : Succeeds roots settings tools dest h D made after h')
    (hu : Under ⟨⟨tools, settings⟩, dest, D⟩ made h') : after.roots = dest :: roots := by
  obtain ⟨-, -, -, rfl⟩ := hx.tree
  have hb : Begins ⟨⟨tools, settings⟩, dest, D⟩ made := hx.absent.begins hx.ready
  -- no root is the destination, which is therefore put in front of them
  have hapart : ∀ r ∈ roots, h'.tree.samePlace h'.directory r dest = false := by
    intro r hr
    obtain ⟨R, ha, -⟩ := (hx.sources r hr).apart hx.absent hx.ready ⟨tools, settings⟩
    unfold Tree.samePlace
    rw [Tree.canonical_of_stat (ha.stat_under hu), Tree.canonical_of_stat (hu.dest hb)]
    show (R == D) = false
    rw [beq_eq_false_iff_ne]
    rintro rfl
    exact ha.outside [] ⟨[], by simp⟩
  unfold Content.addExport Content.ofRoots
  rw [if_neg]
  rw [List.any_eq_true]
  rintro ⟨r, hr, hsame⟩
  rw [hapart r hr] at hsame
  cases hsame

/-- After an export, what lies below the destination is served as it is. -/
theorem serves_after (hx : Succeeds roots settings tools dest h D made after h')
    (hu : Under ⟨⟨tools, settings⟩, dest, D⟩ made h') {names : List String} {b : Bytes}
    {r : ContentRequest} (hne : names ≠ []) (hnames : ∀ m ∈ names, IsName m)
    (hfits : Tree.Fits (descend dest names)) (hholds : h'.Holds b (D ++ names))
    (hasks : r.Asks ("/".intercalate names)) : after.Serves r h' b := by
  have hb : Begins ⟨⟨tools, settings⟩, dest, D⟩ made := hx.absent.begins hx.ready
  obtain ⟨f, hf, rfl⟩ := hholds
  have hstat : h'.tree.stat h'.directory (descend dest names) = .ok (D ++ names, .file f) :=
    (Tree.stat_names_iff (hu.dest hb) (.refl h'.tree) hu.ready.wellFormed (hu.location hb)
      hu.linkFree hnames).mpr ⟨hfits, rfl, hf⟩
  refine Content.serves_file (p := descend dest names) hasks ?_ ?_
  · rw [hx.destination hu]
    show Resolve.find? h' ([] ++ dest :: roots) _ = _
    exact Resolve.find?_first (by simp)
      (Resolve.hit?_file hne (fun m hm => .of_name (hnames m hm))
        (Tree.isFile_iff.mpr ⟨_, f, hstat⟩))
  · exact Tree.bytesAt_of_stat hstat

end Succeeds

end Export

/-! ## §5 Small hosts -/

/-- A file with some bytes. -/
def plainFile (b : Bytes) : Entry :=
  .file ⟨b, RegularFile.defaultMode, ⟨0, 0⟩⟩

/-- A program that anyone may run. -/
def executableFile : Entry :=
  .file ⟨[], 0o755, ⟨0, 0⟩⟩

/-- A program that writes some bytes, whatever it is given. -/
def Program.printing (b : Bytes) : Program := fun _ t =>
  ⟨b, .exited 0, 0, t⟩

/-- A program that writes its last argument. -/
def Program.echoing : Program := fun call t =>
  ⟨Utf8.encode (call.arguments.getLast?.getD ""), .exited 0, 0, t⟩

/-- A program that neither looks at files nor changes them. -/
structure Program.Blind (run : Program) : Prop where
  tree : ∀ call t, (run call t).tree = t
  shown : ∀ call t t', (run call t).shown = (run call t').shown

theorem Program.printing_blind (b : Bytes) : (printing b).Blind :=
  ⟨fun _ _ => rfl, fun _ _ _ => rfl⟩

theorem Program.echoing_blind : echoing.Blind :=
  ⟨fun _ _ => rfl, fun _ _ _ => rfl⟩

theorem Program.Blind.confined {run : Program} (hblind : run.Blind) (T : Location) :
    run.Confined T := by
  intro call t hwf
  rw [hblind.tree]
  exact ⟨hwf, fun _ _ => rfl⟩

namespace Host

/-- A host with some files and programs, with a server that runs in the root directory. -/
def ofTree (t : Tree) (programs : Location → Option Program) : Host where
  tree := t
  directory := []
  environment := []
  accountHome := none
  programs := programs
  now := ⟨0, 0⟩
  scratches := 0
  journal := []

variable {t t' : Tree} {programs : Location → Option Program}

theorem opens_ofTree (programs : Location → Option Program)
    (htmp : t.stat [] ⟨"/tmp"⟩ = .ok (["tmp"], .directory)) :
    (ofTree t programs).tree.Opens (ofTree t programs).directory
      (ofTree t programs).temporaryPath ["tmp"] := by
  show t.Opens [] ⟨"/tmp"⟩ ["tmp"]
  unfold Tree.Opens
  rw [if_neg (by decide)]
  exact htmp

theorem noScratch_of_names {T : Location} (hnames : t.names T = []) : t.NoScratch T := by
  intro k
  by_contra hthere
  obtain ⟨e, he⟩ := Option.ne_none_iff_exists'.mp hthere
  have hmem : Host.scratchName k ∈ t.names T := Tree.mem_names_iff.mpr ⟨e, he⟩
  rw [hnames] at hmem
  cases hmem

theorem ready_of_wellFormed (hwf : t.WellFormed)
    (htmp : t.stat [] ⟨"/tmp"⟩ = .ok (["tmp"], .directory)) (hnames : t.names ["tmp"] = [])
    (hprograms : ∀ loc run, programs loc = some run → run.Confined ["tmp"]) :
    (ofTree t programs).Ready := by
  have htemporary := temporary_of_opens (opens_ofTree programs htmp)
  refine ⟨hwf, Tree.get?_nil t, ?_, ?_, ?_⟩
  · rw [htemporary]
    exact opens_ofTree programs htmp
  · rw [htemporary]
    exact hprograms
  · rw [htemporary]
    exact noScratch_of_names hnames

theorem ready_ofTree (hnodup : (t.entries.map Prod.fst).Nodup)
    (hentries : t.entries.all t.isPlainEntry = true)
    (htmp : t.stat [] ⟨"/tmp"⟩ = .ok (["tmp"], .directory)) (hnames : t.names ["tmp"] = [])
    (hprograms : ∀ loc run, programs loc = some run → run.Confined ["tmp"]) :
    (ofTree t programs).Ready :=
  ready_of_wellFormed (Tree.wellFormed_of_entries hnodup hentries) htmp hnames hprograms

end Host

/-- A toolchain in which one program plays each role. -/
def oneTool : Toolchain :=
  .ofRoles fun role => ⟨role.label, ⟨"/bin/tool"⟩, []⟩

/-- A program that is installed at `/bin/tool`. -/
def installed (run : Program) (loc : Location) : Option Program :=
  if loc = ["bin", "tool"] then some run else none

theorem installed_eq {run run' : Program} {loc : Location} (h : installed run loc = some run') :
    run' = run := by
  unfold installed at h
  split at h
  · exact (Option.some.inj h).symm
  · cases h

/-- The command that the output of a source is streamed from. -/
def Compiler.front? (c : Compiler) (h : Host) (kind : Kind) (source : Path) : Option Command :=
  match kind with
  | .component => some (c.component h source)
  | .stylesheet => some (c.stylesheet source)
  | .preprocessedScript => some (c.preprocessor source)
  | .typedSuperset | .bundle | .passthrough | .unknown => none

/-- Compiling an empty source with programs that do not look at files is steady. -/
theorem steady_of_blind {c : Compiler} {h : Host} {G : Location → Prop} {kind : Kind}
    {source : Path} (path : Path) {command : Command} (hG : h.Vacates G)
    (hfront : c.front? h kind source = some command) (hstage : c.optimizerStage? kind = none)
    (hblind : ∀ loc run, h.programs loc = some run → run.Blind)
    (hcomponents : 1 < command.program.components.length)
    (hlocate : h.locate? command.program = some path)
    (hslash : path.text.toList.contains '/' = true)
    (hlaunch : (h.launch (command.withProgram path)).toOption.isSome = true)
    (hbytes : h.tree.bytesAt h.directory source = .ok []) : c.Steady h G kind source := by
  rcases hl : h.launch (command.withProgram path) with e | l
  · rw [hl] at hlaunch
    cases hlaunch
  obtain ⟨loc, hloc⟩ := Host.launch_program hl
  have hsteady : command.Steady h G := by
    refine hG.steady hcomponents hlocate hslash hl fun input broken k _ _ => ?_
    exact (hblind loc l.program hloc).shown _ _ _
  have htools : c.ToolsSteady h G kind source := by
    refine ⟨fun stage hsome => ?_, ?_⟩
    · rw [hstage] at hsome
      cases hsome
    · cases kind <;> cases hfront <;> exact hsteady
  have hkind : kind ≠ .bundle := by
    rintro rfl
    cases hfront
  unfold Compiler.Steady
  rw [if_neg hkind]
  refine ⟨htools, ?_, fun data directives hdata hscan name hname => ?_⟩
  · obtain ⟨loc, f, hfound, -⟩ := Tree.stat_of_bytesAt hbytes
    exact hG.reads hfound
  · -- an empty source names no files
    rw [hbytes, Except.ok.injEq] at hdata
    subst hdata
    have hnone : Directive.scan [] = .ok [] := by decide +kernel
    rw [hnone] at hscan
    cases hscan
    cases hname

namespace Export

variable {t : Tree} {programs : Location → Option Program} {roots : List Path} {settings : Settings}
  {tools : Toolchain} {dest : Path} {D : Location}

/-- An export on a small host, from what evaluating it shows. -/
theorem succeeds_ofTree {report : Report} (hready : (Host.ofTree t programs).Ready)
    (htmp : t.stat [] ⟨"/tmp"⟩ = .ok (["tmp"], .directory))
    (hentries : t.entries.all t.isPlainEntry = true)
    (hmakes : ((makeDestination dest).runOn (.ofTree t programs)).1 = .ok D)
    (habsent : t.get? D = none)
    (hnames : ((makeDestination dest).runOn (.ofTree t programs)).2.tree.names ["tmp"] = [])
    (hroots : ∀ r ∈ roots, ∃ R, t.stat [] r = .ok (R, .directory) ∧ ¬ R <+: D)
    (hrun : ((Content.ofRoots roots settings tools).exportTo dest (.ofTree t programs)).1 =
      .ok report) :
    Succeeds roots settings tools dest (.ofTree t programs) D
      ((makeDestination dest).runOn (.ofTree t programs)).2
      ((Content.ofRoots roots settings tools).exportTo dest (.ofTree t programs)).2.2.1
      ((Content.ofRoots roots settings tools).exportTo dest (.ofTree t programs)).2.2.2 := by
  have htemporary := Host.temporary_of_opens (Host.opens_ofTree programs htmp)
  refine ⟨hready, ⟨Prod.ext hmakes rfl, habsent, ?_⟩, fun r hr => ?_, report, _, Prod.ext hrun rfl⟩
  · rw [htemporary]
    exact Host.noScratch_of_names hnames
  · obtain ⟨R, hstat, hout⟩ := hroots r hr
    exact ⟨R, hstat, Tree.linkFree_of_entries hentries R, hout⟩

end Export

end AssetServer
