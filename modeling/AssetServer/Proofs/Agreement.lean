import AssetServer.Proofs.Precedence

/-!
# Outputs with one source

What has one source only is served and exported alike (`Export.Succeeds.agreement`): the server gives
it before the export, its place below the destination holds the same bytes, and the server gives
these again once the destination is its first root.

Two things bound this. Paths have at most `Tree.maxPathBytes` bytes, so a file whose path is longer
is neither served nor exported. And a compiled source may show the path that it was compiled under,
so its root must not be listed under a second spelling: the first one is served and the last one
exported.
-/

namespace AssetServer.Export

variable {roots : List Path} {settings : Settings} {tools : Toolchain} {dest root : Path}
  {h made h' : Host} {D R : Location} {after : Content} {dir : List String} {o n : String}
  {request : ContentRequest} {f : RegularFile}

/-! ## §1 Places with one source -/

/-- Below all roots, the place of a source and that of its output hold nothing else, and no other
    file is exported to that output. -/
structure Sole (h : Host) (roots : List Path) (R : Location) (dir : List String) (o n : String) :
    Prop where
  place : ∀ r ∈ roots, ∀ R', h.tree.stat h.directory r = .ok (R', .directory) → ∀ m e,
    m = n ∨ m = o → h.tree.get? (R' ++ (dir ++ [m])) = some e → R' = R ∧ m = n
  source : ∀ r ∈ roots, ∀ R', h.tree.stat h.directory r = .ok (R', .directory) → ∀ m f,
    h.tree.get? (R' ++ (dir ++ [m])) = some (.file f) → Kind.exportName? m = some o →
      R' = R ∧ m = n

/-- What is a file below a root is one in the tree. -/
theorem SourceRoot.file_of_isFile (hroot : SourceRoot h D root) (hready : h.Ready)
    {names : List String} (hnames : ∀ m ∈ names, IsName m)
    (hfile : h.tree.isFile h.directory (descend root names) = true) :
    ∃ R f, h.tree.stat h.directory root = .ok (R, .directory) ∧
      h.tree.stat h.directory (descend root names) = .ok (R ++ names, .file f) ∧
      h.tree.get? (R ++ names) = some (.file f) := by
  obtain ⟨R, hstat, hfree, -⟩ := hroot
  obtain ⟨loc, f, hf⟩ := Tree.isFile_iff.mp hfile
  have hR := Tree.get?_of_stat hready.wellFormed hready.directory hstat
  obtain ⟨-, rfl, hget⟩ := (Tree.stat_names_iff hstat (.refl h.tree) hready.wellFormed hR hfree
    hnames).mp hf
  exact ⟨R, f, hstat, hf, hget⟩

theorem SourceRoot.isFile_of_file (hroot : SourceRoot h D root) (hready : h.Ready)
    {names : List String} (hnames : ∀ m ∈ names, IsName m)
    (hR : h.tree.stat h.directory root = .ok (R, .directory))
    (hfits : Tree.Fits (descend root names)) (hf : h.tree.get? (R ++ names) = some (.file f)) :
    h.tree.isFile h.directory (descend root names) = true := by
  obtain ⟨R', hstat, hfree, -⟩ := hroot
  rw [hstat] at hR
  cases hR
  have hR := Tree.get?_of_stat hready.wellFormed hready.directory hstat
  exact Tree.isFile_iff.mpr ⟨_, f,
    (Tree.stat_names_iff hstat (.refl h.tree) hready.wellFormed hR hfree hnames).mpr
      ⟨hfits, rfl, hf⟩⟩

theorem isName_index : IsName "index.html" := by
  decide

/-- A root that holds an index below a name holds a directory of that name. -/
theorem SourceRoot.directory_of_index (hroot : SourceRoot h D root) (hready : h.Ready)
    {names : List String} (hnames : ∀ m ∈ names, IsName m)
    (hfile : h.tree.isFile h.directory (descend root (names ++ ["index.html"])) = true) :
    ∃ R, h.tree.stat h.directory root = .ok (R, .directory) ∧
      h.tree.get? (R ++ names) = some .directory := by
  have hall : ∀ m ∈ names ++ ["index.html"], IsName m := by
    intro m hm
    rcases List.mem_append.mp hm with hm | hm
    · exact hnames m hm
    · exact List.mem_singleton.mp hm ▸ isName_index
  obtain ⟨R, f, hR, -, hf⟩ := hroot.file_of_isFile hready hall hfile
  rw [← List.append_assoc] at hf
  exact ⟨R, hR, hready.wellFormed.parent hf⟩

/-- Of roots that have no index at some names, the first with a file there is found. -/
theorem exists_firstFile {names : List String} (hmem : root ∈ roots)
    (hfile : h.tree.isFile h.directory (descend root names) = true)
    (hindex : ∀ r ∈ roots, h.tree.isFile h.directory (descend r (names ++ ["index.html"])) = false) :
    ∃ r ∈ roots, Resolve.FirstFile h roots names r := by
  have hfound : (roots.find? fun r => h.tree.isFile h.directory (descend r names)).isSome = true := by
    rw [List.find?_isSome]
    exact ⟨root, hmem, hfile⟩
  obtain ⟨r, hr⟩ := Option.isSome_iff_exists.mp hfound
  obtain ⟨hthere, before, later, hroots, hbefore⟩ := List.find?_eq_some_iff_append.mp hr
  refine ⟨r, List.mem_of_find?_eq_some hr, hthere, before, later, hroots, fun r' hr' => ⟨?_, ?_⟩⟩
  · simpa using hbefore r' hr'
  · refine hindex r' ?_
    rw [hroots]
    exact List.mem_append_left _ hr'

namespace Sole

/-- The only entry of the only root, under any spellings. -/
theorem of_names (hroots : ∀ r ∈ roots, h.tree.stat h.directory r = .ok (R, .directory))
    (hnames : h.tree.names R = [n]) : Sole h roots R [] o n := by
  have hlocation : ∀ r ∈ roots, ∀ R', h.tree.stat h.directory r = .ok (R', .directory) →
      R' = R := by
    intro r hr R' hR'
    rw [hroots r hr] at hR'
    cases hR'
    rfl
  have honly : ∀ m e, h.tree.get? (R ++ ([] ++ [m])) = some e → m = n := by
    intro m e he
    have hmem : m ∈ h.tree.names R := Tree.mem_names_iff.mpr ⟨e, he⟩
    rw [hnames] at hmem
    exact List.mem_singleton.mp hmem
  refine ⟨fun r hr R' hR' m e _ he => ?_, fun r hr R' hR' m f hf _ => ?_⟩
  · obtain rfl := hlocation r hr R' hR'
    exact ⟨rfl, honly m e he⟩
  · obtain rfl := hlocation r hr R' hR'
    exact ⟨rfl, honly m _ hf⟩

/-- No root has an index at the place of a source or of its output. -/
theorem index_absent (hsole : Sole h roots R dir o n) (hready : h.Ready)
    (hroots : ∀ r ∈ roots, SourceRoot h D r) {m : String} (hm : m = n ∨ m = o)
    (hnames : ∀ k ∈ dir ++ [m], IsName k) (hf : h.tree.get? (R ++ (dir ++ [n])) = some (.file f))
    {r : Path} (hr : r ∈ roots) :
    h.tree.isFile h.directory (descend r (dir ++ [m] ++ ["index.html"])) = false := by
  rw [← Bool.not_eq_true]
  intro hindex
  obtain ⟨R', hR', hdir⟩ := (hroots r hr).directory_of_index hready hnames hindex
  obtain ⟨rfl, rfl⟩ := hsole.place r hr R' hR' m .directory hm hdir
  rw [hf] at hdir
  cases hdir

/-- A source with another name than its output leaves the place of the output empty. -/
theorem output_absent (hsole : Sole h roots R dir o n) (hready : h.Ready)
    (hroots : ∀ r ∈ roots, SourceRoot h D r) (hnames : ∀ k ∈ dir ++ [o], IsName k) (hne : o ≠ n)
    {r : Path} (hr : r ∈ roots) : Resolve.Lacks h (dir ++ [o]) r := by
  refine ⟨?_, ?_⟩
  · rw [← Bool.not_eq_true]
    intro hfile
    obtain ⟨R', f, hR', -, hf⟩ := (hroots r hr).file_of_isFile hready hnames hfile
    exact hne (hsole.place r hr R' hR' o _ (.inr rfl) hf).2
  · rw [← Bool.not_eq_true]
    intro hindex
    obtain ⟨R', hR', hdir⟩ := (hroots r hr).directory_of_index hready hnames hindex
    exact hne (hsole.place r hr R' hR' o _ (.inr rfl) hdir).2

/-- A sole source answers for its output, under a root at the same location. -/
theorem answers (hsole : Sole h roots R dir o n) (hready : h.Ready)
    (hroots : ∀ r ∈ roots, SourceRoot h D r) (hroot : root ∈ roots) (hp : Produces h root dir o n)
    (hf : h.tree.get? (R ++ (dir ++ [n])) = some (.file f)) :
    ∃ r ∈ roots, h.tree.stat h.directory (descend r (dir ++ [n])) =
        .ok (R ++ (dir ++ [n]), .file f) ∧ h.tree.stat h.directory r = .ok (R, .directory) ∧
      Resolve.Answers h roots dir o (Kind.ofName n) (descend r (dir ++ [n])) := by
  have hdir : ∀ m ∈ dir, IsName m := fun m hm => hp.isName m (List.mem_append_left _ hm)
  obtain ⟨r, hr, hfirst⟩ := exists_firstFile hroot hp.isFile fun r hr =>
    hsole.index_absent hready hroots (.inl rfl) hp.isName hf hr
  obtain ⟨R', f', hR', hstat, hf'⟩ := (hroots r hr).file_of_isFile hready hp.isName hfirst.isFile
  obtain ⟨rfl, -⟩ := hsole.source r hr R' hR' n f' hf' hp.exported
  rw [hf, Option.some.injEq, Entry.file.injEq] at hf'
  subst hf'
  refine ⟨r, hr, hstat, hR', ?_⟩
  rcases Kind.exportName?_iff.mp hp.exported with ⟨hkind, rfl⟩ | ⟨k, suffix, out, s, hs, hout, rfl, rfl⟩
  · rw [hkind]
    exact .direct hfirst
  have hne : s ++ out.extension ≠ s ++ suffix := by
    intro heq
    rw [← String.toList_inj, String.toList_append, String.toList_append,
      List.append_cancel_left_eq, String.toList_inj] at heq
    cases k <;> cases hs <;> cases hout <;> exact absurd heq (by decide)
  have houtput : ∀ m ∈ dir ++ [s ++ out.extension], IsName m := by
    intro m hm
    rcases List.mem_append.mp hm with hm | hm
    · exact hdir m hm
    · rw [List.mem_singleton.mp hm]
      exact Kind.exportName?_isName (hp.isName _ (by simp)) hp.exported
  have hslash : '/' ∉ s.toList :=
    (Tree.IsPart.of_name (houtput (s ++ out.extension) (by simp))).stem_no_slash
  rw [Kind.ofName_append hs]
  obtain ⟨earlier, later, hcandidates⟩ := List.append_of_mem (Kind.mem_candidates_iff.mpr hout)
  refine .compiled rfl (fun r hr => hsole.output_absent hready hroots houtput hne hr) hcandidates hs
    (fun k' hk' suffix' hs' r hr => ?_) hfirst
  rw [← Bool.not_eq_true]
  intro hfile
  -- another candidate would be a second source of the output
  have hk'out : k'.output? = some out := by
    rw [← Kind.mem_candidates_iff, hcandidates]
    exact List.mem_append_left _ hk'
  obtain ⟨R₁, hstat₁, -⟩ := hroots r hr
  have hp' := produces_of_candidate (Tree.ne_empty_of_stat hstat₁) hdir hslash hs' hk'out hfile
  obtain ⟨R', f', hR', -, hf'⟩ := (hroots r hr).file_of_isFile hready hp'.isName hfile
  obtain ⟨-, heq⟩ := hsole.source r hr R' hR' _ f' hf' hp'.exported
  have hkind := Kind.ofName_append hs' s
  rw [heq, Kind.ofName_append hs] at hkind
  subst hkind
  have hnodup : out.candidates.Nodup := by
    cases out <;> decide
  rw [hcandidates, List.nodup_append] at hnodup
  exact hnodup.2.2 k hk' k (by simp) rfl

end Sole

/-! ## §2 Agreement -/

/-- A file gives the same bytes under another spelling of its root, if it is not compiled. -/
theorem gives_respelled {r : Path} {b : Bytes} {loc : Location} {compiler : Compiler}
    (hstat : h.tree.stat h.directory (descend root (dir ++ [n])) = .ok (loc, .file f))
    (hstat' : h.tree.stat h.directory (descend r (dir ++ [n])) = .ok (loc, .file f))
    (hspelled : Kind.ofName n ≠ .passthrough → r = root)
    (hb : compiler.Gives h (Kind.ofName n) (descend root (dir ++ [n])) b) :
    compiler.Gives h (Kind.ofName n) (descend r (dir ++ [n])) b := by
  by_cases hkind : Kind.ofName n = .passthrough
  · rw [hkind, Compiler.gives_passthrough] at hb ⊢
    rw [Tree.bytesAt_of_stat hstat] at hb
    rw [Tree.bytesAt_of_stat hstat']
    exact hb
  · rw [hspelled hkind]
    exact hb

/-- What has one source only is served with some bytes before an export, holds these bytes after it,
    and is served with them then. -/
theorem Succeeds.agreement (hx : Succeeds roots settings tools dest h D made after h')
    (hroot : root ∈ roots) (hR : h.tree.stat h.directory root = .ok (R, .directory))
    (hf : h.tree.get? (R ++ (dir ++ [n])) = some (.file f))
    (hfits : Tree.Fits (descend root (dir ++ [n]))) (hexported : Kind.exportName? n = some o)
    (hsole : Sole h roots R dir o n)
    (hspelled : Kind.ofName n ≠ .passthrough → ∀ r ∈ roots,
      h.tree.stat h.directory r = .ok (R, .directory) → r = root)
    (hsteady : SteadySource h made D ⟨tools, settings⟩ (descend root (dir ++ [n])))
    (hasks : request.Asks ("/".intercalate (dir ++ [o]))) :
    ∃ b, (Content.ofRoots roots settings tools).Serves request h b ∧
      h'.Holds b (D ++ (dir ++ [o])) ∧
      (Tree.Fits (descend dest (dir ++ [o])) → after.Serves request h' b) := by
  have hnames : ∀ m ∈ dir ++ [n], IsName m := hx.ready.wellFormed.names hf
  have hfile := (hx.sources root hroot).isFile_of_file hx.ready hnames hR hfits hf
  have hp : Produces h root dir o n := ⟨hnames, hfile, hexported⟩
  obtain ⟨R₁, f₁, hR₁, hstat, hf₁⟩ := (hx.sources root hroot).file_of_isFile hx.ready hnames hfile
  rw [hR, Except.ok.injEq, Prod.mk.injEq] at hR₁
  obtain ⟨rfl, -⟩ := hR₁
  rw [hf, Option.some.injEq, Entry.file.injEq] at hf₁
  subst hf₁
  obtain ⟨b, hb⟩ := hx.gives hroot hp hsteady
  -- the root that is served first and the one that is exported last may be spelled differently
  obtain ⟨r, hr, hstat', hR', hanswers⟩ := hsole.answers hx.ready hx.sources hroot hp hf
  obtain ⟨last, m, hlast⟩ := hp.exists_lastSource hroot
  obtain ⟨R₂, f₂, hR₂, hstat₂, hf₂⟩ := (hx.sources last hlast.mem).file_of_isFile hx.ready
    hlast.produces.isName hlast.produces.isFile
  obtain ⟨rfl, rfl⟩ := hsole.source last hlast.mem R₂ hR₂ m f₂ hf₂ hlast.produces.exported
  rw [hf, Option.some.injEq, Entry.file.injEq] at hf₂
  subst hf₂
  have hheld : h'.Holds b (D ++ (dir ++ [o])) := by
    refine (hx.holds_iff hlast fun hcompiled => ?_).mpr
      (gives_respelled hstat hstat₂ (fun hkind => hspelled hkind last hlast.mem hR₂) hb)
    rw [hx.kind hlast.mem hlast.produces] at hcompiled
    have hsame := hspelled hcompiled last hlast.mem hR₂
    subst hsame
    refine hsteady ?_
    rw [hx.kind hlast.mem hlast.produces]
    exact hcompiled
  refine ⟨b, ?_, hheld, fun hout => ?_⟩
  · exact Content.serves_answer hanswers hp.isPart
      (gives_respelled hstat hstat' (fun hkind => hspelled hkind r hr hR') hb) hasks
  · refine hx.serves_after (hx.under hroot hp) (by simp) (fun k hk => ?_) hout hheld hasks
    rcases List.mem_append.mp hk with hk | hk
    · exact hnames k (List.mem_append_left _ hk)
    · rw [List.mem_singleton.mp hk]
      exact Kind.exportName?_isName (hnames m (by simp)) hexported

/-! ## §3 Small hosts with one source -/

/-- A script with macros that is the only file under a root. -/
def soleTree : Tree :=
  ⟨[(["bin"], .directory), (["bin", "tool"], executableFile), (["site"], .directory),
    (["site", "app.main.js"], plainFile []), (["tmp"], .directory)]⟩

/-- A host with that script, and a preprocessor that writes the path it is given. -/
def soleHost : Host :=
  .ofTree soleTree (installed .echoing)

/-- What an export of some roots leads to. -/
def soleExport (roots : List Path) : Except Failure Report × List Progress × Content × Host :=
  (Content.ofRoots roots default oneTool).exportTo ⟨"out"⟩ soleHost

/-- That host as one that is ready. -/
def soleReady : {h : Host // h.Ready} where
  val := soleHost
  property := Host.ready_ofTree (by decide) (by decide +kernel) (by decide +kernel) (by decide +kernel)
    fun loc run hrun => installed_eq hrun ▸ Program.echoing_blind.confined ["tmp"]

theorem sole_ready : soleHost.Ready :=
  soleReady.property

theorem sole_succeeds {roots : List Path} {report : Report}
    (hroots : ∀ r ∈ roots, soleTree.stat [] r = .ok (["site"], .directory))
    (hrun : (soleExport roots).1 = .ok report) :
    Succeeds roots default oneTool ⟨"out"⟩ soleHost ["out"]
      ((makeDestination ⟨"out"⟩).runOn soleHost).2 (soleExport roots).2.2.1
      (soleExport roots).2.2.2 :=
  succeeds_ofTree sole_ready (by decide +kernel) (by decide +kernel) (by decide +kernel)
    (by decide +kernel) (by decide +kernel) (fun r hr => ⟨["site"], hroots r hr, by decide⟩) hrun

theorem sole_source {roots : List Path}
    (hroots : ∀ r ∈ roots, soleTree.stat [] r = .ok (["site"], .directory)) :
    Sole soleHost roots ["site"] [] "app.js" "app.main.js" :=
  .of_names hroots (by decide +kernel)

theorem sole_steady {roots : List Path} {report : Report} {source : Path}
    (hroots : ∀ r ∈ roots, soleTree.stat [] r = .ok (["site"], .directory))
    (hrun : (soleExport roots).1 = .ok report) (hkind : Kind.ofPath source = .preprocessedScript)
    (hlaunch : (soleHost.launch (((⟨oneTool, default⟩ : Compiler).preprocessor source).withProgram
      ⟨"/bin/tool"⟩)).toOption.isSome = true)
    (hbytes : soleTree.bytesAt [] source = .ok []) :
    SteadySource soleHost ((makeDestination ⟨"out"⟩).runOn soleHost).2 ["out"] ⟨oneTool, default⟩
      source := by
  have hcomponents : 1 < (⟨"/bin/tool"⟩ : Path).components.length := by decide +kernel
  have hlocate : soleHost.locate? ⟨"/bin/tool"⟩ = some ⟨"/bin/tool"⟩ := by decide +kernel
  intro _
  rw [hkind]
  exact steady_of_blind ⟨"/bin/tool"⟩
    (hidden_vacates sole_ready (sole_succeeds hroots hrun).absent) rfl rfl
    (fun loc run h => installed_eq h ▸ Program.echoing_blind) hcomponents hlocate (by decide)
    hlaunch hbytes

theorem sole_agreement : ∃ b,
    (Content.ofRoots [⟨"site"⟩] default oneTool).Serves (plainRequest "/app.js") soleHost b ∧
      (soleExport [⟨"site"⟩]).2.2.2.Holds b ["out", "app.js"] ∧
      (Tree.Fits (descend ⟨"out"⟩ ["app.js"]) →
        (soleExport [⟨"site"⟩]).2.2.1.Serves (plainRequest "/app.js")
          (soleExport [⟨"site"⟩]).2.2.2 b) := by
  have hroots : ∀ r ∈ [(⟨"site"⟩ : Path)], soleTree.stat [] r = .ok (["site"], .directory) := by
    intro r hr
    rw [List.mem_singleton.mp hr]
    decide +kernel
  have hrun : (soleExport [⟨"site"⟩]).1 = .ok ⟨1, 0, 0⟩ := by decide +kernel
  have hasks : (plainRequest "/app.js").Asks "app.js" := ⟨by decide +kernel, rfl⟩
  have hsteady : SteadySource soleHost ((makeDestination ⟨"out"⟩).runOn soleHost).2 ["out"]
      ⟨oneTool, default⟩ (descend ⟨"site"⟩ ([] ++ ["app.main.js"])) :=
    sole_steady hroots hrun (by decide +kernel) (by decide +kernel) (by decide +kernel)
  have hplace : soleHost.tree.get? (["site"] ++ ([] ++ ["app.main.js"])) = some (plainFile []) := by
    decide +kernel
  have hfits : Tree.Fits (descend ⟨"site"⟩ ([] ++ ["app.main.js"])) := by
    unfold Tree.Fits
    decide +kernel
  have hspelled : Kind.ofName "app.main.js" ≠ .passthrough → ∀ r ∈ [(⟨"site"⟩ : Path)],
      soleHost.tree.stat soleHost.directory r = .ok (["site"], .directory) → r = ⟨"site"⟩ :=
    fun _ r hr _ => List.mem_singleton.mp hr
  simpa only [List.nil_append, List.cons_append] using
    (sole_succeeds hroots hrun).agreement (by simp) (hroots _ (by simp)) hplace hfits
      (by decide +kernel) (sole_source hroots) hspelled hsteady hasks

/-- A script that is compiled under two spellings of its root is served as the first one says, and
    exported as the second one does. -/
theorem respelled_differs :
    Succeeds [⟨"site"⟩, ⟨"./site"⟩] default oneTool ⟨"out"⟩ soleHost ["out"]
        ((makeDestination ⟨"out"⟩).runOn soleHost).2 (soleExport [⟨"site"⟩, ⟨"./site"⟩]).2.2.1
        (soleExport [⟨"site"⟩, ⟨"./site"⟩]).2.2.2 ∧
      Sole soleHost [⟨"site"⟩, ⟨"./site"⟩] ["site"] [] "app.js" "app.main.js" ∧
      (∀ r ∈ [(⟨"site"⟩ : Path), ⟨"./site"⟩],
        SteadySource soleHost ((makeDestination ⟨"out"⟩).runOn soleHost).2 ["out"]
          ⟨oneTool, default⟩ (descend r ["app.main.js"])) ∧
      (Content.ofRoots [⟨"site"⟩, ⟨"./site"⟩] default oneTool).Serves (plainRequest "/app.js")
        soleHost (Utf8.encode "site/app.main.js") ∧
      ¬ (soleExport [⟨"site"⟩, ⟨"./site"⟩]).2.2.2.Holds (Utf8.encode "site/app.main.js")
        ["out", "app.js"] := by
  have hroots : ∀ r ∈ [(⟨"site"⟩ : Path), ⟨"./site"⟩],
      soleTree.stat [] r = .ok (["site"], .directory) := by
    intro r hr
    rcases List.mem_cons.mp hr with rfl | hr
    · decide +kernel
    · rw [List.mem_singleton.mp hr]
      decide +kernel
  have hrun : (soleExport [⟨"site"⟩, ⟨"./site"⟩]).1 = .ok ⟨2, 0, 0⟩ := by decide +kernel
  have hplace : (soleExport [⟨"site"⟩, ⟨"./site"⟩]).2.2.2.tree.get? ["out", "app.js"] =
      some (plainFile (Utf8.encode "./site/app.main.js")) := by
    decide +kernel
  refine ⟨sole_succeeds hroots hrun, sole_source hroots, fun r hr => ?_,
    Content.serves_of_eq (by decide +kernel) (by decide +kernel), ?_⟩
  · rcases List.mem_cons.mp hr with rfl | hr
    · exact sole_steady hroots hrun (by decide +kernel) (by decide +kernel) (by decide +kernel)
    · rw [List.mem_singleton.mp hr]
      exact sole_steady hroots hrun (by decide +kernel) (by decide +kernel) (by decide +kernel)
  · rintro ⟨f, hf, hbytes⟩
    rw [hplace] at hf
    cases hf
    exact absurd hbytes (by decide +kernel)

end AssetServer.Export

namespace AssetServer

/-! ## §4 Paths that are too long -/

/-- The path with slashes at its end. -/
def Path.padded (p : Path) : Nat → Path
  | 0 => p
  | k + 1 => ⟨(p.padded k).text ++ "/"⟩

namespace Path

theorem padded_size (p : Path) (k : Nat) :
    (p.padded k).text.utf8ByteSize = p.text.utf8ByteSize + k := by
  induction k with
  | zero => rfl
  | succ k ih =>
    have hslash : "/".utf8ByteSize = 1 := by decide
    simp only [padded, String.utf8ByteSize_append, ih, hslash]
    omega

theorem padded_ne_empty {p : Path} (hp : p.text ≠ "") (k : Nat) : (p.padded k).text ≠ "" := by
  cases k with
  | zero => exact hp
  | succ k => simp [padded]

theorem padded_moves (p : Path) (k : Nat) : (p.padded k).moves = p.moves := by
  induction k with
  | zero => rfl
  | succ k ih =>
    refine Eq.trans ?_ ih
    show moves ⟨(p.padded k).text ++ "/"⟩ = (p.padded k).moves
    unfold moves stepsOf
    have hcut : Text.split '/' ((p.padded k).text ++ "/").toList =
        Text.split '/' (p.padded k).text.toList ++ [[]] := by
      rw [String.toList_append]
      exact Text.split_append '/' _ []
    rw [hcut, List.filter_append]
    simp [isStep]

theorem padded_isAbsolute {p : Path} (hp : p.text ≠ "") (k : Nat) :
    (p.padded k).isAbsolute = p.isAbsolute := by
  induction k with
  | zero => rfl
  | succ k ih =>
    have hne : (p.padded k).text.toList ≠ [] := by simpa using padded_ne_empty hp k
    refine Eq.trans ?_ ih
    show isAbsolute ⟨(p.padded k).text ++ "/"⟩ = (p.padded k).isAbsolute
    unfold isAbsolute
    rw [String.toList_append, List.head?_append_of_ne_nil _ hne]

theorem padded_no_nul {p : Path} (hnul : '\x00' ∉ p.text.toList) (k : Nat) :
    '\x00' ∉ (p.padded k).text.toList := by
  induction k with
  | zero => exact hnul
  | succ k ih => simpa [padded] using ih

/-- Slashes at its end do not change where the path of a directory leads. -/
theorem stat_padded {t : Tree} {cwd loc : Location} {p : Path} {k : Nat}
    (h : t.stat cwd p = .ok (loc, .directory))
    (hfits : p.text.utf8ByteSize + k ≤ Tree.maxPathBytes) :
    t.stat cwd (p.padded k) = .ok (loc, .directory) := by
  obtain ⟨hnul, hne, -, -⟩ := Tree.find_ok (Tree.stat_ok_iff.mp h)
  refine Tree.stat_respelled (padded_moves p k) (padded_isAbsolute hne k) (padded_no_nul hnul k)
    (padded_ne_empty hne k) ?_ h
  unfold Tree.Fits
  rw [padded_size]
  exact hfits

theorem join_padded {p : Path} {n : String} (k : Nat) (hn : '/' ∉ n.toList) :
    ((p.padded (k + 1)).join n).text.utf8ByteSize =
      p.text.utf8ByteSize + (k + 1) + n.utf8ByteSize := by
  rw [size_joined _ hn, if_pos (by simp [padded]), padded_size, Nat.add_zero]

end Path

namespace Export

variable {h made : Host} {root dest : Path} {D R : Location} {n : String} {roots : List Path}

/-- A root whose only file has too long a path is gone through without effect. -/
theorem root_too_long {pass : Pass} {x : Export}
    (hstat : pass.host.tree.stat pass.host.directory root = .ok (R, .directory))
    (hnames : pass.host.tree.names R = [n])
    (hfile : pass.host.tree.get? (R ++ [n]) ≠ some .directory)
    (hlong : ¬ Tree.Fits (root.join n)) :
    runFrom (x.root root) pass =
      (.ok (), { pass with progress := pass.progress ++ [.root root] }) := by
  -- a path that is too long leads nowhere, so the file is passed over
  have hisFile : pass.host.tree.isFile pass.host.directory (root.join n) = false := by
    rw [← Bool.not_eq_true]
    intro htrue
    obtain ⟨loc, f, hf⟩ := Tree.isFile_iff.mp htrue
    exact hlong (Tree.fits_of_stat hf)
  have hlevels : maxLevels = Tree.maxPathBytes + 1 := rfl
  have hkind : (pass.host.tree.get? (R ++ [n]) == some .directory) = false := by
    rw [beq_eq_false_iff_ne]
    exact hfile
  unfold Export.root
  refine runFrom_bind_ok.mpr ⟨(), _, runFrom_tell _ _, ?_⟩
  rw [hlevels, walk_succ]
  refine runFrom_bind_ok.mpr ⟨[(n, false)], { pass with progress := pass.progress ++ [.root root] },
    ?_, ?_⟩
  · refine entries_ok_iff.mpr ⟨rfl, R, hstat, ?_⟩
    simp only [hnames, List.map_cons, List.map_nil, hkind]
  · show runFrom (x.entry root _ [] (n, false) >>= fun _ => pure ()) _ = _
    refine runFrom_bind_ok.mpr ⟨(), _, ?_, runFrom_pure _ _⟩
    rw [runFrom_entry_file, if_neg]
    exact Bool.not_eq_true _ ▸ hisFile

/-- An export succeeds once its destination is made and its roots are gone through. -/
theorem exportTo_of_roots {settings : Settings} {tools : Toolchain} {p : Pass}
    (hmakes : (makeDestination dest).runOn h = (.ok D, made))
    (hloop : runFrom (roots.forM (⟨⟨tools, settings⟩, dest, D⟩ : Export).root) ⟨made, default, []⟩ =
      (.ok (), p)) :
    (Content.ofRoots roots settings tools).exportTo dest h =
      (.ok p.report, p.progress ++ [.done p.report],
        (Content.ofRoots roots settings tools).addExport p.host dest, p.host) := by
  have hsources : (Content.ofRoots roots settings tools).sources = roots := by
    unfold Content.sources Content.ofRoots
    simp
  have htree : Export.tree roots dest (Content.ofRoots roots settings tools).compiler h =
      (.ok p.report, p.progress ++ [.done p.report], p.host) :=
    tree_made hmakes hloop
  unfold Content.exportTo
  rw [hsources, htree]

/-- A plain file that is the only file under a root. -/
def loneTree : Tree :=
  ⟨[(["site"], .directory), (["site", "f.txt"], plainFile [1]), (["tmp"], .directory)]⟩

/-- A host with that file. -/
def loneHost : Host :=
  .ofTree loneTree fun _ => none

/-- That host as one that is ready. -/
def loneReady : {h : Host // h.Ready} where
  val := loneHost
  property := Host.ready_ofTree (by decide) (by decide +kernel) (by decide +kernel) (by decide +kernel)
    (by rintro loc run ⟨⟩)

theorem lone_ready : loneHost.Ready :=
  loneReady.property

/-- What making the destination of an export leads to. -/
def loneMade : Host :=
  ((makeDestination ⟨"out"⟩).runOn loneHost).2

/-- The file is not exported if its path below the root is too long. -/
theorem lone_unexported (hroot : loneHost.tree.stat [] root = .ok (["site"], .directory))
    (hmade : loneMade.tree.stat loneMade.directory root = .ok (["site"], .directory))
    (hlong : ¬ Tree.Fits (root.join "f.txt")) : ∃ after h',
      Succeeds [root] default default ⟨"out"⟩ loneHost ["out"] loneMade after h' ∧
        ∀ b, ¬ h'.Holds b ["out", "f.txt"] := by
  have hmakes : ((makeDestination ⟨"out"⟩).runOn loneHost).1 = .ok ["out"] := by decide +kernel
  have hstart : (⟨loneMade, default, []⟩ : Pass).host = loneMade := rfl
  rw [← hstart] at hmade
  have hloop := root_too_long (R := ["site"]) (n := "f.txt")
    (x := ⟨⟨default, default⟩, ⟨"out"⟩, ["out"]⟩) hmade (by decide +kernel) (by decide +kernel) hlong
  have hroots : runFrom ([root].forM (⟨⟨default, default⟩, ⟨"out"⟩, ["out"]⟩ : Export).root)
      ⟨loneMade, default, []⟩ = (.ok (), _) :=
    runFrom_bind_ok.mpr ⟨(), _, hloop, runFrom_pure _ _⟩
  have hrun := exportTo_of_roots (Prod.ext hmakes rfl) hroots
  refine ⟨_, _, succeeds_ofTree lone_ready (by decide +kernel) (by decide +kernel) hmakes
    (by decide +kernel) (by decide +kernel) (fun r hr => ?_) (congrArg Prod.fst hrun), ?_⟩
  · rw [List.mem_singleton.mp hr]
    exact ⟨["site"], hroot, by decide⟩
  · rintro b ⟨f, hf, -⟩
    change ((Content.ofRoots [root] default default).exportTo ⟨"out"⟩
      loneHost).2.2.2.tree.get? ["out", "f.txt"] = some (.file f) at hf
    have hnone : loneMade.tree.get? ["out", "f.txt"] = none := by decide +kernel
    rw [hrun] at hf
    cases hnone.symm.trans hf

/-- The root of that file, spelled so that the path of the file is too long. -/
def paddedRoot : Path :=
  (⟨"site"⟩ : Path).padded 4090

theorem padded_too_long : ¬ Tree.Fits (paddedRoot.join "f.txt") := by
  unfold Tree.Fits paddedRoot
  rw [Path.join_padded 4089 (by decide)]
  decide +kernel

/-- A sole source may be exported differently from how it is served: under another spelling of its
    root, or not at all where its path is too long. -/
theorem sole_differs :
    (∃ b, (Content.ofRoots [⟨"site"⟩, ⟨"./site"⟩] default oneTool).Serves (plainRequest "/app.js")
        soleHost b ∧
      Sole soleHost [⟨"site"⟩, ⟨"./site"⟩] ["site"] [] "app.js" "app.main.js" ∧
      ∃ made after h', Succeeds [⟨"site"⟩, ⟨"./site"⟩] default oneTool ⟨"out"⟩ soleHost ["out"] made
          after h' ∧
        (∀ r ∈ [(⟨"site"⟩ : Path), ⟨"./site"⟩], SteadySource soleHost made ["out"]
          ⟨oneTool, default⟩ (descend r ["app.main.js"])) ∧
        ¬ h'.Holds b ["out", "app.js"]) ∧
    (loneHost.tree.stat [] paddedRoot = .ok (["site"], .directory) ∧
      loneHost.tree.get? ["site", "f.txt"] = some (plainFile [1]) ∧
      Sole loneHost [paddedRoot] ["site"] [] "f.txt" "f.txt" ∧
      ∃ made after h',
        Succeeds [paddedRoot] default default ⟨"out"⟩ loneHost ["out"] made after h' ∧
          ∀ b, ¬ h'.Holds b ["out", "f.txt"]) := by
  obtain ⟨hsucceeds, hsole, hsteady, hserves, hheld⟩ := respelled_differs
  have hroot : loneHost.tree.stat [] paddedRoot = .ok (["site"], .directory) :=
    Path.stat_padded (by decide +kernel) (by decide +kernel)
  have hmade : loneMade.tree.stat loneMade.directory paddedRoot = .ok (["site"], .directory) :=
    Path.stat_padded (by decide +kernel) (by decide +kernel)
  refine ⟨⟨_, hserves, hsole, _, _, _, hsucceeds, hsteady, hheld⟩, hroot, by decide +kernel,
    .of_names (fun r hr => ?_) (by decide +kernel), loneMade,
    lone_unexported hroot hmade padded_too_long⟩
  rw [List.mem_singleton.mp hr]
  exact hroot

end Export

end AssetServer
