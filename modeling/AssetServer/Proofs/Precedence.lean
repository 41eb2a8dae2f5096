import AssetServer.Proofs.Mirror

/-!
# Several sources of one output

Several files can be exported to one place: files of one name under several roots, and sources under
one root whose names differ in their endings only. A server answers with the first root and the first
candidate. An export goes through the roots in the same order and through the names of a directory in
the order of their bytes, and what it writes last stays: the last root and the greatest name. The two
agree where both orders end at the same file.

- `Export.Succeeds.plain_overlap` compares the two for plain files under several roots.
- `Export.Succeeds.kind_overlap` compares them for the sources under a single root.
-/

namespace AssetServer

namespace Export

variable {roots : List Path} {settings : Settings} {tools : Toolchain} {dest root : Path}
  {h made h' : Host} {D : Location} {after : Content} {dir : List String} {o n : String}
  {request : ContentRequest}

/-! ## §1 What is served -/

theorem Produces.isPart (hp : Produces h root dir o n) : ∀ m ∈ dir ++ [o], Tree.IsPart m := by
  intro m hm
  rcases List.mem_append.mp hm with hm | hm
  · exact .of_name (hp.isName m (List.mem_append_left _ hm))
  · rw [List.mem_singleton.mp hm]
    exact .of_name (Kind.exportName?_isName (hp.isName n (by simp)) hp.exported)

/-- A file that no source compiles into comes from a plain file of its name. -/
theorem Produces.plain (hp : Produces h root dir o n) (ho : Output.ofText? o = none) :
    n = o ∧ Kind.ofName n = .passthrough := by
  rcases Kind.exportName?_iff.mp hp.exported with ⟨hkind, rfl⟩ | ⟨k, suffix, out, s, -, -, -, rfl⟩
  · exact ⟨rfl, hkind⟩
  · rw [Resolve.ofText?_append] at ho
    cases ho

theorem Produces.mem_names {R : Location} (hp : Produces h root dir o n) (hready : h.Ready)
    (hstat : h.tree.stat h.directory root = .ok (R, .directory)) (hfree : h.tree.LinkFree R) :
    n ∈ h.tree.names (R ++ dir) := by
  obtain ⟨loc, f, hfile⟩ := Tree.isFile_iff.mp hp.isFile
  have hR := Tree.get?_of_stat hready.wellFormed hready.directory hstat
  obtain ⟨-, -, hf⟩ := (Tree.stat_names_iff hstat (.refl h.tree) hready.wellFormed hR hfree
    hp.isName).mp hfile
  exact Tree.mem_names_iff.mpr ⟨_, by rw [List.append_assoc]; exact hf⟩

theorem bytesAt_of_isFile {t : Tree} {cwd : Location} {p : Path} (hfile : t.isFile cwd p = true) :
    ∃ b, t.bytesAt cwd p = .ok b := by
  obtain ⟨loc, f, hstat⟩ := Tree.isFile_iff.mp hfile
  exact ⟨f.content, Tree.bytesAt_of_stat hstat⟩

/-- A source with the ending of a candidate is a source of the output. -/
theorem produces_of_candidate {k : Kind} {s suffix : String} {out : Output}
    (hroot : root.text ≠ "") (hdir : ∀ m ∈ dir, IsName m) (hs : '/' ∉ s.toList)
    (hsuffix : k.suffix? = some suffix) (hout : k.output? = some out)
    (hfile : h.tree.isFile h.directory (descend root (dir ++ [s ++ suffix])) = true) :
    Produces h root dir (s ++ out.extension) (s ++ suffix) := by
  refine ⟨fun m hm => ?_, hfile, Kind.exportName?_iff.mpr (.inr ⟨k, suffix, out, s, hsuffix, hout, rfl, rfl⟩)⟩
  rcases List.mem_append.mp hm with hm | hm
  · exact hdir m hm
  · rw [List.mem_singleton.mp hm]
    obtain ⟨loc, f, hstat⟩ := Tree.isFile_iff.mp hfile
    rw [Path.descend_concat] at hstat
    exact Tree.isName_of_stat ((Tree.Spells.descend hroot).ne_empty hroot hdir)
      (Kind.isPart_append hsuffix hs) hstat

/-- Something answers for every output of a single root. -/
theorem Produces.exists_answer (hp : Produces h root dir o n)
    (hindex : h.tree.isFile h.directory (descend root (dir ++ [o] ++ ["index.html"])) = false) :
    ∃ k source, Resolve.Answers h [root] dir o k source := by
  have hfirst : ∀ {names : List String}, h.tree.isFile h.directory (descend root names) = true →
      Resolve.FirstFile h [root] names root := fun hfile => ⟨hfile, [], [], rfl, by simp⟩
  by_cases hdirect : h.tree.isFile h.directory (descend root (dir ++ [o])) = true
  · exact ⟨_, _, .direct (hfirst hdirect)⟩
  rcases Kind.exportName?_iff.mp hp.exported with ⟨-, rfl⟩ | ⟨k, suffix, out, s, hs, ho, rfl, rfl⟩
  · exact absurd hp.isFile hdirect
  -- the first candidate that the root has a file for
  have hfound : (out.candidates.find? fun k => k.suffix?.any fun suffix =>
      h.tree.isFile h.directory (descend root (dir ++ [s ++ suffix]))).isSome = true := by
    rw [List.find?_isSome]
    exact ⟨k, Kind.mem_candidates_iff.mpr ho, by simpa [hs] using hp.isFile⟩
  obtain ⟨k₁, hk₁⟩ := Option.isSome_iff_exists.mp hfound
  obtain ⟨hfile, earlier, later, hcandidates, hearlier⟩ := List.find?_eq_some_iff_append.mp hk₁
  obtain ⟨suffix₁, hsuffix₁⟩ := Kind.exists_suffix_iff_output.mpr
    ⟨out, Kind.mem_candidates_iff.mp (by rw [hcandidates]; simp : k₁ ∈ out.candidates)⟩
  rw [hsuffix₁] at hfile
  refine ⟨k₁, _, .compiled rfl (fun r hr => ?_) hcandidates hsuffix₁
    (fun k' hk' suffix' hsuffix' r hr => ?_) (hfirst (by simpa using hfile))⟩
  · rw [List.mem_singleton.mp hr]
    exact ⟨by simpa using hdirect, hindex⟩
  · have hnot := hearlier k' hk'
    rw [hsuffix'] at hnot
    rw [List.mem_singleton.mp hr]
    simpa using hnot

namespace Succeeds

/-- The root that is asked first is the first that has a file. -/
theorem firstFile (hx : Succeeds roots settings tools dest h D made after h')
    {before later : List Path} (hroots : roots = before ++ root :: later)
    (hp : Produces h root dir o o) (hbefore : ∀ r ∈ before,
      h.tree.isFile h.directory (descend r (dir ++ [o])) = false) :
    Resolve.FirstFile h roots (dir ++ [o]) root := by
  refine ⟨hp.isFile, before, later, hroots, fun r hr => ⟨hbefore r hr, ?_⟩⟩
  refine hx.index_absent ?_ hp ?_
  · rw [hroots]
    simp
  · rw [hroots]
    exact List.mem_append_left _ hr

/-! ## §2 Plain files under several roots -/

/-- A plain file is served from the first root that has it, and exported from the last source in the
    last root that has one: its place holds the bytes that are served just if that source gives them
    as well. -/
theorem plain_overlap (hx : Succeeds roots settings tools dest h D made after h')
    {before later : List Path} (hroots : roots = before ++ root :: later)
    (hp : Produces h root dir n n) (hbefore : ∀ r ∈ before,
      h.tree.isFile h.directory (descend r (dir ++ [n])) = false)
    (hsteady : ∀ r m, LastSource h roots dir n r m →
      SteadySource h made D ⟨tools, settings⟩ (descend r (dir ++ [m])))
    (hasks : request.Asks ("/".intercalate (dir ++ [n]))) :
    ∃ b last m, h.tree.bytesAt h.directory (descend root (dir ++ [n])) = .ok b ∧
      (Content.ofRoots roots settings tools).Serves request h b ∧
      LastSource h roots dir n last m ∧
      ∀ b', h'.Holds b' (D ++ (dir ++ [n])) ↔
        Compiler.Gives ⟨tools, settings⟩ h (Kind.ofName m) (descend last (dir ++ [m])) b' := by
  have hroot : root ∈ roots := by
    rw [hroots]
    simp
  obtain ⟨b, hb⟩ := bytesAt_of_isFile hp.isFile
  obtain ⟨last, m, hlast⟩ := hp.exists_lastSource hroot
  refine ⟨b, last, m, hb, ?_, hlast, fun b' => hx.holds_iff hlast (hsteady last m hlast)⟩
  exact Content.serves_answer (.direct (hx.firstFile hroots hp hbefore)) hp.isPart
    (Compiler.gives_passthrough.mpr hb) hasks

end Succeeds

/-- A plain file of one name under two roots, with other bytes in each. -/
def overlaid : Tree :=
  ⟨[(["a"], .directory), (["a", "f.txt"], plainFile [1]), (["b"], .directory),
    (["b", "f.txt"], plainFile [2]), (["tmp"], .directory)]⟩

/-- A host with two roots that hold a file of one name. -/
def overlaidHost : Host :=
  .ofTree overlaid fun _ => none

/-- What an export of both roots leads to. -/
def overlaidExport : Except Failure Report × List Progress × Content × Host :=
  (Content.ofRoots [⟨"a"⟩, ⟨"b"⟩] default default).exportTo ⟨"out"⟩ overlaidHost

theorem overlaid_succeeds : Succeeds [⟨"a"⟩, ⟨"b"⟩] default default ⟨"out"⟩ overlaidHost ["out"]
    ((makeDestination ⟨"out"⟩).runOn overlaidHost).2 overlaidExport.2.2.1
    overlaidExport.2.2.2 := by
  have hready : overlaidHost.Ready := Host.ready_ofTree (by decide) (by decide +kernel)
    (by decide +kernel) (by decide +kernel) (by rintro loc run ⟨⟩)
  refine succeeds_ofTree hready (by decide +kernel) (by decide +kernel) (by decide +kernel)
    (by decide +kernel) (by decide +kernel) (fun r hr => ?_) (by decide +kernel :
      overlaidExport.1 = .ok ⟨0, 2, 0⟩)
  rcases List.mem_cons.mp hr with rfl | hr
  · exact ⟨["a"], by decide +kernel, by decide⟩
  · rw [List.mem_singleton.mp hr]
    exact ⟨["b"], by decide +kernel, by decide⟩

/-- A request for a path below the root of the server. -/
def plainRequest (path : String) : ContentRequest where
  mount := "/"
  path := path
  since := none

theorem overlaid_asks : (plainRequest "/f.txt").Asks "f.txt" :=
  ⟨by decide +kernel, rfl⟩

theorem overlaid_first : ∃ b last m,
    overlaidHost.tree.bytesAt overlaidHost.directory (descend ⟨"a"⟩ ["f.txt"]) = .ok b ∧
      (Content.ofRoots [⟨"a"⟩, ⟨"b"⟩] default default).Serves (plainRequest "/f.txt") overlaidHost b ∧
      LastSource overlaidHost [⟨"a"⟩, ⟨"b"⟩] [] "f.txt" last m ∧
      ∀ b', overlaidExport.2.2.2.Holds b' ["out", "f.txt"] ↔
        Compiler.Gives ⟨default, default⟩ overlaidHost (Kind.ofName m) (descend last [m]) b' := by
  have hp : Produces overlaidHost ⟨"a"⟩ [] "f.txt" "f.txt" :=
    ⟨by decide, by decide +kernel, by decide +kernel⟩
  have hsteady : ∀ r m, LastSource overlaidHost [⟨"a"⟩, ⟨"b"⟩] [] "f.txt" r m →
      SteadySource overlaidHost ((makeDestination ⟨"out"⟩).runOn overlaidHost).2 ["out"]
        ⟨default, default⟩ (descend r ([] ++ [m])) := by
    intro r m hlast hcompiled
    rw [overlaid_succeeds.kind hlast.mem hlast.produces] at hcompiled
    exact absurd (hlast.produces.plain (by decide +kernel)).2 hcompiled
  have hroots : [(⟨"a"⟩ : Path), ⟨"b"⟩] = [] ++ ⟨"a"⟩ :: [⟨"b"⟩] := rfl
  simpa only [List.nil_append, List.cons_append] using
    overlaid_succeeds.plain_overlap hroots hp (by simp) hsteady overlaid_asks

/-- The file of the first root is served, and that of the last root is exported. -/
theorem overlaid_differs : Succeeds [⟨"a"⟩, ⟨"b"⟩] default default ⟨"out"⟩ overlaidHost ["out"]
      ((makeDestination ⟨"out"⟩).runOn overlaidHost).2 overlaidExport.2.2.1
      overlaidExport.2.2.2 ∧
    (Content.ofRoots [⟨"a"⟩, ⟨"b"⟩] default default).Serves (plainRequest "/f.txt") overlaidHost [1] ∧
    overlaidExport.2.2.2.Holds [2] ["out", "f.txt"] ∧
    ¬ overlaidExport.2.2.2.Holds [1] ["out", "f.txt"] := by
  have hplace : overlaidExport.2.2.2.tree.get? ["out", "f.txt"] = some (plainFile [2]) := by
    decide +kernel
  refine ⟨overlaid_succeeds, Content.serves_of_eq (by decide +kernel) (by decide +kernel),
    ⟨_, hplace, rfl⟩, ?_⟩
  rintro ⟨f, hf, hbytes⟩
  rw [hplace] at hf
  cases hf
  cases hbytes

/-! ## §3 Sources under one root -/

theorem join_injective {p : Path} {m m' : String} (hp : p.text ≠ "") (hm : '/' ∉ m.toList)
    (hm' : '/' ∉ m'.toList) (h : p.join m = p.join m') : m = m' := by
  have hsteps := Path.steps_join hp hm
  rw [h, Path.steps_join hp hm', List.append_cancel_left_eq, List.cons.injEq] at hsteps
  exact hsteps.1.symm

theorem Produces.eq_of_path {m : String} (hroot : root.text ≠ "") (hp : Produces h root dir o n)
    (hm : Tree.IsPart m) (heq : descend root (dir ++ [m]) = descend root (dir ++ [n])) : m = n := by
  have hdir : ∀ k ∈ dir, IsName k := fun k hk => hp.isName k (List.mem_append_left _ hk)
  rw [Path.descend_concat, Path.descend_concat] at heq
  exact join_injective ((Tree.Spells.descend hroot).ne_empty hroot hdir) hm.no_slash
    (hp.isName n (by simp)).no_slash heq

theorem append_lt {s a b : String} (hlt : a < b) : s ++ a < s ++ b := by
  rw [String.lt_iff_toList_lt, String.toList_append, String.toList_append]
  exact List.append_left_lt (String.lt_iff_toList_lt.mp hlt)

/-- Where the order in which a server looks for the sources of an output and the order of their names
    end at different files. -/
inductive Clash (h : Host) (root : Path) (dir : List String) (o : String) : Prop where
  /-- A source of the output has a greater name than the file that is served as it is. -/
  | greater {m : String} (hfile : h.tree.isFile h.directory (descend root (dir ++ [o])) = true)
      (hm : Produces h root dir o m) (hlt : o < m)
  /-- The file that is served as it is exported under another name, or not at all. -/
  | raw (hfile : h.tree.isFile h.directory (descend root (dir ++ [o])) = true)
      (hkind : Kind.ofName o ≠ .passthrough)
  /-- The component is looked for first, and the source of the typed superset has a greater name. -/
  | scripts {s : String} (hname : o = s ++ ".js")
      (hdirect : h.tree.isFile h.directory (descend root (dir ++ [o])) = false)
      (hcomponent : h.tree.isFile h.directory (descend root (dir ++ [s ++ ".main.jsx"])) = true)
      (htyped : h.tree.isFile h.directory (descend root (dir ++ [s ++ ".main.ts"])) = true)

/-- Of the endings of two candidates of an output, the later one is greater for a component and a
    source of the typed superset only. -/
theorem pairwise_candidates (out : Output) : out.candidates.Pairwise fun k k' =>
    ∀ a ∈ k.suffix?, ∀ b ∈ k'.suffix?, b < a ∨ (out = .script ∧ a = ".main.jsx" ∧ b = ".main.ts") := by
  cases out <;> decide

theorem extension_injective {s s' : String} (out out' : Output)
    (h : s ++ out.extension = s' ++ out'.extension) : out = out' ∧ s = s' := by
  have hout := Resolve.ofText?_append s out
  rw [h, Resolve.ofText?_append, Option.some.injEq] at hout
  subst hout
  have hstem := Kind.stem?_iff.mpr h
  rw [Kind.stem?_iff.mpr rfl] at hstem
  exact ⟨rfl, Option.some.inj hstem⟩

theorem FirstFile.eq_of_single {names : List String} {r : Path}
    (hfirst : Resolve.FirstFile h [root] names r) : r = root := by
  obtain ⟨-, before, later, hroots, -⟩ := hfirst
  have hmem : r ∈ [root] := by
    rw [hroots]
    simp
  exact List.mem_singleton.mp hmem

/-- The file that answers directly is the one that is exported last, unless the orders clash. -/
theorem direct_iff (hfile : h.tree.isFile h.directory (descend root (dir ++ [o])) = true)
    (hroot : root.text ≠ "") (hp : Produces h root dir o n)
    (hgreatest : ∀ m, Produces h root dir o m → m ≤ n) :
    (.passthrough = Kind.ofName n ∧ descend root (dir ++ [o]) = descend root (dir ++ [n])) ↔
      ¬ Clash h root dir o := by
  have ho := hp.isPart o (by simp)
  constructor
  · rintro ⟨hkind, hpath⟩ hclash
    have hn := hp.eq_of_path hroot ho hpath
    subst hn
    cases hclash with
    | greater _ hm hlt => exact absurd hlt (not_lt.mpr (hgreatest _ hm))
    | raw _ hraw => exact hraw hkind.symm
    | scripts _ hdirect _ _ =>
      rw [hfile] at hdirect
      cases hdirect
  · intro hclash
    have hkind : Kind.ofName o = .passthrough := by
      by_contra hraw
      exact hclash (.raw hfile hraw)
    -- the file is a source of the output itself
    have hself : Produces h root dir o o := by
      refine ⟨fun m hm => ?_, hfile, Kind.exportName?_iff.mpr (.inl ⟨hkind, rfl⟩)⟩
      rcases List.mem_append.mp hm with hm | hm
      · exact hp.isName m (List.mem_append_left _ hm)
      · rw [List.mem_singleton.mp hm]
        exact Kind.exportName?_isName (hp.isName n (by simp)) hp.exported
    have hle : n ≤ o := not_lt.mp fun hlt => hclash (.greater hfile hp hlt)
    rw [le_antisymm hle (hgreatest o hself), hkind]
    exact ⟨rfl, rfl⟩

/-- The component is the first candidate for a script, so it answers if it is there. -/
theorem eq_component_of_isFile {k : Kind} {s : String} {earlier later : List Kind}
    (hcandidates : Output.script.candidates = earlier ++ k :: later)
    (hearlier : ∀ k' ∈ earlier, ∀ suffix', k'.suffix? = some suffix' →
      h.tree.isFile h.directory (descend root (dir ++ [s ++ suffix'])) = false)
    (hcomponent : h.tree.isFile h.directory (descend root (dir ++ [s ++ ".main.jsx"])) = true) :
    k = .component := by
  cases earlier with
  | nil => exact (List.cons.inj hcandidates).1.symm
  | cons k' rest =>
    have hk' := (List.cons.inj hcandidates).1
    have hnone := hearlier k' List.mem_cons_self ".main.jsx" (by rw [← hk']; rfl)
    rw [hcomponent] at hnone
    cases hnone

/-- The first candidate is the one that is exported last, unless the orders clash. -/
theorem candidate_iff {k : Kind} {s suffix : String} {out : Output} {earlier later : List Kind}
    (hdirect : h.tree.isFile h.directory (descend root (dir ++ [s ++ out.extension])) = false)
    (hcandidates : out.candidates = earlier ++ k :: later) (hsuffix : k.suffix? = some suffix)
    (hearlier : ∀ k' ∈ earlier, ∀ suffix', k'.suffix? = some suffix' →
      h.tree.isFile h.directory (descend root (dir ++ [s ++ suffix'])) = false)
    (hfile : h.tree.isFile h.directory (descend root (dir ++ [s ++ suffix])) = true)
    (hroot : root.text ≠ "") (hp : Produces h root dir (s ++ out.extension) n)
    (hgreatest : ∀ m, Produces h root dir (s ++ out.extension) m → m ≤ n) :
    (k = Kind.ofName n ∧ descend root (dir ++ [s ++ suffix]) = descend root (dir ++ [n])) ↔
      ¬ Clash h root dir (s ++ out.extension) := by
  have hdir : ∀ m ∈ dir, IsName m := fun m hm => hp.isName m (List.mem_append_left _ hm)
  have hslash : '/' ∉ s.toList := (hp.isPart (s ++ out.extension) (by simp)).stem_no_slash
  have hproduces : ∀ (k' : Kind) {suffix' : String}, k' ∈ out.candidates →
      k'.suffix? = some suffix' →
      h.tree.isFile h.directory (descend root (dir ++ [s ++ suffix'])) = true →
      Produces h root dir (s ++ out.extension) (s ++ suffix') := fun k' _ hmem hs hthere =>
    produces_of_candidate hroot hdir hslash hs (Kind.mem_candidates_iff.mp hmem) hthere
  have hk : k ∈ out.candidates := by
    rw [hcandidates]
    simp
  constructor
  · rintro ⟨-, hpath⟩ hclash
    have hn := hp.eq_of_path hroot (Kind.isPart_append hsuffix hslash) hpath
    cases hclash with
    | greater hthere _ _ =>
      rw [hdirect] at hthere
      cases hthere
    | raw hthere _ =>
      rw [hdirect] at hthere
      cases hthere
    | @scripts s' hname _ hcomponent htyped =>
      obtain ⟨rfl, rfl⟩ := extension_injective out .script hname
      obtain rfl := eq_component_of_isFile hcandidates hearlier hcomponent
      cases hsuffix
      -- the typed source is exported after the component, by its name
      have hts := hgreatest _ (hproduces .typedSuperset (by decide) rfl htyped)
      rw [← hn] at hts
      exact absurd (append_lt (s := s) (by decide : ".main.jsx" < ".main.ts")) (not_lt.mpr hts)
  · intro hclash
    rcases Kind.exportName?_iff.mp hp.exported with ⟨-, heq⟩ | ⟨k₁, suffix₁, out₁, s₁, hs₁, ho₁, rfl, heq⟩
    · have hthere := hp.isFile
      rw [← heq, hdirect] at hthere
      cases hthere
    obtain ⟨rfl, rfl⟩ := extension_injective _ _ heq
    have hmem := Kind.mem_candidates_iff.mpr ho₁
    have hpairwise := pairwise_candidates out
    rw [hcandidates] at hmem hpairwise
    rcases List.mem_append.mp hmem with hmem | hmem
    · have hnone := hearlier k₁ hmem suffix₁ hs₁
      rw [hp.isFile] at hnone
      cases hnone
    rcases List.mem_cons.mp hmem with rfl | hmem
    · rw [hsuffix] at hs₁
      cases hs₁
      exact ⟨(Kind.ofName_append hsuffix s).symm, rfl⟩
    · -- a later candidate has a smaller name, but for the one pair that clashes
      have hpair := (List.pairwise_cons.mp (List.pairwise_append.mp hpairwise).2.1).1 k₁ hmem
      rcases hpair suffix hsuffix suffix₁ hs₁ with hlt | ⟨rfl, rfl, rfl⟩
      · exact absurd (append_lt hlt) (not_lt.mpr (hgreatest _ (hproduces k hk hsuffix hfile)))
      · exact absurd (.scripts rfl hdirect hfile hp.isFile) hclash

/-- The file that answers is the one that is exported last, unless the two orders clash. -/
theorem answer_iff {k : Kind} {source : Path} (hanswers : Resolve.Answers h [root] dir o k source)
    (hroot : root.text ≠ "") (hp : Produces h root dir o n)
    (hgreatest : ∀ m, Produces h root dir o m → m ≤ n) :
    (k = Kind.ofName n ∧ source = descend root (dir ++ [n])) ↔ ¬ Clash h root dir o := by
  cases hanswers with
  | direct hfirst =>
    have hr := FirstFile.eq_of_single hfirst
    subst hr
    exact direct_iff hfirst.isFile hroot hp hgreatest
  | compiled hname hdirect hcandidates hsuffix hearlier hfirst =>
    have hr := FirstFile.eq_of_single hfirst
    subst hr hname
    exact candidate_iff (hdirect _ (by simp)).file hcandidates hsuffix
      (fun k' hk' suffix' hs => hearlier k' hk' suffix' hs _ (by simp)) hfirst.isFile hroot hp
      hgreatest

namespace Succeeds

/-- What answers for an output of a single root gives some bytes. -/
theorem gives_answer {k : Kind} {source : Path}
    (hx : Succeeds [root] settings tools dest h D made after h') (hp : Produces h root dir o n)
    (hsteady : ∀ m, Produces h root dir o m →
      SteadySource h made D ⟨tools, settings⟩ (descend root (dir ++ [m])))
    (hanswers : Resolve.Answers h [root] dir o k source) :
    ∃ b, Compiler.Gives ⟨tools, settings⟩ h k source b := by
  have hroot : root.text ≠ "" := by
    obtain ⟨R, hstat, -⟩ := hx.sources root (by simp)
    exact Tree.ne_empty_of_stat hstat
  cases hanswers with
  | direct hfirst =>
    obtain ⟨b, hb⟩ := bytesAt_of_isFile hfirst.isFile
    exact ⟨b, Compiler.gives_passthrough.mpr hb⟩
  | @compiled r k s suffix out earlier later hname hdirect hcandidates hsuffix hearlier hfirst =>
    have hr := FirstFile.eq_of_single hfirst
    subst hr hname
    have hslash : '/' ∉ s.toList := (hp.isPart (s ++ out.extension) (by simp)).stem_no_slash
    have hout : k.output? = some out := Kind.mem_candidates_iff.mp (by rw [hcandidates]; simp)
    -- the source that answers compiles into the output, so the export has compiled it
    have hself := produces_of_candidate hroot (fun m hm => hp.isName m (List.mem_append_left _ hm))
      hslash hsuffix hout hfirst.isFile
    have hgives := hx.gives (by simp) hself (hsteady _ hself)
    rwa [Kind.ofName_append hsuffix] at hgives

/-- Of several sources of one output under a single root, the answering file is served and the one
    with the greatest name is exported. These are the same file unless the two orders clash. -/
theorem kind_overlap (hx : Succeeds [root] settings tools dest h D made after h')
    (hp : Produces h root dir o n)
    (hsteady : ∀ m, Produces h root dir o m →
      SteadySource h made D ⟨tools, settings⟩ (descend root (dir ++ [m])))
    (hasks : request.Asks ("/".intercalate (dir ++ [o]))) :
    ∃ k source b m, Resolve.Answers h [root] dir o k source ∧
      Compiler.Gives ⟨tools, settings⟩ h k source b ∧
      (Content.ofRoots [root] settings tools).Serves request h b ∧
      Produces h root dir o m ∧ (∀ m', Produces h root dir o m' → m' ≤ m) ∧
      (∀ b', h'.Holds b' (D ++ (dir ++ [o])) ↔
        Compiler.Gives ⟨tools, settings⟩ h (Kind.ofName m) (descend root (dir ++ [m])) b') ∧
      ((k = Kind.ofName m ∧ source = descend root (dir ++ [m])) ↔ ¬ Clash h root dir o) := by
  have hroot : root.text ≠ "" := by
    obtain ⟨R, hstat, -⟩ := hx.sources root (by simp)
    exact (Tree.find_ok (Tree.stat_ok_iff.mp hstat)).2.1
  obtain ⟨k, source, hanswers⟩ := hp.exists_answer (hx.index_absent (by simp) hp (by simp))
  obtain ⟨b, hb⟩ := hx.gives_answer hp hsteady hanswers
  obtain ⟨m, hm, hgreatest⟩ := hp.exists_greatest
  have hlast : LastSource h [root] dir o root m := ⟨hm, hgreatest, [], [], rfl, by simp⟩
  exact ⟨k, source, b, m, hanswers, hb, Content.serves_answer hanswers hp.isPart hb hasks, hm,
    hgreatest, fun b' => hx.holds_iff hlast (hsteady m hm), answer_iff hanswers hroot hm hgreatest⟩

end Succeeds

/-- A plain script beside a component of the same output. -/
def crowded : Tree :=
  ⟨[(["bin"], .directory), (["bin", "tool"], executableFile), (["site"], .directory),
    (["site", "app.js"], plainFile [1]), (["site", "app.main.jsx"], plainFile []),
    (["tmp"], .directory)]⟩

/-- A host with two sources of one output under a root. -/
def crowdedHost : Host :=
  .ofTree crowded (installed (.printing [2]))

/-- What an export of the root leads to. -/
def crowdedExport : Except Failure Report × List Progress × Content × Host :=
  (Content.ofRoots [⟨"site"⟩] default oneTool).exportTo ⟨"out"⟩ crowdedHost

/-- That host as one that is ready. -/
def crowdedReady : {h : Host // h.Ready} where
  val := crowdedHost
  property := Host.ready_ofTree (by decide) (by decide +kernel) (by decide +kernel) (by decide +kernel)
    fun loc run hrun => installed_eq hrun ▸ (Program.printing_blind [2]).confined ["tmp"]

theorem crowded_ready : crowdedHost.Ready :=
  crowdedReady.property

theorem crowded_succeeds : Succeeds [⟨"site"⟩] default oneTool ⟨"out"⟩ crowdedHost ["out"]
    ((makeDestination ⟨"out"⟩).runOn crowdedHost).2 crowdedExport.2.2.1 crowdedExport.2.2.2 := by
  refine succeeds_ofTree crowded_ready (by decide +kernel) (by decide +kernel) (by decide +kernel)
    (by decide +kernel) (by decide +kernel) (fun r hr => ?_) (by decide +kernel :
      crowdedExport.1 = .ok ⟨1, 1, 0⟩)
  rw [List.mem_singleton.mp hr]
  exact ⟨["site"], by decide +kernel, by decide⟩

theorem crowded_steady (m : String) (hm : Produces crowdedHost ⟨"site"⟩ [] "app.js" m) :
    SteadySource crowdedHost ((makeDestination ⟨"out"⟩).runOn crowdedHost).2 ["out"]
      ⟨oneTool, default⟩ (descend ⟨"site"⟩ ([] ++ [m])) := by
  have hmem := hm.mem_names crowded_ready (by decide +kernel)
    (Tree.linkFree_of_entries (by decide +kernel) ["site"])
  have hnames : crowdedHost.tree.names (["site"] ++ []) = ["app.js", "app.main.jsx"] := by
    decide +kernel
  rw [hnames] at hmem
  intro hcompiled
  rcases List.mem_cons.mp hmem with rfl | hmem
  · exact absurd (by decide +kernel) hcompiled
  · rw [List.mem_singleton.mp hmem]
    have hkind : Kind.ofPath (descend ⟨"site"⟩ ([] ++ ["app.main.jsx"])) = .component := by
      decide +kernel
    rw [hkind]
    exact steady_of_blind ⟨"/bin/tool"⟩ (hidden_vacates crowded_ready crowded_succeeds.absent) rfl rfl
      (fun loc run hrun => installed_eq hrun ▸ Program.printing_blind [2]) (by decide +kernel)
      (by decide +kernel) (by decide) (by decide +kernel) (by decide +kernel)

theorem crowded_sources : ∃ k source b m,
    Resolve.Answers crowdedHost [⟨"site"⟩] [] "app.js" k source ∧
      Compiler.Gives ⟨oneTool, default⟩ crowdedHost k source b ∧
      (Content.ofRoots [⟨"site"⟩] default oneTool).Serves (plainRequest "/app.js")
        crowdedHost b ∧
      Produces crowdedHost ⟨"site"⟩ [] "app.js" m ∧
      (∀ m', Produces crowdedHost ⟨"site"⟩ [] "app.js" m' → m' ≤ m) ∧
      (∀ b', crowdedExport.2.2.2.Holds b' ["out", "app.js"] ↔
        Compiler.Gives ⟨oneTool, default⟩ crowdedHost (Kind.ofName m)
          (descend ⟨"site"⟩ [m]) b') ∧
      ((k = Kind.ofName m ∧ source = descend ⟨"site"⟩ [m]) ↔
        ¬ Clash crowdedHost ⟨"site"⟩ [] "app.js") := by
  have hp : Produces crowdedHost ⟨"site"⟩ [] "app.js" "app.js" :=
    ⟨by decide, by decide +kernel, by decide +kernel⟩
  have hasks : (plainRequest "/app.js").Asks "app.js" := ⟨by decide +kernel, rfl⟩
  simpa only [List.nil_append, List.cons_append] using
    crowded_succeeds.kind_overlap hp crowded_steady hasks

/-- The script is served as it is, and what the component compiles to is exported. -/
theorem crowded_differs : Succeeds [⟨"site"⟩] default oneTool ⟨"out"⟩ crowdedHost ["out"]
      ((makeDestination ⟨"out"⟩).runOn crowdedHost).2 crowdedExport.2.2.1 crowdedExport.2.2.2 ∧
    (∀ m, Produces crowdedHost ⟨"site"⟩ [] "app.js" m →
      SteadySource crowdedHost ((makeDestination ⟨"out"⟩).runOn crowdedHost).2 ["out"]
        ⟨oneTool, default⟩ (descend ⟨"site"⟩ [m])) ∧
    (Content.ofRoots [⟨"site"⟩] default oneTool).Serves (plainRequest "/app.js") crowdedHost
      [1] ∧
    crowdedExport.2.2.2.Holds [2] ["out", "app.js"] ∧
    ¬ crowdedExport.2.2.2.Holds [1] ["out", "app.js"] := by
  have hplace : crowdedExport.2.2.2.tree.get? ["out", "app.js"] = some (plainFile [2]) := by
    decide +kernel
  refine ⟨crowded_succeeds, crowded_steady, Content.serves_of_eq (by decide +kernel)
    (by decide +kernel), ⟨_, hplace, rfl⟩, ?_⟩
  rintro ⟨f, hf, hbytes⟩
  rw [hplace] at hf
  cases hf
  cases hbytes

end Export

end AssetServer
