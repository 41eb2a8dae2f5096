import AssetServer.Proofs.Rooted

/-!
# Sources and what is requested in their place

A compiled source has one output, and what is requested under the name of that output is looked for
under the name of the source again.

- `Path.components_join` and `Path.parent_join`: a name at the end of a path is a step of its own,
  so it can be replaced (`Path.withFileName_alike`).
- `Path.Clean`: relative paths without empty steps, `.` and `..`; `RequestPath.below?_clean` and
  `RequestPath.below?_append` say that those are what a mount point leads to.
- `Kind.outputName?_append`: on a clean path, an output has the name of its source but for the ending.
- `Resolve.corresponds`: names of outputs and resolution are inverse to each other.
-/

namespace AssetServer

/-! ## §1 Replacing a name at the end of a path -/

namespace Path

/-- A text that starts with a step has no lead. -/
theorem lead_of_step {part : List Char} (hstep : isStep part = true) (hslash : '/' ∉ part)
    (rest : List Char) : lead (part ++ rest) = ([], part ++ rest) := by
  cases part with
  | nil => cases hstep
  | cons c part =>
    rw [List.mem_cons, not_or] at hslash
    unfold lead
    split
    · rename_i hcs
      exact absurd (List.cons.inj hcs).1.symm hslash.1
    · rename_i hcs
      obtain ⟨rfl, hnil⟩ := List.cons.inj hcs
      rw [(List.append_eq_nil_iff.mp hnil).1] at hstep
      cases hstep
    · rename_i hcs
      obtain ⟨rfl, hmore⟩ := List.cons.inj hcs
      cases part with
      | nil => cases hstep
      | cons d part =>
        have hd : d = '/' := (List.cons.inj hmore).1
        exact absurd (by rw [hd]; exact List.mem_cons_self) hslash.2
    · rfl

variable {p : Path} {n m : String}

theorem isStep_isPart (hn : Tree.IsPart n) : isStep n.toList = true := by
  have hempty : n.toList ≠ [] := fun h => hn.step (.inl (String.toList_inj.mp h))
  have hhere : n.toList ≠ ['.'] := fun h => hn.step (.inr (String.toList_inj.mp h))
  simp [isStep, hempty, hhere]

theorem ofPart_isPart (hn : Tree.IsPart n) : Component.ofPart n.toList = .name n := by
  have hup : n.toList ≠ ['.', '.'] := fun h => hn.down (String.toList_inj.mp h)
  simp [Component.ofPart, hup]

theorem lead_isPart (hn : Tree.IsPart n) : lead n.toList = ([], n.toList) := by
  simpa using lead_of_step (isStep_isPart hn) hn.no_slash []

theorem stepsOf_isPart (hn : Tree.IsPart n) : stepsOf n.toList = [n.toList] := by
  unfold stepsOf
  rw [Text.split_of_not_mem hn.no_slash]
  simp [isStep_isPart hn]

theorem join_empty (hn : '/' ∉ n.toList) : (⟨""⟩ : Path).join n = ⟨n⟩ := by
  unfold join
  rw [if_neg (name_head hn)]
  simp

theorem anchor_eq {q : Path} (h : (lead q.text.toList).1 = (lead p.text.toList).1) :
    q.anchor = p.anchor := by
  unfold anchor
  rw [h]

/-- The steps of a relative path go on from those of the path that it is joined to. -/
theorem components_join_relative {rest : String} (hrest : rest.toList.head? ≠ some '/')
    (hp : p.text ≠ "") : (p.join rest).components =
      p.components ++ (stepsOf rest.toList).map Component.ofPart := by
  have htext := join_trunk hrest hp
  have hne : p.text.toList ≠ [] := by simpa using hp
  have hsteps : stepsOf (p.join rest).text.toList =
      stepsOf p.text.toList ++ stepsOf rest.toList := by
    rw [htext, ← stepsOf_trunk p.text.toList]
    unfold stepsOf
    rw [Text.split_append, List.filter_append]
  have hanchor : (p.join rest).anchor = p.anchor :=
    anchor_eq (by rw [htext, lead_trunk_append hne])
  rw [components_eq, components_eq, hsteps, hanchor, List.map_append, List.append_assoc]

/-- A joined name is one more component. -/
theorem components_join (p : Path) (hn : Tree.IsPart n) :
    (p.join n).components = p.components ++ [.name n] := by
  by_cases hp : p.text = ""
  · obtain rfl : p = ⟨""⟩ := congrArg Path.mk hp
    rw [join_empty hn.no_slash, components_eq, components_eq, stepsOf_isPart hn]
    have hanchor : (⟨n⟩ : Path).anchor = [] := by
      unfold anchor
      rw [lead_isPart hn]
    rw [hanchor, List.map_singleton, ofPart_isPart hn]
    rfl
  · rw [components_join_relative (name_head hn.no_slash) hp, stepsOf_isPart hn, List.map_singleton,
      ofPart_isPart hn]

/-- Cutting a path after its last step does not change its lead. -/
theorem lead_ofParts {cs : List Char} (hne : cs ≠ []) :
    (lead (ofParts (lead cs).1 (trimParts (Text.split '/' (lead cs).2))).text.toList).1 =
      (lead cs).1 := by
  obtain ⟨junk, hsplit, hjunk⟩ := trimParts_append (Text.split '/' (lead cs).2)
  have hlast : ∀ part, (trimParts (Text.split '/' (lead cs).2)).getLast? = some part →
      isStep part = true := fun part => trimParts_last
  have hslash : ∀ part ∈ Text.split '/' (lead cs).2, '/' ∉ part :=
    fun part hpart => Text.not_mem_of_mem_split hpart
  generalize trimParts (Text.split '/' (lead cs).2) = trimmed at hsplit hlast ⊢
  have htext : (ofParts (lead cs).1 trimmed).text.toList =
      (lead cs).1 ++ Text.unite '/' trimmed := String.toList_ofList
  rw [htext]
  rcases lead_cases cs with hstart | hstart | ⟨hstart, hrest⟩
  · rw [hstart]
    rfl
  · rw [hstart]
    cases trimmed with
    | nil => rfl
    | cons first rest =>
      -- the first part is empty, so it is not the last
      obtain ⟨more, hempty⟩ := split_of_lead_dot hstart
      obtain rfl : [] = first := (List.cons.inj (hempty.symm.trans hsplit)).1
      cases rest with
      | nil => cases hlast [] rfl
      | cons next more => rfl
  · rw [hstart, List.nil_append]
    obtain ⟨first, parts, hparts⟩ := List.exists_cons_of_ne_nil (Text.split_ne_nil '/' cs)
    have hfirst := isStep_of_lead_nil hne hstart hparts
    rw [hrest] at hsplit hslash
    rw [hparts] at hsplit hslash
    cases trimmed with
    | nil =>
      have hnot := hjunk first (by rw [← List.nil_append junk, ← hsplit]; simp)
      rw [hfirst] at hnot
      cases hnot
    | cons first' rest =>
      obtain rfl : first = first' := (List.cons.inj hsplit).1
      cases rest with
      | nil =>
        have hlead := lead_of_step hfirst (hslash first (by simp)) []
        rw [List.append_nil] at hlead
        rw [Text.unite, hlead]
      | cons next more =>
        rw [Text.unite, lead_of_step hfirst (hslash first (by simp)) _]

/-- The parent of a path with a joined name has the components of the path. -/
theorem parent_join (p : Path) (hn : Tree.IsPart n) :
    (p.join n).fileName = some n ∧
      ∃ q, (p.join n).parent = some q ∧ q.components = p.components := by
  have hup : n.toList ≠ ['.', '.'] := fun h => hn.down (String.toList_inj.mp h)
  have hsingle : Text.split '/' n.toList = [n.toList] := Text.split_of_not_mem hn.no_slash
  have hone : trimParts [n.toList] = [n.toList] := @trimParts_concat [] _ (isStep_isPart hn)
  -- joining to the empty path puts no slash in front
  by_cases hp : p.text = ""
  · obtain rfl : p = ⟨""⟩ := congrArg Path.mk hp
    have hparts : ((⟨""⟩ : Path).join n).parts = [n.toList] := by
      unfold parts
      rw [join_empty hn.no_slash, lead_isPart hn, hsingle, hone]
    refine ⟨?_, ⟨""⟩, ?_, rfl⟩
    · unfold fileName
      rw [hparts]
      simp [hup]
    · unfold parent
      rw [hparts, join_empty hn.no_slash, lead_isPart hn]
      rfl
  · obtain ⟨hname, hcases⟩ := parent_join_cases hp hn.no_slash (isStep_isPart hn) hup
    refine ⟨hname, ?_⟩
    rcases hcases with ⟨rfl, hparent⟩ | ⟨hroot, hparent⟩
    · exact ⟨⟨"/"⟩, hparent, rfl⟩
    · have hne : p.text.toList ≠ [] := by simpa using hp
      obtain ⟨-, -, -, hsteps⟩ := exists_ofParts_trimParts hroot
      have hsame : (lead (trunk p.text.toList)).1 = (lead p.text.toList).1 := by
        rw [← lead_trunk_append hne n.toList, lead_append_slash hroot n.toList]
      refine ⟨_, hparent, ?_⟩
      rw [components_eq, components_eq, hsteps, stepsOf_trunk,
        anchor_eq ((lead_ofParts hroot).trans hsame)]

/-- A name at the end of a path can be replaced: what comes before it stays. -/
theorem withFileName_alike (p : Path) (hn : Tree.IsPart n) (hm : Tree.IsPart m) :
    ((p.join n).withFileName m).alike (p.join m) = true := by
  obtain ⟨hname, q, hparent, hq⟩ := parent_join p hn
  have hjoined : (p.join n).withFileName m = q.join m := by
    unfold withFileName
    rw [hname, hparent]
  unfold alike
  rw [hjoined, components_join q hm, components_join p hm, hq, beq_self_eq_true]

/-! ## §2 Clean paths -/

/-- A relative path that is spelled without empty steps, `.` and `..`. -/
def Clean (p : Path) : Prop :=
  ∀ part ∈ Text.parts '/' p.text, Tree.IsPart part

theorem Clean.text_ne_empty (hp : p.Clean) : p.text ≠ "" := by
  intro hempty
  have hpart := hp "" (by rw [hempty]; decide)
  exact hpart.step (.inl rfl)

/-- A path of names is clean. -/
theorem clean_intercalate {names : List String} (hne : names ≠ [])
    (hnames : ∀ m ∈ names, Tree.IsPart m) : Clean ⟨"/".intercalate names⟩ := by
  unfold Clean
  rwa [parts_intercalate hne hnames]

/-- A path is that of its parts. -/
theorem intercalate_parts (text : String) : "/".intercalate (Text.parts '/' text) = text := by
  rw [← String.toList_inj, toList_intercalate]
  have hback : ∀ cs ∈ Text.split '/' text.toList, (String.toList ∘ String.ofList) cs = id cs :=
    fun _ _ => String.toList_ofList
  unfold Text.parts
  rw [List.map_map, List.map_congr_left hback, List.map_id, Text.unite_split]

/-- The parts of any text before an ending without a slash: the last of them goes on with it. -/
theorem exists_parts (stem : String) : ∃ dir s, '/' ∉ s.toList ∧
    ∀ ending : String, '/' ∉ ending.toList →
      Text.parts '/' (stem ++ ending) = dir ++ [s ++ ending] := by
  obtain ⟨init, last, hlast, hsplit⟩ := Text.exists_split_append '/' stem.toList
  refine ⟨init.map String.ofList, String.ofList last, by rwa [String.toList_ofList],
    fun ending hending => ?_⟩
  unfold Text.parts
  rw [String.toList_append, hsplit _ hending, List.map_append, List.map_singleton]
  congr 2
  rw [← String.toList_inj]
  simp

/-- Names with a slash between each two have no slash at their end. -/
theorem getLast?_intercalate {names : List String} (hnames : ∀ m ∈ names, Tree.IsPart m) :
    ("/".intercalate names).toList.getLast? ≠ some '/' := by
  intro hend
  have hne : names ≠ [] := by
    rintro rfl
    cases hend
  have hsplit := (split_of_getLast hend).2
  have hmem : "" ∈ Text.parts '/' ("/".intercalate names) := by
    unfold Text.parts
    rw [hsplit]
    simp
  rw [parts_intercalate hne hnames] at hmem
  exact (hnames "" hmem).step (.inl rfl)

theorem join_names {dir : List String} (hdir : ∀ m ∈ dir, Tree.IsPart m) (hn : Tree.IsPart n) :
    (⟨"/".intercalate dir⟩ : Path).join n = ⟨"/".intercalate (dir ++ [n])⟩ := by
  cases dir with
  | nil =>
    rw [List.nil_append, String.intercalate_singleton]
    exact join_empty hn.no_slash
  | cons m rest =>
    have hne : (⟨"/".intercalate (m :: rest)⟩ : Path).text ≠ "" :=
      (clean_intercalate (by simp) hdir).text_ne_empty
    have htext : ((⟨"/".intercalate (m :: rest)⟩ : Path).join n).text =
        "/".intercalate (m :: rest ++ [n]) := by
      rw [← String.toList_inj, join_text (name_head hn.no_slash) hne,
        if_neg (getLast?_intercalate hdir), toList_intercalate, toList_intercalate, List.map_append,
        unite_append (by simp) (by simp)]
      rfl
    exact congrArg Path.mk htext

/-- The parts of a clean path, and that nothing leads it. -/
theorem parts_names {dir : List String} (hnames : ∀ m ∈ dir ++ [n], Tree.IsPart m) :
    (lead ("/".intercalate (dir ++ [n])).toList).1 = [] ∧
      (⟨"/".intercalate (dir ++ [n])⟩ : Path).parts = (dir ++ [n]).map String.toList := by
  have hsplit : Text.split '/' ("/".intercalate (dir ++ [n])).toList =
      (dir ++ [n]).map String.toList := by
    rw [toList_intercalate, Text.split_unite (by simp)]
    intro part hpart
    obtain ⟨m, hm, rfl⟩ := List.mem_map.mp hpart
    exact (hnames m hm).no_slash
  -- the first name is no step that a path may begin with
  have hlead : lead ("/".intercalate (dir ++ [n])).toList =
      ([], ("/".intercalate (dir ++ [n])).toList) := by
    obtain ⟨m, rest, hcons⟩ := List.exists_cons_of_ne_nil (by simp : dir ++ [n] ≠ [])
    have hm := hnames m (by rw [hcons]; exact List.mem_cons_self)
    obtain ⟨more, hmore⟩ : ∃ more, ("/".intercalate (m :: rest)).toList = m.toList ++ more := by
      rw [toList_intercalate]
      cases rest with
      | nil => exact ⟨[], (List.append_nil _).symm⟩
      | cons next rest => exact ⟨_, rfl⟩
    rw [hcons, hmore]
    exact lead_of_step (isStep_isPart hm) hm.no_slash more
  refine ⟨congrArg Prod.fst hlead, ?_⟩
  unfold parts
  rw [hlead, hsplit, List.map_append]
  exact trimParts_concat (isStep_isPart (hnames n (by simp)))

/-- The name at the end of a clean path is replaced by another one. -/
theorem withFileName_names {dir : List String} (hnames : ∀ m ∈ dir ++ [n], Tree.IsPart m)
    (hm : Tree.IsPart m) : (⟨"/".intercalate (dir ++ [n])⟩ : Path).fileName = some n ∧
      (⟨"/".intercalate (dir ++ [n])⟩ : Path).withFileName m = ⟨"/".intercalate (dir ++ [m])⟩ := by
  obtain ⟨hlead, hparts⟩ := parts_names hnames
  have hdir : ∀ m ∈ dir, Tree.IsPart m := fun m hm => hnames m (List.mem_append_left _ hm)
  have hup : n.toList ≠ ['.', '.'] :=
    fun h => (hnames n (by simp)).down (String.toList_inj.mp h)
  have hname : (⟨"/".intercalate (dir ++ [n])⟩ : Path).fileName = some n := by
    unfold fileName
    rw [hparts]
    simp [hup]
  -- nothing is cut off in front of the name, since every name stays
  have htrim : trimParts (dir.map String.toList) = dir.map String.toList := by
    rcases List.eq_nil_or_concat' dir with rfl | ⟨init, last, rfl⟩
    · rfl
    · rw [List.map_append]
      exact trimParts_concat (isStep_isPart (hdir last (by simp)))
  have hparent : (⟨"/".intercalate (dir ++ [n])⟩ : Path).parent =
      some ⟨"/".intercalate dir⟩ := by
    have hdrop : ((dir ++ [n]).map String.toList).dropLast = dir.map String.toList := by simp
    unfold parent
    rw [hparts, hlead]
    split
    · rename_i hnil
      simp at hnil
    · rw [hdrop, htrim]
      have htext : Text.unite '/' (dir.map String.toList) = ("/".intercalate dir).toList :=
        (toList_intercalate dir).symm
      simp only [ofParts, List.nil_append, htext, String.ofList_toList]
  refine ⟨hname, ?_⟩
  unfold withFileName
  rw [hname, hparent]
  exact join_names hdir hm

/-- The names in a clean path lead down from the place that the path is joined to. -/
theorem descend_of_parts {dir : List String} {s : String}
    (hparts : Text.parts '/' p.text = dir ++ [s]) (hp : p.Clean) (root : Path) :
    Resolve.joinRelative root p.text = (Export.descend root dir).join s := by
  unfold Resolve.joinRelative
  rw [List.filter_eq_self.mpr, hparts, ← descend_concat]
  · rfl
  · intro part hpart
    have hne : part ≠ "" := fun hempty => (hp part hpart).step (.inl hempty)
    simpa using hne

end Path

namespace RequestPath

variable {mount path rel : String}

theorem segments_of_clean (hrel : Path.Clean ⟨rel⟩) (mount : List Char) :
    segments (mount ++ '/' :: rel.toList) =
      segments mount ++ (Text.parts '/' rel).map String.toList := by
  have hback : (Text.parts '/' rel).map String.toList = Text.split '/' rel.toList := by
    unfold Text.parts
    simp [Function.comp_def]
  unfold segments
  rw [Text.split_append, List.foldl_append, ← hback, foldl_move hrel, List.reverse_append,
    List.reverse_reverse]

theorem strip?_append (start rest : List Char) : strip? start (start ++ rest) = some rest := by
  unfold strip?
  rw [if_pos (List.isPrefixOf_iff_prefix.mpr (List.prefix_append _ _)), List.drop_left]

theorem unite_segments_ne_nil {path : List Char} (hne : segments path ≠ []) :
    Text.unite '/' (segments path) ≠ [] := by
  obtain ⟨part, hpart⟩ := List.exists_mem_of_ne_nil _ hne
  refine Path.unite_ne_nil hpart ?_
  rintro rfl
  exact (isPart_of_segments hpart).step (.inl rfl)

/-- Below a mount point, a clean path that follows it leads to itself. -/
theorem below?_append (hrel : Path.Clean ⟨rel⟩) (mount : String) :
    below? mount (mount ++ "/" ++ rel) = some rel := by
  have hunite : Text.unite '/' ((Text.parts '/' rel).map String.toList) = rel.toList := by
    rw [← Path.toList_intercalate, Path.intercalate_parts]
  have hparts : (Text.parts '/' rel).map String.toList ≠ [] := by
    unfold Text.parts
    simpa using Text.split_ne_nil '/' rel.toList
  have hpath : (clean (mount ++ "/" ++ rel)).toList =
      '/' :: Text.unite '/' (segments mount.toList ++ (Text.parts '/' rel).map String.toList) := by
    have htext : (mount ++ "/" ++ rel).toList = mount.toList ++ '/' :: rel.toList := by
      rw [String.toList_append, String.toList_append, List.append_assoc]
      rfl
    unfold clean
    rw [String.toList_ofList, htext, segments_of_clean hrel]
  have hmount : (clean mount).toList = '/' :: Text.unite '/' (segments mount.toList) :=
    String.toList_ofList
  unfold below?
  simp only [hpath, hmount]
  -- a mount point without names is the slash that the path begins with
  by_cases hroot : segments mount.toList = []
  · have hslash : '/' :: Text.unite '/' [] = ['/'] := rfl
    rw [hroot, if_pos hslash, List.nil_append, List.drop_one, List.tail_cons, hunite,
      String.ofList_toList]
  · have hmore : '/' :: Text.unite '/' (segments mount.toList) ≠ ['/'] :=
      fun h => unite_segments_ne_nil hroot (List.cons.inj h).2
    have hlonger : '/' :: (Text.unite '/' (segments mount.toList) ++ '/' :: rel.toList) ≠
        '/' :: Text.unite '/' (segments mount.toList) := by
      intro h
      have hlength := congrArg List.length (List.cons.inj h).2
      rw [List.length_append, List.length_cons] at hlength
      omega
    have hrest : '/' :: rel.toList = ['/'] ++ rel.toList := rfl
    rw [Path.unite_append hroot hparts, hunite, if_neg hmore, if_neg hlonger, ← List.cons_append,
      strip?_append, Option.bind_some, hrest, strip?_append, Option.map_some, String.ofList_toList]

/-- The rest of a path below a mount point is clean, unless nothing is left. -/
theorem below?_clean (h : below? mount path = some rel) : rel = "" ∨ Path.Clean ⟨rel⟩ := by
  rcases below?_cases h with hempty | ⟨front, hfront⟩
  · exact .inl hempty
  · have hclean : (clean path).toList = '/' :: Text.unite '/' (segments path.toList) :=
      String.toList_ofList
    have hparts : ∀ part ∈ segments path.toList, Tree.IsPart (String.ofList part) :=
      fun part hpart => isPart_of_segments hpart
    rw [hclean] at hfront
    -- the names are what the part before the slash and the rest are cut into
    have hsplit := congrArg (Text.split '/') hfront
    rw [Text.split_append, Text.split, if_pos rfl] at hsplit
    obtain ⟨first, more, hcons⟩ := List.exists_cons_of_ne_nil (Text.split_ne_nil '/' front)
    rw [hcons, List.cons_append, List.cons.injEq] at hsplit
    by_cases hnil : segments path.toList = []
    · have hempty : [[]] = more ++ Text.split '/' rel.toList := by
        rw [← hsplit.2, hnil]
        rfl
      cases more with
      | nil =>
        have hrel : rel.toList = [] := by
          rw [← Text.unite_split '/' rel.toList, ← List.nil_append (Text.split '/' rel.toList),
            ← hempty]
          rfl
        exact .inl (String.toList_inj.mp hrel)
      | cons last more =>
        have hrest := (List.append_eq_nil_iff.mp (List.cons.inj hempty).2.symm).2
        exact absurd hrest (Text.split_ne_nil '/' rel.toList)
    · right
      rw [Text.split_unite hnil] at hsplit
      · intro part hpart
        obtain ⟨cs, hcs, rfl⟩ := List.mem_map.mp hpart
        exact hparts cs (by rw [hsplit.2]; exact List.mem_append_right _ hcs)
      · intro part hpart
        have := (hparts part hpart).no_slash
        rwa [String.toList_ofList] at this

end RequestPath

/-! ## §3 Names of outputs -/

namespace Kind

variable {k : Kind} {suffix stem : String} {out : Output}

/-- The output of a clean source has the name of the source but for the ending, and is clean. -/
theorem outputName?_append (hk : k.suffix? = some suffix) (hout : k.output? = some out)
    (hclean : Path.Clean ⟨stem ++ suffix⟩) :
    ofPath ⟨stem ++ suffix⟩ = k ∧
      k.outputName? ⟨stem ++ suffix⟩ = some ⟨stem ++ out.extension⟩ ∧
      Path.Clean ⟨stem ++ out.extension⟩ := by
  obtain ⟨dir, s, hs, hparts⟩ := Path.exists_parts stem
  have hsource := hparts suffix (suffix_no_slash hk)
  have houtput := hparts out.extension out.extension_no_slash
  have hnames : ∀ m ∈ dir ++ [s ++ suffix], Tree.IsPart m := by
    rw [← hsource]
    exact hclean
  have hnames' : ∀ m ∈ dir ++ [s ++ out.extension], Tree.IsPart m := by
    intro m hm
    rcases List.mem_append.mp hm with hm | hm
    · exact hnames m (List.mem_append_left _ hm)
    · rw [List.mem_singleton.mp hm]
      exact out.isPart_append hs
  obtain ⟨hname, hreplaced⟩ := Path.withFileName_names hnames (hnames' (s ++ out.extension) (by simp))
  rw [← hsource, ← houtput, Path.intercalate_parts, Path.intercalate_parts] at hreplaced
  rw [← hsource, Path.intercalate_parts] at hname
  refine ⟨?_, ?_, ?_⟩
  · unfold ofPath
    rw [hname]
    exact ofName_append hk s
  · unfold outputName?
    simp [hname, outputFileName?_append hk hout, hreplaced]
  · unfold Path.Clean
    rwa [houtput]

/-- A clean path of a compiled kind has the ending of that kind. -/
theorem exists_stem {p : Path} (hp : p.Clean) (hk : k.suffix? = some suffix) (hkind : ofPath p = k) :
    ∃ stem, p = ⟨stem ++ suffix⟩ := by
  obtain ⟨dir, n, hparts⟩ : ∃ dir n, Text.parts '/' p.text = dir ++ [n] := by
    have hne : Text.parts '/' p.text ≠ [] := by
      unfold Text.parts
      simpa using Text.split_ne_nil '/' p.text.toList
    exact ⟨_, _, (List.dropLast_concat_getLast hne).symm⟩
  have hnames : ∀ m ∈ dir ++ [n], Tree.IsPart m := by
    rw [← hparts]
    exact hp
  have htext : p = ⟨"/".intercalate (dir ++ [n])⟩ := by
    rw [← hparts, Path.intercalate_parts]
  have hname : p.fileName = some n := by
    rw [htext]
    exact (Path.withFileName_names hnames (hnames n (by simp))).1
  unfold ofPath at hkind
  rw [hname] at hkind
  obtain ⟨s, rfl⟩ := exists_of_ofName hk hkind
  rw [Path.intercalate_concat] at htext
  exact ⟨_, htext⟩

/-- Joined to a root, a source and what is requested in its place stay a source and its output. -/
theorem outputName?_joinRelative (hk : k.suffix? = some suffix) (hout : k.output? = some out)
    (hclean : Path.Clean ⟨stem ++ suffix⟩) (root : Path) :
    ofPath (Resolve.joinRelative root (stem ++ suffix)) = k ∧
      ∃ o, k.outputName? (Resolve.joinRelative root (stem ++ suffix)) = some o ∧
        o.alike (Resolve.joinRelative root (stem ++ out.extension)) = true := by
  obtain ⟨dir, s, hs, hparts⟩ := Path.exists_parts stem
  have hclean' := (outputName?_append hk hout hclean).2.2
  have hsource := hparts suffix (suffix_no_slash hk)
  have houtput := hparts out.extension out.extension_no_slash
  have hn : Tree.IsPart (s ++ suffix) := isPart_append hk hs
  rw [Path.descend_of_parts (p := ⟨stem ++ suffix⟩) hsource hclean,
    Path.descend_of_parts (p := ⟨stem ++ out.extension⟩) houtput hclean']
  have hname := (Path.parent_join (Export.descend root dir) hn).1
  refine ⟨?_, _, ?_, Path.withFileName_alike _ hn (out.isPart_append hs)⟩
  · unfold ofPath
    rw [hname]
    exact ofName_append hk s
  · unfold outputName?
    simp [hname, outputFileName?_append hk hout]

end Kind

/-! ## §4 Requests -/

namespace Resolve

variable {h : Host} {roots : List Path} {mount path rel : String} {root p : Path}

/-- The first root with a hit for a relative path has a file there, and no root before it has
    anything. -/
def Wins (h : Host) (roots : List Path) (rel : String) (root p : Path) : Prop :=
  ∃ before after, roots = before ++ root :: after ∧ (∀ r ∈ before, hit? h r rel = none) ∧
    hit? h root rel = some (p, .file)

theorem exists_wins (hfind : find? h roots rel = some (p, .file)) : ∃ root, Wins h roots rel root p := by
  unfold find? at hfind
  obtain ⟨before, root, after, hroots, hhit, hbefore⟩ := List.findSome?_eq_some_iff.mp hfind
  exact ⟨root, before, after, hroots, hbefore, hhit⟩

/-- A file is hit at the root that wins, followed by the relative path. -/
theorem Wins.eq_joinRelative (hwins : Wins h roots rel root p) : p = joinRelative root rel := by
  obtain ⟨-, -, -, -, hhit⟩ := hwins
  exact (hit?_file_iff.mp hhit).1

/-- What a request finds in place of an output is a source of that output. -/
theorem request?_source {target : Target} (htarget : request? h roots mount path = some target)
    (hkind : target.kind ≠ .passthrough) :
    ∃ (out : Output) (suffix stem : String) (root : Path), target.kind.suffix? = some suffix ∧
      target.kind.output? = some out ∧ RequestPath.below? mount path = some (stem ++ out.extension) ∧
      Path.Clean ⟨stem ++ suffix⟩ ∧ Wins h roots (stem ++ suffix) root target.path := by
  obtain ⟨rel, hbelow, hrelative⟩ := Option.bind_eq_some_iff.mp htarget
  rcases relative?_cases hrelative with ⟨-, hplain, -⟩ | ⟨source, hderives, hfind, -, -⟩
  · exact absurd hplain hkind
  · obtain ⟨root, hwins⟩ := exists_wins hfind
    cases hderives with
    | @replaced out stem suffix _ hout hstem hk hsuffix =>
      rw [Kind.stem?_iff] at hstem
      subst hstem
      refine ⟨out, suffix, stem, root, hsuffix, Kind.mem_candidates_iff.mp hk, hbelow, ?_, hwins⟩
      obtain ⟨dir, s, hs, hparts⟩ := Path.exists_parts stem
      -- the names are those of the request, which is clean, but for the ending of the last one
      rcases RequestPath.below?_clean hbelow with hempty | hclean
      · cases out <;> simp [Output.extension] at hempty
      · intro part hpart
        unfold Path.Clean at hclean
        rw [hparts suffix (Kind.suffix_no_slash hsuffix)] at hpart
        rw [hparts out.extension out.extension_no_slash] at hclean
        rcases List.mem_append.mp hpart with hpart | hpart
        · exact hclean part (List.mem_append_left _ hpart)
        · rw [List.mem_singleton.mp hpart]
          exact Kind.isPart_append hsuffix hs

/-- What is requested in place of a source that is there is found: at the requested path itself, or
    as one of the sources in its place. -/
theorem request?_output {k : Kind} {suffix stem : String} {out : Output}
    (hk : k.suffix? = some suffix) (hout : k.output? = some out)
    (hclean : Path.Clean ⟨stem ++ out.extension⟩)
    (hfind : find? h roots (stem ++ suffix) = some (p, .file)) (mount : String) :
    ∃ target, request? h roots mount (mount ++ "/" ++ (stem ++ out.extension)) = some target ∧
      (target.kind = .passthrough →
        find? h roots (stem ++ out.extension) = some (target.path, target.hit)) := by
  unfold request?
  rw [RequestPath.below?_append hclean, Option.bind_some]
  generalize ((mount ++ "/" ++ (stem ++ out.extension)).toList.getLast? == some '/') = slash
  obtain ⟨target, htarget⟩ :
      ∃ target, relative? h roots slash (stem ++ out.extension) = some target := by
    unfold relative?
    split
    · exact ⟨_, rfl⟩
    · -- among the candidates is the kind of the source, so one of them is found
      rw [← Option.isSome_iff_exists]
      rw [derived?_append, List.findSome?_isSome_iff]
      refine ⟨k, Kind.mem_candidates_iff.mpr hout, ?_⟩
      rw [candidate?_some_iff.mpr ⟨suffix, p, hk, hfind, rfl⟩]
      rfl
  refine ⟨target, htarget, fun hkind => ?_⟩
  rcases relative?_cases htarget with ⟨hhit, -, -⟩ | ⟨source, hderives, -, -, -⟩
  · exact hhit
  · obtain ⟨out', hout'⟩ := hderives.output?
    rw [hkind] at hout'
    cases hout'

/-- Names of outputs and resolution are inverse to each other.

    A clean source has an output that is recognized as what its kind compiles into, and with the
    ending of the kind in place of that of the output it is the source again. What a request finds
    in place of something is compiled, by the recipe of the kind that its own name says, and its
    output is what is requested, both below the root that wins and as the relative path. So what is
    requested under the name of an output is found if its source is there, below any mount point. -/
theorem corresponds :
    (∀ (p : Path) (k : Kind), p.Clean → k ∈ Kind.compiled → Kind.ofPath p = k →
      ∃ (o : Path) (out : Output) (suffix stem : String), k.outputName? p = some o ∧ o.Clean ∧
        k.output? = some out ∧ Output.ofText? o.text = some out ∧ k ∈ out.candidates ∧
        k.suffix? = some suffix ∧ Kind.stem? o.text out.extension = some stem ∧
        p.text = stem ++ suffix) ∧
    (∀ (h : Host) (roots : List Path) (mount path : String) (target : Target),
      request? h roots mount path = some target → target.kind ≠ .passthrough →
      target.kind ∈ Kind.compiled ∧ Kind.ofPath target.path = target.kind ∧
      ∃ (rel source : String) (root o : Path), RequestPath.below? mount path = some rel ∧
        Output.ofText? rel = target.kind.output? ∧ Wins h roots source root target.path ∧
        target.kind.outputName? target.path = some o ∧ o.alike (joinRelative root rel) = true ∧
        Path.Clean ⟨source⟩ ∧ target.kind.outputName? ⟨source⟩ = some ⟨rel⟩) ∧
    ∀ (h : Host) (roots : List Path) (mount : String) (p source : Path), source.Clean →
      Kind.ofPath source ∈ Kind.compiled → find? h roots source.text = some (p, .file) →
      ∃ (o : Path) (target : Target), (Kind.ofPath source).outputName? source = some o ∧
        request? h roots mount (mount ++ "/" ++ o.text) = some target ∧
        (target.kind = .passthrough → find? h roots o.text = some (target.path, target.hit)) := by
  refine ⟨?_, ?_, ?_⟩
  · intro p k hp hk hkind
    obtain ⟨suffix, hsuffix⟩ := Kind.mem_compiled_iff.mp hk
    obtain ⟨out, hout⟩ := Kind.exists_suffix_iff_output.mp ⟨suffix, hsuffix⟩
    obtain ⟨stem, rfl⟩ := Kind.exists_stem hp hsuffix hkind
    obtain ⟨-, hname, hclean⟩ := Kind.outputName?_append hsuffix hout hp
    exact ⟨_, out, suffix, stem, hname, hclean, hout, ofText?_append stem out,
      Kind.mem_candidates_iff.mpr hout, hsuffix, Kind.stem?_iff.mpr rfl, rfl⟩
  · intro h roots mount path target htarget hkind
    obtain ⟨out, suffix, stem, root, hsuffix, hout, hbelow, hclean, hwins⟩ :=
      request?_source htarget hkind
    obtain ⟨hof, o, hname, halike⟩ := Kind.outputName?_joinRelative hsuffix hout hclean root
    -- what is known below the root is so for the path that was found
    rw [← hwins.eq_joinRelative] at hof hname
    exact ⟨Kind.mem_compiled_iff.mpr ⟨suffix, hsuffix⟩, hof, _, _, root, o, hbelow,
      (ofText?_append stem out).trans hout.symm, hwins, hname, halike, hclean,
      (Kind.outputName?_append hsuffix hout hclean).2.1⟩
  · intro h roots mount p source hsource hk hfind
    obtain ⟨suffix, hsuffix⟩ := Kind.mem_compiled_iff.mp hk
    obtain ⟨out, hout⟩ := Kind.exists_suffix_iff_output.mp ⟨suffix, hsuffix⟩
    obtain ⟨stem, rfl⟩ := Kind.exists_stem hsource hsuffix rfl
    obtain ⟨-, hname, hclean⟩ := Kind.outputName?_append hsuffix hout hsource
    obtain ⟨target, htarget, hplain⟩ := request?_output hsuffix hout hclean hfind mount
    exact ⟨_, target, hname, htarget, hplain⟩

/-- A host with one source, whose stem ends like a source of another kind. -/
def nestedHost : Host :=
  .ofTree ⟨[(["site"], .directory), (["site", "js"], .directory),
    (["site", "js", ".main.js.barrel"], plainFile [])]⟩ fun _ => none

theorem nested_corresponds :
    (∃ o, Kind.outputName? .bundle ⟨"js/.main.js.barrel"⟩ = some o ∧ o.Clean) ∧
      request? nestedHost [⟨"/site/."⟩] "/app/" "/app/x/..//js/./.main.js.js" =
        some ⟨.bundle, ⟨"/site/./js/.main.js.barrel"⟩, .file, false⟩ ∧
      Kind.ofPath ⟨"/site/./js/.main.js.barrel"⟩ = .bundle ∧
      ∃ target, request? nestedHost [⟨"/site/."⟩] "/app" "/app/js/.main.js.js" = some target := by
  have hclean : Path.Clean ⟨"js/.main.js.barrel"⟩ := by
    have hparts : Text.parts '/' "js/.main.js.barrel" = ["js", ".main.js.barrel"] := by
      decide +kernel
    unfold Path.Clean
    rw [hparts]
    simp only [List.mem_cons, List.not_mem_nil, or_false, forall_eq_or_imp, forall_eq]
    exact ⟨⟨by decide, by decide, by decide⟩, ⟨by decide, by decide, by decide⟩⟩
  have hkind : Kind.ofPath ⟨"js/.main.js.barrel"⟩ = .bundle := by decide +kernel
  have hrequest : request? nestedHost [⟨"/site/."⟩] "/app/" "/app/x/..//js/./.main.js.js" =
      some ⟨.bundle, ⟨"/site/./js/.main.js.barrel"⟩, .file, false⟩ := by decide +kernel
  obtain ⟨hforward, hback, hlive⟩ := corresponds
  obtain ⟨o, -, -, -, hname, hoclean, -⟩ :=
    hforward ⟨"js/.main.js.barrel"⟩ .bundle hclean (by decide) hkind
  obtain ⟨-, hof, -⟩ := hback _ _ _ _ _ hrequest (by decide)
  obtain ⟨o', target, hname', htarget, -⟩ := hlive nestedHost [⟨"/site/."⟩] "/app"
    ⟨"/site/./js/.main.js.barrel"⟩ ⟨"js/.main.js.barrel"⟩ hclean (by rw [hkind]; decide)
    (by decide +kernel)
  have ho' : o' = ⟨"js/.main.js.js"⟩ := by
    rw [hkind] at hname'
    exact Option.some.inj (hname'.symm.trans (by decide +kernel))
  rw [ho'] at htarget
  exact ⟨⟨o, hname, hoclean⟩, hrequest, hof, target, htarget⟩

end Resolve

end AssetServer
