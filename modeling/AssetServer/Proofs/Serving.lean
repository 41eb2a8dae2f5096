import AssetServer.Content
import AssetServer.Proofs.Traversal

/-!
# What is served

A request names a place below the roots by the names that lead there. A file at that place is served
as it is, from the first root that has one (`Content.serves_file`); without one, the first source
that compiles into it is served compiled (`Content.serves_source`).
-/

namespace AssetServer

/-! ## §1 Relative paths -/

namespace Path

theorem toList_intercalate (names : List String) :
    ("/".intercalate names).toList = Text.unite '/' (names.map String.toList) := by
  induction names with
  | nil => rfl
  | cons n rest ih =>
    cases rest with
    | nil => simp [Text.unite, String.intercalate_singleton]
    | cons m more =>
      rw [String.intercalate_cons_cons, String.toList_append, String.toList_append, ih]
      simp [Text.unite]

theorem parts_intercalate {names : List String} (hne : names ≠ [])
    (hnames : ∀ m ∈ names, Tree.IsPart m) : Text.parts '/' ("/".intercalate names) = names := by
  unfold Text.parts
  rw [toList_intercalate, Text.split_unite (by simpa using hne)]
  · rw [List.map_map]
    conv_rhs => rw [← List.map_id names]
    exact List.map_congr_left fun m _ => String.ofList_toList
  · intro part hpart
    obtain ⟨m, hm, rfl⟩ := List.mem_map.mp hpart
    exact (hnames m hm).no_slash

/-- An ending of the last name is an ending of the whole. -/
theorem intercalate_concat (dir : List String) (s ending : String) :
    "/".intercalate (dir ++ [s ++ ending]) = "/".intercalate (dir ++ [s]) ++ ending := by
  induction dir with
  | nil => simp [String.intercalate_singleton]
  | cons n rest ih =>
    obtain ⟨m, more, hcons⟩ := List.exists_cons_of_ne_nil (by simp : rest ++ [s] ≠ [])
    obtain ⟨m', more', hcons'⟩ := List.exists_cons_of_ne_nil (by simp : rest ++ [s ++ ending] ≠ [])
    rw [List.cons_append, List.cons_append, hcons, hcons', String.intercalate_cons_cons,
      String.intercalate_cons_cons, ← hcons, ← hcons', ih]
    simp only [String.append_assoc]

end Path

namespace RequestPath

theorem foldl_move {names : List String} (hnames : ∀ m ∈ names, Tree.IsPart m)
    (place : List (List Char)) :
    (names.map String.toList).foldl move place = (names.map String.toList).reverse ++ place := by
  induction names generalizing place with
  | nil => rfl
  | cons m rest ih =>
    have hm := hnames m (by simp)
    -- a name is neither empty nor a step that stays or goes up
    have hstep : move place m.toList = m.toList :: place := by
      unfold move
      rw [if_neg, if_neg]
      · intro hup
        exact hm.down (String.toList_inj.mp hup)
      · rintro (hempty | hhere)
        · exact hm.step (.inl (String.toList_inj.mp hempty))
        · exact hm.step (.inr (String.toList_inj.mp hhere))
    rw [List.map_cons, List.foldl_cons, hstep, ih fun k hk => hnames k (List.mem_cons_of_mem _ hk)]
    simp

theorem segments_names {names : List String} (hnames : ∀ m ∈ names, Tree.IsPart m) :
    segments ('/' :: ("/".intercalate names).toList) = names.map String.toList := by
  unfold segments
  rw [Path.toList_intercalate]
  cases names with
  | nil => rfl
  | cons n rest =>
    have hsplit : Text.split '/' ('/' :: Text.unite '/' ((n :: rest).map String.toList)) =
        [] :: (n :: rest).map String.toList := by
      rw [Text.split, if_pos rfl, Text.split_unite (by simp)]
      intro part hpart
      obtain ⟨m, hm, rfl⟩ := List.mem_map.mp hpart
      exact (hnames m hm).no_slash
    have hfirst : move [] [] = [] := rfl
    rw [hsplit, List.foldl_cons, hfirst, foldl_move hnames, List.append_nil, List.reverse_reverse]

end RequestPath

/-! ## §2 Hits -/

/-- A lookup through all links does not end at a link. -/
theorem Tree.walk_ne_link {t : Tree} {links : Nat} {here loc : Location} {ps : List String}
    {target : String} : t.walk true links here ps ≠ .ok (.taken loc (.link target)) := by
  intro h
  generalize hfollow : true = follow at h
  -- with all links followed, a lookup stops at a link in no case
  fun_induction t.walk follow links here ps with
  | case2 links here part rest hskip ih => exact ih h
  | case3 links here rest hstep ih => exact ih h
  | case7 links here part rest hstep hdown hshort next hnext ih => exact ih h
  | case8 links here part rest hstep hdown hshort next f hnext hlast =>
    rw [Except.ok.injEq, Spot.taken.injEq] at h
    cases h.2
  | case10 links here part rest hstep hdown hshort next target hnext hstay =>
    subst hfollow
    simp at hstay
  | case12 here part rest hstep hdown hshort next target hnext hgo links start ih => exact ih h
  | _ => cases h

theorem Tree.stat_ne_link {t : Tree} {cwd loc : Location} {p : Path} {target : String} :
    t.stat cwd p ≠ .ok (loc, .link target) := by
  intro h
  exact walk_ne_link (find_ok (stat_ok_iff.mp h)).2.2.2

namespace Resolve

variable {h : Host} {roots before after : List Path} {root : Path} {names dir : List String}

theorem joinRelative_names (root : Path) (hne : names ≠ []) (hnames : ∀ m ∈ names, Tree.IsPart m) :
    joinRelative root ("/".intercalate names) = Export.descend root names := by
  unfold joinRelative Export.descend
  rw [Path.parts_intercalate hne hnames, List.filter_eq_self.mpr]
  intro m hm
  simpa using fun hempty => (hnames m hm).step (.inl hempty)

theorem hit?_file_iff {rel : String} {p : Path} : hit? h root rel = some (p, .file) ↔
    p = joinRelative root rel ∧ h.tree.isFile h.directory p = true := by
  have hleads : p = joinRelative root rel ∧ h.tree.isFile h.directory p = true ↔
      p = joinRelative root rel ∧
        ∃ loc f, h.tree.stat h.directory (joinRelative root rel) = .ok (loc, .file f) := by
    refine and_congr_right fun hp => ?_
    rw [hp, Tree.isFile_iff]
  rw [hleads]
  unfold hit?
  dsimp only
  -- a path that leads to a link has not been followed to its end
  cases hstat : h.tree.stat h.directory (joinRelative root rel) with
  | error e => simp
  | ok found =>
    obtain ⟨loc, e⟩ := found
    cases e with
    | file f => simp [eq_comm]
    | directory => simp
    | link target => exact absurd hstat Tree.stat_ne_link

/-- A directory is hit through an index that is a file. -/
theorem hit?_directory_iff {rel : String} {p : Path} : hit? h root rel = some (p, .directory) ↔
    p = (joinRelative root rel).join "index.html" ∧
      (∃ loc, h.tree.stat h.directory (joinRelative root rel) = .ok (loc, .directory)) ∧
        h.tree.isFile h.directory p = true := by
  unfold hit?
  dsimp only
  cases hstat : h.tree.stat h.directory (joinRelative root rel) with
  | error e => simp
  | ok found =>
    obtain ⟨loc, e⟩ := found
    cases e with
    | file f => simp
    | link target => simp
    | directory =>
      simp only [Option.ite_none_right_eq_some, Option.some.injEq, Prod.mk.injEq, and_true,
        Except.ok.injEq, exists_eq', true_and]
      constructor
      · rintro ⟨hindex, rfl⟩
        exact ⟨rfl, hindex⟩
      · rintro ⟨rfl, hindex⟩
        exact ⟨hindex, rfl⟩

theorem hit?_file (hne : names ≠ []) (hnames : ∀ m ∈ names, Tree.IsPart m)
    (hfile : h.tree.isFile h.directory (Export.descend root names) = true) :
    hit? h root ("/".intercalate names) = some (Export.descend root names, .file) :=
  hit?_file_iff.mpr ⟨(joinRelative_names root hne hnames).symm, hfile⟩

/-- A hit is a file, or the index of a directory. -/
theorem hit?_cases (hne : names ≠ []) (hnames : ∀ m ∈ names, Tree.IsPart m) {p : Path} {hit : Hit}
    (hhit : hit? h root ("/".intercalate names) = some (p, hit)) :
    (hit = .file ∧ p = Export.descend root names ∧ h.tree.isFile h.directory p = true) ∨
      (hit = .directory ∧ p = Export.descend root (names ++ ["index.html"]) ∧
        h.tree.isFile h.directory p = true) := by
  cases hit with
  | file =>
    obtain ⟨hp, hfile⟩ := hit?_file_iff.mp hhit
    exact .inl ⟨rfl, hp.trans (joinRelative_names root hne hnames), hfile⟩
  | directory =>
    obtain ⟨hp, -, hfile⟩ := hit?_directory_iff.mp hhit
    rw [joinRelative_names root hne hnames, ← Path.descend_concat] at hp
    exact .inr ⟨rfl, hp, hfile⟩

theorem hit?_none (hne : names ≠ []) (hnames : ∀ m ∈ names, Tree.IsPart m)
    (hfile : h.tree.isFile h.directory (Export.descend root names) = false)
    (hindex : h.tree.isFile h.directory (Export.descend root (names ++ ["index.html"])) = false) :
    hit? h root ("/".intercalate names) = none := by
  cases hhit : hit? h root ("/".intercalate names) with
  | none => rfl
  | some found =>
    obtain ⟨p, hit⟩ := found
    rcases hit?_cases hne hnames hhit with ⟨-, rfl, htrue⟩ | ⟨-, rfl, htrue⟩
    · rw [hfile] at htrue
      cases htrue
    · rw [hindex] at htrue
      cases htrue

/-- The first root with a hit decides. -/
theorem find?_first {rel : String} {found : Path × Hit}
    (hbefore : ∀ r ∈ before, hit? h r rel = none) (hhit : hit? h root rel = some found) :
    find? h (before ++ root :: after) rel = some found := by
  unfold find?
  rw [List.findSome?_append, List.findSome?_eq_none_iff.mpr hbefore, Option.none_or,
    List.findSome?_cons, hhit]

theorem find?_none {rel : String} (hnone : ∀ r ∈ roots, hit? h r rel = none) :
    find? h roots rel = none :=
  List.findSome?_eq_none_iff.mpr hnone

theorem exists_of_find? {rel : String} {found : Path × Hit} (hfind : find? h roots rel = some found) :
    ∃ r ∈ roots, hit? h r rel = some found :=
  List.exists_of_findSome?_eq_some hfind

/-! ## §3 Compiled sources -/

theorem ofText?_append (s : String) (out : Output) :
    Output.ofText? (s ++ out.extension) = some out := by
  unfold Output.ofText?
  cases out with
  | script => rw [if_pos (Kind.endsIn_iff.mpr ⟨_, rfl⟩)]
  | stylesheet =>
    have hother : Kind.endsIn (s ++ Output.stylesheet.extension) Output.script.extension = false :=
      Kind.endsIn_append_of_apart (by decide) (by decide)
    rw [hother, if_neg (by simp), if_pos (Kind.endsIn_iff.mpr ⟨_, rfl⟩)]

/-- The sources of an output are looked for in the order of its candidates. -/
theorem derived?_append (h : Host) (roots : List Path) (stem : String) (out : Output) :
    derived? h roots (stem ++ out.extension) =
      out.candidates.findSome? (candidate? h roots stem) := by
  unfold derived?
  rw [ofText?_append]
  simp [Kind.stem?_iff.mpr rfl]

/-- A candidate is what is found as a file under the name of such a source. -/
theorem candidate?_some_iff {stem : String} {k : Kind} {target : Target} :
    candidate? h roots stem k = some target ↔ ∃ suffix p, k.suffix? = some suffix ∧
      find? h roots (stem ++ suffix) = some (p, .file) ∧ target = ⟨k, p, .file, false⟩ := by
  unfold candidate?
  simp only [Option.bind_eq_bind, Option.bind_eq_some_iff, Prod.exists]
  constructor
  · rintro ⟨suffix, hsuffix, p, hit, hfind, hmatch⟩
    cases hit with
    | directory => cases hmatch
    | file =>
      cases hmatch
      exact ⟨suffix, p, hsuffix, hfind, rfl⟩
  · rintro ⟨suffix, p, hsuffix, hfind, rfl⟩
    exact ⟨suffix, hsuffix, p, .file, hfind, rfl⟩

/-- A candidate is passed over if no root has a file of its name. -/
theorem candidate?_none {s : String} {k : Kind} {suffix : String} (hk : k.suffix? = some suffix)
    (hnames : ∀ m ∈ dir ++ [s ++ suffix], Tree.IsPart m)
    (hnone : ∀ r ∈ roots, h.tree.isFile h.directory
      (Export.descend r (dir ++ [s ++ suffix])) = false) :
    candidate? h roots ("/".intercalate (dir ++ [s])) k = none := by
  refine Option.eq_none_iff_forall_ne_some.mpr fun target hcandidate => ?_
  obtain ⟨suffix', p, hk', hfind, -⟩ := candidate?_some_iff.mp hcandidate
  obtain rfl : suffix = suffix' := Option.some.inj (hk.symm.trans hk')
  rw [← Path.intercalate_concat] at hfind
  obtain ⟨r, hr, hhit⟩ := exists_of_find? hfind
  rcases hit?_cases (by simp) hnames hhit with ⟨-, rfl, htrue⟩ | ⟨hindex, -⟩
  · rw [hnone r hr] at htrue
    cases htrue
  · cases hindex

/-- The first candidate that is not passed over decides. -/
theorem derived?_first {s : String} {out : Output} {earlier later : List Kind} {k : Kind}
    {target : Target} (hcandidates : out.candidates = earlier ++ k :: later)
    (hearlier : ∀ k' ∈ earlier, candidate? h roots ("/".intercalate (dir ++ [s])) k' = none)
    (hk : candidate? h roots ("/".intercalate (dir ++ [s])) k = some target) :
    derived? h roots ("/".intercalate (dir ++ [s ++ out.extension])) = some target := by
  rw [Path.intercalate_concat, derived?_append, hcandidates, List.findSome?_append,
    List.findSome?_eq_none_iff.mpr hearlier, Option.none_or, List.findSome?_cons, hk]

end Resolve

/-! ## §4 Answers -/

/-- A request that asks for what `rel` leads to, and not whether it has changed. -/
structure ContentRequest.Asks (r : ContentRequest) (rel : String) : Prop where
  below : RequestPath.below? r.mount r.path = some rel
  since : r.since = none

namespace Content

variable {c : Content} {r : ContentRequest} {h : Host} {rel : String} {p : Path} {b : Bytes}

/-- The answer to a request is that content with body `b` is served. -/
def Serves (c : Content) (r : ContentRequest) (h : Host) (b : Bytes) : Prop :=
  ∃ reply k, c.serve r h = (.ok .served, reply, k) ∧ reply.body = b

theorem serves_of_eq (hresult : (c.serve r h).1 = .ok .served) (hbody : (c.serve r h).2.1.body = b) :
    c.Serves r h b := by
  rcases hserve : c.serve r h with ⟨result, reply, k⟩
  rw [hserve] at hresult hbody
  subst hresult hbody
  exact ⟨reply, k, hserve, rfl⟩

theorem request?_of_asks (hasks : r.Asks rel) : Resolve.request? h c.roots r.mount r.path =
    Resolve.relative? h c.roots (r.path.toList.getLast? == some '/') rel := by
  unfold Resolve.request?
  rw [hasks.below, Option.bind_some]

/-- A file that is hit is served as it is. -/
theorem serves_file (hasks : r.Asks rel) (hfind : Resolve.find? h c.roots rel = some (p, .file))
    (hbytes : h.tree.bytesAt h.directory p = .ok b) : c.Serves r h b := by
  have hrequest := request?_of_asks (c := c) (h := h) hasks
  unfold Resolve.relative? at hrequest
  simp only [hfind] at hrequest
  obtain ⟨f, hopen, hdata⟩ := Tree.openFile_of_bytesAt hbytes
  refine ⟨⟨some (mediaTypeOf p .file), some f.modified, f.content⟩, h, ?_, hdata⟩
  unfold serve
  rw [hrequest]
  simp only [Kind.output?, serveFile, hopen, hasks.since]
  rfl

/-- Without a hit, a source is served in its compiled form. -/
theorem serves_source {k : Kind} {out : Output} {n : Nat} {o : Outlet} (hasks : r.Asks rel)
    (hfind : Resolve.find? h c.roots rel = none)
    (hderived : Resolve.derived? h c.roots rel = some ⟨k, p, .file, false⟩)
    (hout : k.output? = some out)
    (hrun : runFrom (c.compiler.compile k p) ⟨h, .unlimited⟩ = (.ok n, o)) :
    c.Serves r h o.sink.held := by
  have hrequest := request?_of_asks (c := c) (h := h) hasks
  unfold Resolve.relative? at hrequest
  simp only [hfind, hderived] at hrequest
  refine ⟨⟨some out.mediaType, none, o.sink.held⟩, o.host, ?_, rfl⟩
  unfold serve Emit.collect
  rw [hrequest]
  simp only [hout, Emit.runOn_eq, hrun]
  rfl

end Content

/-! ## §5 What answers for an output -/

/-- What a source stands for on a host: its own bytes, or what compiling it writes. -/
def Compiler.Gives (c : Compiler) (h : Host) (kind : Kind) (source : Path) (b : Bytes) : Prop :=
  if kind = .passthrough then h.tree.bytesAt h.directory source = .ok b
  else ∃ n o, runFrom (c.compile kind source) ⟨h, .unlimited⟩ = (.ok n, o) ∧ o.sink.held = b

theorem Compiler.gives_passthrough {c : Compiler} {h : Host} {source : Path} {b : Bytes} :
    c.Gives h .passthrough source b ↔ h.tree.bytesAt h.directory source = .ok b := by
  unfold Gives
  rw [if_pos rfl]

theorem Compiler.gives_compiled {c : Compiler} {h : Host} {kind : Kind} {source : Path} {b : Bytes}
    (hkind : kind ≠ .passthrough) : c.Gives h kind source b ↔
      ∃ n o, runFrom (c.compile kind source) ⟨h, .unlimited⟩ = (.ok n, o) ∧ o.sink.held = b := by
  unfold Gives
  rw [if_neg hkind]

theorem Compiler.Gives.unique {c : Compiler} {h : Host} {kind : Kind} {source : Path}
    {b b' : Bytes} (hb : c.Gives h kind source b) (hb' : c.Gives h kind source b') : b = b' := by
  by_cases hkind : kind = .passthrough
  · subst hkind
    rw [gives_passthrough] at hb hb'
    rw [hb] at hb'
    exact Except.ok.inj hb'
  · obtain ⟨n, o, hrun, rfl⟩ := (gives_compiled hkind).mp hb
    obtain ⟨n', o', hrun', rfl⟩ := (gives_compiled hkind).mp hb'
    rw [hrun, Prod.mk.injEq] at hrun'
    rw [hrun'.2]

namespace Resolve

variable {h : Host} {roots : List Path} {dir names : List String} {root : Path} {o : String}

/-- A root has no file at `names`, and no directory with an index. -/
structure Lacks (h : Host) (names : List String) (root : Path) : Prop where
  file : h.tree.isFile h.directory (Export.descend root names) = false
  index : h.tree.isFile h.directory (Export.descend root (names ++ ["index.html"])) = false

/-- `root` is the first of some roots with something at `names`, and has a file there. -/
structure FirstFile (h : Host) (roots : List Path) (names : List String) (root : Path) : Prop where
  isFile : h.tree.isFile h.directory (Export.descend root names) = true
  first : ∃ before after, roots = before ++ root :: after ∧ ∀ r ∈ before, Lacks h names r

/-- The file that a server answers with for the output `o` in a directory, and the kind that it is
    used as: a file of that name as it is, or else the first of the candidates that some root has. -/
inductive Answers (h : Host) (roots : List Path) (dir : List String) (o : String) :
    Kind → Path → Prop where
  | direct {root : Path} (hfirst : FirstFile h roots (dir ++ [o]) root) :
      Answers h roots dir o .passthrough (Export.descend root (dir ++ [o]))
  | compiled {root : Path} {k : Kind} {s suffix : String} {out : Output} {earlier later : List Kind}
      (hname : o = s ++ out.extension) (hdirect : ∀ r ∈ roots, Lacks h (dir ++ [o]) r)
      (hcandidates : out.candidates = earlier ++ k :: later) (hsuffix : k.suffix? = some suffix)
      (hearlier : ∀ k' ∈ earlier, ∀ suffix', k'.suffix? = some suffix' → ∀ r ∈ roots,
        h.tree.isFile h.directory (Export.descend r (dir ++ [s ++ suffix'])) = false)
      (hfirst : FirstFile h roots (dir ++ [s ++ suffix]) root) :
      Answers h roots dir o k (Export.descend root (dir ++ [s ++ suffix]))

theorem FirstFile.find? (hfirst : FirstFile h roots names root) (hne : names ≠ [])
    (hnames : ∀ m ∈ names, Tree.IsPart m) :
    find? h roots ("/".intercalate names) = some (Export.descend root names, .file) := by
  obtain ⟨hfile, before, after, rfl, hbefore⟩ := hfirst
  exact find?_first (fun r hr => hit?_none hne hnames (hbefore r hr).file (hbefore r hr).index)
    (hit?_file hne hnames hfile)

/-- The first candidate that some root has is found in place of the output. -/
theorem FirstFile.derived? {s suffix : String} {out : Output} {earlier later : List Kind} {k : Kind}
    (hfirst : FirstFile h roots (dir ++ [s ++ suffix]) root)
    (hcandidates : out.candidates = earlier ++ k :: later) (hsuffix : k.suffix? = some suffix)
    (hearlier : ∀ k' ∈ earlier, ∀ suffix', k'.suffix? = some suffix' → ∀ r ∈ roots,
      h.tree.isFile h.directory (Export.descend r (dir ++ [s ++ suffix'])) = false)
    (hnames : ∀ m ∈ dir ++ [s ++ out.extension], Tree.IsPart m) :
    derived? h roots ("/".intercalate (dir ++ [s ++ out.extension])) =
      some ⟨k, Export.descend root (dir ++ [s ++ suffix]), .file, false⟩ := by
  have hslash : '/' ∉ s.toList := (hnames (s ++ out.extension) (by simp)).stem_no_slash
  have hparts : ∀ {k' : Kind} {suffix' : String}, k'.suffix? = some suffix' →
      ∀ m ∈ dir ++ [s ++ suffix'], Tree.IsPart m := by
    intro k' suffix' hk' m hm
    rcases List.mem_append.mp hm with hm | hm
    · exact hnames m (List.mem_append_left _ hm)
    · rw [List.mem_singleton.mp hm]
      exact Kind.isPart_append hk' hslash
  have hfind := hfirst.find? (by simp) (hparts hsuffix)
  rw [Path.intercalate_concat] at hfind
  refine derived?_first hcandidates (fun k' hk' => ?_)
    (candidate?_some_iff.mpr ⟨suffix, _, hsuffix, hfind, rfl⟩)
  -- a candidate that comes earlier has an ending too, and no root has a file with it
  have hmem : k' ∈ out.candidates := by
    rw [hcandidates]
    exact List.mem_append_left _ hk'
  obtain ⟨suffix', hsuffix'⟩ :=
    Kind.exists_suffix_iff_output.mpr ⟨out, Kind.mem_candidates_iff.mp hmem⟩
  exact candidate?_none hsuffix' (hparts hsuffix') (hearlier k' hk' suffix' hsuffix')

end Resolve

namespace Content

variable {c : Content} {r : ContentRequest} {h : Host} {b : Bytes}

/-- A server answers with what its answer for an output gives. -/
theorem serves_answer {dir : List String} {o : String} {k : Kind} {source : Path}
    (hanswers : Resolve.Answers h c.roots dir o k source) (hnames : ∀ m ∈ dir ++ [o], Tree.IsPart m)
    (hgives : c.compiler.Gives h k source b) (hasks : r.Asks ("/".intercalate (dir ++ [o]))) :
    c.Serves r h b := by
  cases hanswers with
  | direct hfirst =>
    exact serves_file hasks (hfirst.find? (by simp) hnames) (Compiler.gives_passthrough.mp hgives)
  | @compiled root k s suffix out earlier later hname hdirect hcandidates hsuffix hearlier hfirst =>
    subst hname
    have hkind : k ≠ .passthrough := by
      rintro rfl
      cases hsuffix
    obtain ⟨n, last, hrun, rfl⟩ := (Compiler.gives_compiled hkind).mp hgives
    refine serves_source hasks (Resolve.find?_none fun r hr => ?_)
      (hfirst.derived? hcandidates hsuffix hearlier hnames)
      (Kind.mem_candidates_iff.mp (by rw [hcandidates]; simp)) hrun
    exact Resolve.hit?_none (by simp) hnames (hdirect r hr).file (hdirect r hr).index

end Content

end AssetServer
