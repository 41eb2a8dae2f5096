import AssetServer.Http.Server
import AssetServer.Proofs.Mirror

/-!
# Requests stay under the roots

A request may spell its path in any way. Resolution reads it as moves that never leave the root of
the request, so what is left are names, and every file that is looked at is a root followed by names.

- `RequestPath.below?_plain`: the rest of a path below a mount point is names and empty parts.
- `Resolve.Derives.plain`: so are the sources that are looked for in its place.
- `Resolve.request?_congr`: resolution depends on nothing but what is at rooted paths.
- `Content.serve_handled`: what is read or compiled for a request is at a rooted path.
- `Http.Server.stays_rooted`: all of this for a server, whatever the request spells.
-/

namespace AssetServer

/-! ## §1 Names of a request path -/

namespace Text

theorem unite_concat_append (mark : Char) (init : List (List Char)) (last cs : List Char) :
    unite mark (init ++ [last]) ++ cs = unite mark (init ++ [last ++ cs]) := by
  induction init with
  | nil => rfl
  | cons part rest ih =>
    obtain ⟨next, more, hcons⟩ := List.exists_cons_of_ne_nil (by simp : rest ++ [last] ≠ [])
    obtain ⟨next', more', hcons'⟩ :=
      List.exists_cons_of_ne_nil (by simp : rest ++ [last ++ cs] ≠ [])
    rw [List.cons_append, List.cons_append, hcons, hcons', unite, unite, List.append_assoc,
      List.cons_append, ← hcons, ← hcons', ih]

/-- Characters without a mark at the end of a text make its last part longer. -/
theorem exists_split_append (mark : Char) (cs : List Char) : ∃ init last, mark ∉ last ∧
    ∀ more, mark ∉ more → split mark (cs ++ more) = init ++ [last ++ more] := by
  obtain ⟨init, last, hcs⟩ : ∃ init last, split mark cs = init ++ [last] :=
    ⟨_, _, (List.dropLast_concat_getLast (split_ne_nil mark cs)).symm⟩
  have hparts : ∀ part ∈ init ++ [last], mark ∉ part := by
    intro part hpart
    rw [← hcs] at hpart
    exact not_mem_of_mem_split hpart
  refine ⟨init, last, hparts last (by simp), fun more hmore => ?_⟩
  rw [← unite_split mark cs, hcs, unite_concat_append, split_unite (by simp)]
  intro part hpart
  rcases List.mem_append.mp hpart with hpart | hpart
  · exact hparts part (List.mem_append_left _ hpart)
  · rw [List.mem_singleton.mp hpart, List.mem_append, not_or]
    exact ⟨hparts last (by simp), hmore⟩

end Text

theorem Tree.isPart_ofList_iff {part : List Char} : IsPart (String.ofList part) ↔
    part ≠ [] ∧ part ≠ ['.'] ∧ part ≠ ['.', '.'] ∧ '/' ∉ part := by
  have htext : ∀ s : String, String.ofList part = s ↔ part = s.toList := by
    intro s
    rw [← String.toList_inj, String.toList_ofList]
  constructor
  · intro h
    have hstep := not_or.mp h.step
    have hslash := h.no_slash
    rw [String.toList_ofList] at hslash
    exact ⟨fun hempty => hstep.1 ((htext _).mpr hempty), fun hhere => hstep.2 ((htext _).mpr hhere),
      fun hup => h.down ((htext _).mpr hup), hslash⟩
  · rintro ⟨hempty, hhere, hup, hslash⟩
    refine ⟨not_or.mpr ⟨fun h => hempty ((htext _).mp h), fun h => hhere ((htext _).mp h)⟩,
      fun h => hup ((htext _).mp h), ?_⟩
    rwa [String.toList_ofList]

namespace RequestPath

/-- A move leads from a place that is given by names to another one. -/
theorem isPart_of_move {place : List (List Char)} {part : List Char} (hslash : '/' ∉ part)
    (hplace : ∀ name ∈ place, Tree.IsPart (String.ofList name)) :
    ∀ name ∈ move place part, Tree.IsPart (String.ofList name) := by
  unfold move
  split
  · exact hplace
  · rename_i hstays
    split
    · intro name hname
      exact hplace name (List.mem_of_mem_tail hname)
    · rename_i hup
      rw [not_or] at hstays
      intro name hname
      rcases List.mem_cons.mp hname with rfl | hname
      · exact Tree.isPart_ofList_iff.mpr ⟨hstays.1, hstays.2, hup, hslash⟩
      · exact hplace name hname

/-- Whatever the moves are, the place that they lead to is given by names. -/
theorem isPart_of_moves {parts place : List (List Char)} (hslash : ∀ part ∈ parts, '/' ∉ part)
    (hplace : ∀ name ∈ place, Tree.IsPart (String.ofList name)) :
    ∀ name ∈ parts.foldl move place, Tree.IsPart (String.ofList name) := by
  -- one move keeps the place given by names, so all of them do
  induction parts generalizing place with
  | nil => exact hplace
  | cons part rest ih =>
    have hstep := isPart_of_move (hslash part (by simp)) hplace
    exact ih (fun part' hpart' => hslash part' (List.mem_cons_of_mem _ hpart')) hstep

theorem isPart_of_segments {path name : List Char} (hname : name ∈ segments path) :
    Tree.IsPart (String.ofList name) := by
  unfold segments at hname
  rw [List.mem_reverse] at hname
  exact isPart_of_moves (fun part hpart => Text.not_mem_of_mem_split hpart) (by simp) name hname

/-- A relative path is plain if all there is between its slashes is names and empty parts. -/
def Plain (rel : String) : Prop :=
  ∀ part ∈ Text.split '/' rel.toList, part = [] ∨ Tree.IsPart (String.ofList part)

/-- A request path in its one form is plain. -/
theorem clean_plain (path : String) : Plain (clean path) := by
  intro part hpart
  unfold clean at hpart
  rw [String.toList_ofList, Text.split, if_pos rfl] at hpart
  rcases List.mem_cons.mp hpart with rfl | hpart
  · exact .inl rfl
  by_cases hnil : segments path.toList = []
  · rw [hnil] at hpart
    exact .inl (List.mem_singleton.mp hpart)
  · have hslash : ∀ name ∈ segments path.toList, '/' ∉ name := by
      intro name hname
      have := (isPart_of_segments hname).no_slash
      rwa [String.toList_ofList] at this
    rw [Text.split_unite hnil hslash] at hpart
    exact .inr (isPart_of_segments hpart)

/-- What follows a slash in a plain path is plain. -/
theorem Plain.of_append {path rel : String} {front : List Char} (hplain : Plain path)
    (hpath : path.toList = front ++ '/' :: rel.toList) : Plain rel := by
  intro part hpart
  apply hplain
  rw [hpath, Text.split_append]
  exact List.mem_append_right _ hpart

theorem strip?_eq_some {start cs rest : List Char} (h : strip? start cs = some rest) :
    cs = start ++ rest := by
  unfold strip? at h
  split at h
  · rename_i hstart
    obtain ⟨more, rfl⟩ := List.isPrefixOf_iff_prefix.mp hstart
    rw [List.drop_left, Option.some.injEq] at h
    rw [h]
  · cases h

/-- The rest of a path below a mount point comes after a slash of the cleaned path, unless it is
    empty. -/
theorem below?_cases {mount path rel : String} (h : below? mount path = some rel) :
    rel = "" ∨ ∃ front, (clean path).toList = front ++ '/' :: rel.toList := by
  unfold below? at h
  simp only at h
  split at h
  · rw [Option.some.injEq] at h
    refine .inr ⟨[], ?_⟩
    rw [← h, String.toList_ofList]
    unfold clean
    rw [String.toList_ofList]
    rfl
  · split at h
    · exact .inl (Option.some.inj h).symm
    · obtain ⟨rest, hrest, rfl⟩ := Option.map_eq_some_iff.mp h
      obtain ⟨more, hmount, hslash⟩ := Option.bind_eq_some_iff.mp hrest
      refine .inr ⟨(clean mount).toList, ?_⟩
      rw [String.toList_ofList, strip?_eq_some hmount, strip?_eq_some hslash]
      rfl

/-- Whatever is left of a request path below a mount point is plain. -/
theorem below?_plain {mount path rel : String} (h : below? mount path = some rel) : Plain rel := by
  rcases below?_cases h with rfl | ⟨front, hfront⟩
  · intro part hpart
    exact .inl (List.mem_singleton.mp hpart)
  · exact (clean_plain path).of_append hfront

end RequestPath

/-! ## §2 Rooted paths -/

/-- The names that a hit adds to the place that is asked for. -/
def Hit.index : Hit → List String
  | .file => []
  | .directory => ["index.html"]

namespace Resolve

variable {h h' : Host} {roots : List Path} {rel : String} {slash : Bool}

/-- The path is one of the roots followed by names; for the hit of a directory, the last name is
    that of its index. -/
def Rooted (roots : List Path) (hit : Hit) (p : Path) : Prop :=
  ∃ root ∈ roots, ∃ names, (∀ n ∈ names, Tree.IsPart n) ∧
    p = Export.descend root (names ++ hit.index)

theorem joinRelative_rooted {root : Path} (hroot : root ∈ roots) (hplain : RequestPath.Plain rel) :
    Rooted roots .file (joinRelative root rel) := by
  refine ⟨root, hroot, (Text.parts '/' rel).filter (· != ""), ?_, ?_⟩
  · intro n hn
    obtain ⟨hn, hne⟩ := List.mem_filter.mp hn
    obtain ⟨part, hpart, rfl⟩ := List.mem_map.mp hn
    rcases hplain part hpart with rfl | hname
    · simp at hne
    · exact hname
  · rw [Hit.index, List.append_nil]
    rfl

/-- The index of a rooted place is rooted. -/
theorem Rooted.index {p : Path} (hp : Rooted roots .file p) :
    Rooted roots .directory (p.join "index.html") := by
  obtain ⟨root, hroot, names, hnames, rfl⟩ := hp
  refine ⟨root, hroot, names, hnames, ?_⟩
  rw [Hit.index, Hit.index, List.append_nil, Path.descend_concat]

theorem hit?_rooted {root p : Path} {hit : Hit} (hroot : root ∈ roots)
    (hplain : RequestPath.Plain rel) (hhit : hit? h root rel = some (p, hit)) :
    Rooted roots hit p := by
  have hrooted := joinRelative_rooted hroot hplain
  cases hit with
  | file =>
    obtain ⟨rfl, -⟩ := hit?_file_iff.mp hhit
    exact hrooted
  | directory =>
    obtain ⟨rfl, -⟩ := hit?_directory_iff.mp hhit
    exact hrooted.index

theorem find?_rooted {p : Path} {hit : Hit} (hplain : RequestPath.Plain rel)
    (hfind : find? h roots rel = some (p, hit)) : Rooted roots hit p := by
  obtain ⟨root, hroot, hhit⟩ := exists_of_find? hfind
  exact hit?_rooted hroot hplain hhit

/-! ## §3 Sources in place of an output -/

/-- `source` is where a source of a kind is looked for that compiles into `rel`: the ending of the
    output is replaced by the ending of the kind. -/
inductive Derives (rel : String) : Kind → String → Prop where
  | replaced {out : Output} {stem suffix : String} {k : Kind} (hout : Output.ofText? rel = some out)
      (hstem : Kind.stem? rel out.extension = some stem) (hk : k ∈ out.candidates)
      (hsuffix : k.suffix? = some suffix) : Derives rel k (stem ++ suffix)

/-- A source in place of an output is compiled. -/
theorem Derives.output? {source : String} {k : Kind} (hderives : Derives rel k source) :
    ∃ out, k.output? = some out := by
  cases hderives with
  | @replaced out _ _ _ _ _ hk _ => exact ⟨out, Kind.mem_candidates_iff.mp hk⟩

/-- A source in place of a plain output is plain: its ending has no slash, and what ends so is
    neither `.` nor `..`. -/
theorem Derives.plain {source : String} {k : Kind} (hderives : Derives rel k source)
    (hplain : RequestPath.Plain rel) : RequestPath.Plain source := by
  cases hderives with
  | @replaced out stem suffix _ hout hstem hk hsuffix =>
    rw [Kind.stem?_iff] at hstem
    subst hstem
    obtain ⟨init, last, hlast, hsplit⟩ := Text.exists_split_append '/' stem.toList
    intro part hpart
    rw [String.toList_append, hsplit _ (Kind.suffix_no_slash hsuffix)] at hpart
    rcases List.mem_append.mp hpart with hpart | hpart
    · -- the parts before the last one are those of the output
      apply hplain
      rw [String.toList_append, hsplit _ out.extension_no_slash]
      exact List.mem_append_left _ hpart
    · rw [List.mem_singleton.mp hpart]
      have hname : Tree.IsPart (String.ofList last ++ suffix) :=
        Kind.isPart_append hsuffix (by rwa [String.toList_ofList])
      rw [← String.ofList_toList (s := String.ofList last ++ suffix), String.toList_append,
        String.toList_ofList] at hname
      exact .inr hname

/-- A target is a hit at the relative path itself, or the file of a source in its place. -/
theorem relative?_cases {target : Target} (htarget : relative? h roots slash rel = some target) :
    (find? h roots rel = some (target.path, target.hit) ∧ target.kind = .passthrough ∧
        target.redirect = (target.hit == .directory && !slash)) ∨
      ∃ source, Derives rel target.kind source ∧ find? h roots source = some (target.path, .file) ∧
        target.hit = .file ∧ target.redirect = false := by
  unfold relative? at htarget
  split at htarget
  · rename_i p hit hfind
    rw [Option.some.injEq] at htarget
    subst htarget
    exact .inl ⟨hfind, rfl, rfl⟩
  · unfold derived? at htarget
    simp only [Option.bind_eq_bind, Option.bind_eq_some_iff] at htarget
    obtain ⟨out, hout, stem, hstem, hsome⟩ := htarget
    obtain ⟨k, hk, hcandidate⟩ := List.exists_of_findSome?_eq_some hsome
    obtain ⟨suffix, p, hsuffix, hfind, rfl⟩ := candidate?_some_iff.mp hcandidate
    exact .inr ⟨stem ++ suffix, .replaced hout hstem hk hsuffix, hfind, rfl, rfl⟩

/-- What a request leads to is at a rooted path. -/
theorem request?_rooted {mount path : String} {target : Target}
    (htarget : request? h roots mount path = some target) :
    Rooted roots target.hit target.path := by
  obtain ⟨rel, hbelow, hrelative⟩ := Option.bind_eq_some_iff.mp htarget
  have hplain := RequestPath.below?_plain hbelow
  rcases relative?_cases hrelative with ⟨hfind, -⟩ | ⟨source, hderives, hfind, hhit, -⟩
  · exact find?_rooted hplain hfind
  · rw [hhit]
    exact find?_rooted (hderives.plain hplain) hfind

/-! ## §4 What resolution depends on -/

/-- Two hosts give the same at every rooted path. -/
def SameUnder (roots : List Path) (h h' : Host) : Prop :=
  ∀ hit p, Rooted roots hit p → h.tree.stat h.directory p = h'.tree.stat h'.directory p

theorem hit?_congr {root : Path} (hroot : root ∈ roots) (hplain : RequestPath.Plain rel)
    (hsame : SameUnder roots h h') : hit? h root rel = hit? h' root rel := by
  have hrooted := joinRelative_rooted hroot hplain
  unfold hit? Tree.isFile
  simp only [hsame .file _ hrooted, hsame .directory _ hrooted.index]

/-- The first result of a search depends on nothing but the results. -/
theorem findSome?_congr {α β : Type} {f g : α → Option β} {xs : List α}
    (hfg : ∀ x ∈ xs, f x = g x) : xs.findSome? f = xs.findSome? g := by
  induction xs with
  | nil => rfl
  | cons x rest ih =>
    rw [List.findSome?_cons, List.findSome?_cons, hfg x (by simp),
      ih fun y hy => hfg y (List.mem_cons_of_mem _ hy)]

theorem find?_congr (hplain : RequestPath.Plain rel) (hsame : SameUnder roots h h') :
    find? h roots rel = find? h' roots rel :=
  findSome?_congr fun _ hroot => hit?_congr hroot hplain hsame

theorem derived?_congr (hplain : RequestPath.Plain rel) (hsame : SameUnder roots h h') :
    derived? h roots rel = derived? h' roots rel := by
  unfold derived?
  apply Option.bind_congr
  intro out hout
  apply Option.bind_congr
  intro stem hstem
  apply findSome?_congr
  intro k hk
  apply Option.bind_congr
  intro suffix hsuffix
  have hsource : Derives rel k (stem ++ suffix) := .replaced hout hstem hk hsuffix
  simp only [find?_congr (hsource.plain hplain) hsame]

/-- Resolution depends on nothing but what is at rooted paths. -/
theorem request?_congr {mount path : String} (hsame : SameUnder roots h h') :
    request? h roots mount path = request? h' roots mount path := by
  unfold request?
  apply Option.bind_congr
  intro rel hbelow
  have hplain := RequestPath.below?_plain hbelow
  unfold relative?
  rw [find?_congr hplain hsame, derived?_congr hplain hsame]

end Resolve

/-! ## §5 Answers -/

namespace Content

/-- How a request is answered: without a look at any content, or with what one file at a rooted
    path holds or compiles into. -/
inductive Handled (c : Content) (r : ContentRequest) (h : Host) :
    Except Failure Outcome → Reply → Host → Prop where
  | missing (hnone : Resolve.request? h c.roots r.mount r.path = none) :
      Handled c r h (.ok .notFound) default h
  | redirected {p : Path} (hrooted : Resolve.Rooted c.roots .directory p)
      (hslash : r.path.toList.getLast? ≠ some '/') :
      Handled c r h (.ok (.redirect (r.path ++ "/"))) default h
  | read {target : Target} (hrooted : Resolve.Rooted c.roots target.hit target.path) :
      Handled c r h (serveFile h target r.since).1 (serveFile h target r.since).2 h
  | compiled {k : Kind} {out : Output} {source : Path} {result : Except Failure Nat} {body : Bytes}
      {after : Host} (hrooted : Resolve.Rooted c.roots .file source) (hout : k.output? = some out)
      (hrun : (c.compiler.compile k source).collect h = (result, body, after)) :
      Handled c r h (result.map fun _ => .served) ⟨some out.mediaType, none, body⟩ after

theorem serveFile_ne_redirect {h : Host} {target : Target} {since : Option Instant}
    {location : String} : (serveFile h target since).1 ≠ .ok (.redirect location) := by
  intro hredirect
  unfold serveFile at hredirect
  split at hredirect
  · cases hredirect
  · simp only at hredirect
    split at hredirect
    · cases hredirect
    · cases hredirect
    · split at hredirect
      · cases hredirect
      · cases hredirect

/-- Only a directory that is requested without a slash at its end is redirected. -/
theorem Handled.redirect {c : Content} {r : ContentRequest} {h after : Host} {location : String}
    {reply : Reply} (hhandled : c.Handled r h (.ok (.redirect location)) reply after) :
    location = r.path ++ "/" ∧ r.path.toList.getLast? ≠ some '/' ∧
      ∃ p, Resolve.Rooted c.roots .directory p := by
  generalize hresult : (Except.ok (.redirect location) : Except Failure Outcome) = result at hhandled
  cases hhandled with
  | missing => cases hresult
  | redirected hrooted hslash =>
    cases hresult
    exact ⟨rfl, hslash, _, hrooted⟩
  | read hrooted => exact absurd hresult.symm serveFile_ne_redirect
  | @compiled k out source compiled body after hrooted hout hrun =>
    cases compiled with
    | error e => cases hresult
    | ok n => cases hresult

/-- A request is handled in one of these ways, however it spells its path. -/
theorem serve_handled (c : Content) (r : ContentRequest) (h : Host) :
    c.Handled r h (c.serve r h).1 (c.serve r h).2.1 (c.serve r h).2.2 := by
  unfold serve
  cases hrequest : Resolve.request? h c.roots r.mount r.path with
  | none => exact .missing hrequest
  | some target =>
    have hrooted := Resolve.request?_rooted hrequest
    obtain ⟨rel, hbelow, hrelative⟩ := Option.bind_eq_some_iff.mp hrequest
    have hcases := Resolve.relative?_cases hrelative
    by_cases hredirect : target.redirect = true
    · simp only [hredirect, if_true]
      -- what is redirected was found for a directory whose path does not end in a slash
      rcases hcases with ⟨-, -, hflag⟩ | ⟨-, -, -, -, hflag⟩
      · rw [hredirect] at hflag
        have hboth := Bool.and_eq_true_iff.mp hflag.symm
        rw [eq_of_beq hboth.1] at hrooted
        exact .redirected hrooted (by simpa using hboth.2)
      · rw [hredirect] at hflag
        cases hflag
    · simp only [hredirect]
      cases hout : target.kind.output? with
      | none => exact .read hrooted
      | some out =>
        have hhit : target.hit = .file := by
          rcases hcases with ⟨-, hkind, -⟩ | ⟨-, -, -, hhit, -⟩
          · rw [hkind] at hout
            cases hout
          · exact hhit
        rw [hhit] at hrooted
        exact .compiled hrooted hout rfl

end Content

namespace Http.Server

/-- The response to a request for content is what its handling leads to. -/
theorem respondContent?_eq {s : Server} {r : Request} {h after : Host} {path : String}
    {result : Except Failure Outcome} {reply : Reply} (hmethod : r.method = "GET" ∨ r.method = "HEAD")
    (hpath : Utf8.decode? (Percent.decode (Utf8.encode r.path)) = some path)
    (hserve : s.content.serve ⟨s.options.mount, path, since? r⟩ h = (result, reply, after)) :
    s.respondContent? r h =
      (s.ofOutcome? after reply result).map fun response => (response, after) := by
  unfold respondContent?
  rw [if_neg (by rintro ⟨hget, hhead⟩; exact hmethod.elim hget hhead), hpath]
  simp only [hserve]

/-- Resolution never leaves the roots, whatever the mount point and the path are: what it gives is
    at a rooted path, so is everything that it looks at, and what else there is makes no difference.
    Hence what a server reads or compiles for a request is at a rooted path as well. -/
theorem stays_rooted (h : Host) (roots : List Path) (mount path : String) :
    (∀ target, Resolve.request? h roots mount path = some target →
      Resolve.Rooted roots target.hit target.path) ∧
    (∀ rel, RequestPath.below? mount path = some rel → ∀ root ∈ roots,
      Resolve.Rooted roots .file (Resolve.joinRelative root rel) ∧
      ∀ k source, Resolve.Derives rel k source →
        Resolve.Rooted roots .file (Resolve.joinRelative root source)) ∧
    (∀ h', Resolve.SameUnder roots h h' →
      Resolve.request? h roots mount path = Resolve.request? h' roots mount path) ∧
    (∀ (s : Server) (r : Request) (result : Except Failure Outcome) (reply : Reply) (after : Host),
      s.content.roots = roots → s.options.mount = mount →
      Utf8.decode? (Percent.decode (Utf8.encode r.path)) = some path →
      s.content.serve ⟨mount, path, since? r⟩ h = (result, reply, after) →
      s.content.Handled ⟨mount, path, since? r⟩ h result reply after ∧
      (r.method = "GET" ∨ r.method = "HEAD" → s.respondContent? r h =
        (s.ofOutcome? after reply result).map fun response => (response, after))) := by
  refine ⟨fun target htarget => Resolve.request?_rooted htarget, ?_,
    fun h' hsame => Resolve.request?_congr hsame, ?_⟩
  · intro rel hbelow root hroot
    have hplain := RequestPath.below?_plain hbelow
    exact ⟨Resolve.joinRelative_rooted hroot hplain,
      fun k source hderives => Resolve.joinRelative_rooted hroot (hderives.plain hplain)⟩
  · rintro s r result reply after rfl rfl hpath hserve
    have hhandled := Content.serve_handled s.content ⟨s.options.mount, path, since? r⟩ h
    rw [hserve] at hhandled
    exact ⟨hhandled, fun hmethod => respondContent?_eq hmethod hpath hserve⟩

/-- A script with macros and a directory with an index under one root. -/
def docsTree : Tree :=
  ⟨[(["site"], .directory), (["site", "app.main.js"], plainFile []),
    (["site", "docs"], .directory), (["site", "docs", "index.html"], plainFile [])]⟩

/-- A host with these files. -/
def docsHost : Host :=
  .ofTree docsTree fun _ => none

theorem spelled_rooted : Resolve.Rooted [⟨"site"⟩] .file ⟨"site/app.main.js"⟩ ∧
    Resolve.Rooted [⟨"site"⟩] .directory ⟨"site/docs/index.html"⟩ :=
  ⟨(stays_rooted docsHost [⟨"site"⟩] "/p/" "//..//x/../p/docs/./.././app.js").1
      ⟨.preprocessedScript, ⟨"site/app.main.js"⟩, .file, false⟩ (by decide +kernel),
    (stays_rooted docsHost [⟨"site"⟩] "p" "p/../../p//docs/").1
      ⟨.passthrough, ⟨"site/docs/index.html"⟩, .directory, false⟩ (by decide +kernel)⟩

end Http.Server

end AssetServer
