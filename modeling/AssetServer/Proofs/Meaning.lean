import AssetServer.Proofs.Bundle
import AssetServer.Proofs.Redirect

/-!
# What a request path means

Many spellings lead to the same place: `RequestPath.clean` is what they have in common. A server
reads a path in its clean form, but for two things. The slash at its end decides whether a directory
is redirected, and the location of a redirect is made from the path as it is spelled.

- `Resolve.request?_congr_clean`: spellings with one clean form lead to one target.
- `Compiler.collect_same`: a source compiles alike at two moments between which no file changes.
- `Http.Server.spelling_free`: two spellings of a place are answered alike, up to the location; if
  they differ in the slash at the end, the one without it is redirected for a directory.
-/

namespace AssetServer

/-! ## §1 Spellings -/

namespace RequestPath

variable {mount path u v : String}

/-- A slash at the end leads nowhere else. -/
theorem clean_slash (path : String) : clean (path ++ "/") = clean path := by
  have hsplit : Text.split '/' (path ++ "/").toList = Text.split '/' path.toList ++ [[]] := by
    have hend : (path ++ "/").toList = path.toList ++ '/' :: [] := by
      rw [String.toList_append]
      rfl
    rw [hend, Text.split_append]
    rfl
  have hmoves : segments (path ++ "/").toList = segments path.toList := by
    unfold segments
    rw [hsplit, List.foldl_append]
    rfl
  unfold clean
  rw [hmoves]

/-- Where a path leads below a mount point can be told from its clean form. -/
theorem below?_congr_clean (hclean : clean u = clean v) : below? mount u = below? mount v := by
  unfold below?
  rw [hclean]

/-- The path ends in a slash. -/
def Slashed (path : String) : Prop :=
  path.toList.getLast? = some '/'

instance (path : String) : Decidable (Slashed path) :=
  inferInstanceAs (Decidable (_ = _))

end RequestPath

/-- The target as a request with or without a slash at its end gets it. -/
def Target.asked (slash : Bool) (target : Target) : Target :=
  { target with redirect := target.hit == .directory && !slash }

namespace Resolve

variable {h : Host} {roots : List Path} {mount rel u v : String}

/-- The slash at the end of a request decides about a redirect only. -/
theorem relative?_slash (slash slash' : Bool) :
    relative? h roots slash rel = (relative? h roots slash' rel).map (·.asked slash) := by
  cases hfind : find? h roots rel with
  | some found => simp only [relative?, hfind, Option.map_some, Target.asked]
  | none =>
    have hderived : ∀ flag, relative? h roots flag rel = derived? h roots rel := by
      intro flag
      simp only [relative?, hfind]
    rw [hderived, hderived]
    cases hfound : derived? h roots rel with
    | none => rfl
    | some target =>
      rcases relative?_cases ((hderived slash).trans hfound) with ⟨hhit, -⟩ | ⟨-, -, -, hhit, hflag⟩
      · rw [hfind] at hhit
        cases hhit
      · -- a source in place of an output is never redirected
        have hasked : target.asked slash = target := by
          obtain ⟨kind, path, hit, redirect⟩ := target
          obtain rfl : hit = .file := hhit
          obtain rfl : redirect = false := hflag
          rfl
        rw [Option.map_some, hasked]

/-- Spellings with one clean form lead to one target, but for the redirect. -/
theorem request?_congr_clean (hclean : RequestPath.clean u = RequestPath.clean v) :
    request? h roots mount v =
      (request? h roots mount u).map (·.asked (v.toList.getLast? == some '/')) := by
  unfold request?
  rw [RequestPath.below?_congr_clean hclean]
  cases RequestPath.below? mount v with
  | none => rfl
  | some rel => exact relative?_slash _ _

theorem request?_asked {target : Target} (htarget : request? h roots mount u = some target) :
    target.asked (u.toList.getLast? == some '/') = target := by
  have hself : request? h roots mount u =
      (request? h roots mount u).map (·.asked (u.toList.getLast? == some '/')) :=
    request?_congr_clean rfl
  rw [htarget, Option.map_some, Option.some.injEq] at hself
  exact hself.symm

/-- Spellings agree on whether there is a redirect, if both end in a slash or both do not, or if
    what is found is no directory. -/
theorem asked_redirect {target : Target} (htarget : request? h roots mount u = some target)
    (hcase : (RequestPath.Slashed u ↔ RequestPath.Slashed v) ∨ target.hit ≠ .directory) :
    (target.asked (v.toList.getLast? == some '/')).redirect = target.redirect := by
  rw [← request?_asked htarget]
  rcases hcase with hslash | hfile
  · have hends : (v.toList.getLast? == some '/') = (u.toList.getLast? == some '/') := by
      rw [Bool.eq_iff_iff, beq_iff_eq, beq_iff_eq]
      exact hslash.symm
    rw [hends]
    rfl
  · have hhit : (target.hit == .directory) = false := beq_eq_false_iff_ne.mpr hfile
    simp [Target.asked, hhit]

end Resolve

/-! ## §2 Two moments between which no file changes -/

namespace Tree

variable {t t' : Tree} {follow : Bool} {links : Nat} {here cwd : Location} {p : Path}

/-- A walk looks at nothing but what places hold. -/
theorem walk_same (hsame : ∀ loc, t'.get? loc = t.get? loc) (ps : List String) :
    t'.walk follow links here ps = t.walk follow links here ps := by
  fun_induction t.walk follow links here ps with
  | case1 links here => exact walk_nil
  | case2 links here part rest hskip ih => rw [walk_skip hskip, ih]
  | case3 links here rest hstep ih => rw [walk_up, ih]
  | case4 links here part rest hstep hdown hlong => exact walk_long hstep hdown hlong rest
  | case5 links here part rest hstep hdown hshort next hnext hempty =>
    rw [walk_missing ⟨hstep, hdown, hshort⟩ ((hsame _).trans hnext), if_pos hempty]
  | case6 links here part rest hstep hdown hshort next hnext hfull =>
    rw [walk_missing ⟨hstep, hdown, hshort⟩ ((hsame _).trans hnext), if_neg hfull]
  | case7 links here part rest hstep hdown hshort next hnext ih =>
    rw [walk_into ⟨hstep, hdown, hshort⟩ ((hsame _).trans hnext), ih]
  | case8 links here part rest hstep hdown hshort next f hnext hlast =>
    rw [walk_file ⟨hstep, hdown, hshort⟩ ((hsame _).trans hnext), if_pos hlast]
  | case9 links here part rest hstep hdown hshort next f hnext hlast =>
    rw [walk_file ⟨hstep, hdown, hshort⟩ ((hsame _).trans hnext), if_neg hlast]
  | case10 links here part rest hstep hdown hshort next target hnext hstay =>
    exact walk_stop ⟨hstep, hdown, hshort⟩ ((hsame _).trans hnext) hstay
  | case11 here part rest hstep hdown hshort next target hnext hgo =>
    exact walk_limit ⟨hstep, hdown, hshort⟩ ((hsame _).trans hnext) (by simpa using hgo)
  | case12 here part rest hstep hdown hshort next target hnext hgo links start ih =>
    rw [walk_link ⟨hstep, hdown, hshort⟩ ((hsame _).trans hnext) (by simpa using hgo)]
    exact ih

theorem stat_same (hsame : ∀ loc, t'.get? loc = t.get? loc) : t'.stat cwd p = t.stat cwd p := by
  unfold stat find
  simp only [walk_same hsame]

theorem openFile_same (hsame : ∀ loc, t'.get? loc = t.get? loc) :
    t'.openFile cwd p = t.openFile cwd p := by
  unfold openFile
  rw [stat_same hsame]

end Tree

namespace Host

variable {h k : Host}

/-- The files, the programs and the clock are as they were; scratch directories may have been made
    and removed, and processes run. -/
def Alike (h k : Host) : Prop :=
  h.Beside (fun _ => False) k

theorem Alike.get? (hk : h.Alike k) (loc : Location) : k.tree.get? loc = h.tree.get? loc :=
  hk.tree loc id

theorem Alike.openFile (hk : h.Alike k) (p : Path) :
    k.tree.openFile k.directory p = h.tree.openFile h.directory p := by
  rw [hk.directory, Tree.openFile_same hk.get?]

theorem Alike.matches (hk : h.Alike k) {G : Location → Prop} (hready : h.Ready)
    (hready' : k.Ready) : h.Matches G k := by
  have hpart : h.tree.PartOf k.tree := fun loc e he => (hk.get? loc).trans he
  exact ⟨hready', hk.mono fun _ hfalse => hfalse.elim,
    (temporary_of_partOf hready hpart hk.directory hk.environment).1⟩

theorem Alike.request? (hk : h.Alike k) (roots : List Path) (mount path : String) :
    Resolve.request? k roots mount path = Resolve.request? h roots mount path := by
  refine Resolve.request?_congr fun hit p _ => ?_
  rw [hk.directory, Tree.stat_same hk.get?]

/-- Scratch directories with numbers of up to six digits have names of one length. -/
theorem scratchName_size_eq {n n' : Nat} (hn : n < 1000000) (hn' : n' < 1000000) :
    (scratchName n).utf8ByteSize = (scratchName n').utf8ByteSize := by
  have hshort : ∀ {m : Nat}, m < 1000000 → m.repr.length ≤ 6 := fun hm =>
    (Nat.length_repr_le_iff (by decide)).mpr hm
  rw [size_scratchName, size_scratchName, Nat.max_eq_left (hshort hn), Nat.max_eq_left (hshort hn')]

end Host

namespace Compiler

variable {c : Compiler} {kind : Kind} {source : Path} {h k after : Host} {n : Nat} {b : Bytes}

/-- The scratch directories that are made for a source on `h` have numbers of up to six digits
    there, and so they would have on `k`. -/
def NamesKept (c : Compiler) (kind : Kind) (source : Path) (h k : Host) : Prop :=
  ∀ n b after, (c.compile kind source).collect h = (.ok n, b, after) →
    after.scratches ≤ 1000000 ∧ k.scratches + after.scratches ≤ h.scratches + 1000000

/-- A source that compiles at one moment compiles at another one, to the same bytes, if its tools
    tell apart neither the scratch directories nor what has been in them. -/
theorem collect_same {base : Host} {G : Location → Prop} (hready : base.Ready)
    (hG : HidesScratch base G) (hsteady : c.Steady base G kind source) (hh : base.Matches G h)
    (hk : base.Matches G k) (hnames : c.NamesKept kind source h k)
    (hrun : (c.compile kind source).collect h = (.ok n, b, after)) :
    ∃ after', (c.compile kind source).collect k = (.ok n, b, after') := by
  obtain ⟨hsmall, hkept⟩ := hnames n b after hrun
  have hpair : Paired base G after.scratches k h := by
    refine ⟨hk, hh, fun m hm => Nat.le_of_eq ?_⟩
    exact Host.scratchName_size_eq (by omega) (by omega)
  rw [Emit.collect_eq, Prod.mk.injEq, Prod.mk.injEq] at hrun
  obtain ⟨hresult, rfl, rfl⟩ := hrun
  obtain ⟨after', hdone, -⟩ :=
    (compile_follows hready hG hsteady).runs hpair (Prod.ext hresult rfl) (Nat.le_refl _)
  exact ⟨after', by rw [Emit.collect_eq, hdone]⟩

end Compiler

/-! ## §3 Answers -/

namespace Content

variable {c : Content} {mount path : String} {since : Option Instant} {h k : Host} {target : Target}

/-- What a target is answered with that is not redirected. -/
def give (c : Content) (target : Target) (since : Option Instant) (h : Host) :
    Except Failure Outcome × Reply × Host :=
  match target.kind.output? with
  | none =>
    let (outcome, reply) := serveFile h target since
    (outcome, reply, h)
  | some output =>
    let (result, body, h) := (c.compiler.compile target.kind target.path).collect h
    (result.map fun _ => .served, ⟨some output.mediaType, none, body⟩, h)

theorem serve_missing (hnone : Resolve.request? h c.roots mount path = none) :
    c.serve ⟨mount, path, since⟩ h = (.ok .notFound, default, h) := by
  unfold serve
  rw [hnone]

theorem serve_found (htarget : Resolve.request? h c.roots mount path = some target) :
    c.serve ⟨mount, path, since⟩ h =
      if target.redirect then (.ok (.redirect (path ++ "/")), default, h)
      else c.give target since h := by
  unfold serve
  rw [htarget]
  rfl

/-- Nothing but the location of a redirect depends on the slash at the end of a request. -/
theorem give_asked (slash : Bool) : c.give (target.asked slash) since h = c.give target since h :=
  rfl

theorem give_ne_redirect {location : String} :
    (c.give target since h).1 ≠ .ok (.redirect location) := by
  unfold give
  cases target.kind.output? with
  | none => exact serveFile_ne_redirect
  | some output =>
    rcases (c.compiler.compile target.kind target.path).collect h with ⟨result, body, after⟩
    cases result with
    | error e => exact fun heq => by cases heq
    | ok n => exact fun heq => by cases heq

/-- Two moments between which no file changes. The tools that a request needs are functions: what
    they give depends neither on files in scratch directories nor on the names of these. -/
structure Undisturbed (c : Content) (mount path : String) (h k : Host) : Prop where
  ready : h.Ready
  ready' : k.Ready
  alike : h.Alike k
  steady : ∀ target, Resolve.request? h c.roots mount path = some target →
    target.kind.output? ≠ none →
      c.compiler.Steady h (Compiler.scratchPlaces h) target.kind target.path
  names : ∀ target, Resolve.request? h c.roots mount path = some target →
    c.compiler.NamesKept target.kind target.path h k ∧
      c.compiler.NamesKept target.kind target.path k h

theorem Undisturbed.collect (hrests : c.Undisturbed mount path h k)
    (htarget : Resolve.request? h c.roots mount path = some target)
    (houtput : target.kind.output? ≠ none) (n : Nat) (b : Bytes) :
    (∃ after, (c.compiler.compile target.kind target.path).collect h = (.ok n, b, after)) ↔
      ∃ after, (c.compiler.compile target.kind target.path).collect k = (.ok n, b, after) := by
  have hsteady := hrests.steady target htarget houtput
  have hhidden : HidesScratch h (Compiler.scratchPlaces h) := fun n rest => ⟨n, rest, rfl⟩
  have hh : h.Matches (Compiler.scratchPlaces h) h := hrests.ready.matches h.scratches
  have hk : h.Matches (Compiler.scratchPlaces h) k :=
    hrests.alike.matches hrests.ready hrests.ready'
  obtain ⟨hforth, hback⟩ := hrests.names target htarget
  exact ⟨fun ⟨_, hrun⟩ => Compiler.collect_same hrests.ready hhidden hsteady hh hk hforth hrun,
    fun ⟨_, hrun⟩ => Compiler.collect_same hrests.ready hhidden hsteady hk hh hback hrun⟩

end Content

namespace Http

/-- Two responses tell the same; if they redirect, then maybe to different locations. -/
structure Response.Alike (a b : Response) : Prop where
  status : a.status = b.status
  body : a.body = b.body
  values : ∀ name, Text.sameIgnoringCase "location" name = false →
    a.headers.values name = b.headers.values name
  redirects : a.headers.has "location" = b.headers.has "location"

theorem Response.Alike.refl (a : Response) : a.Alike a :=
  ⟨rfl, rfl, fun _ _ => rfl, rfl⟩

namespace Server

variable {s : Server} {r r' : Request} {h k : Host} {path u v : String} {target : Target}
  {answer : Option (Response × Host)}

/-- The response that sends a client to the same path with a slash at its end. -/
def redirection (path : String) : Response :=
  (Response.empty 301).setHeader "location" (Percent.encode (path ++ "/"))

theorem redirection_alike (u v : String) : (redirection u).Alike (redirection v) := by
  refine ⟨rfl, rfl, fun name hname => ?_, ?_⟩
  · unfold redirection Response.setHeader Response.empty
    simp only [Headers.values_set_of_ne hname]
  · have hself : Text.sameIgnoringCase "location" "location" = true := by decide +kernel
    simp [redirection, Response.setHeader, Response.empty, Headers.set, Headers.erase, Headers.has,
      Headers.get?, Headers.values, hself]

/-- The answer is a redirect. -/
def Redirected (answer : Option (Response × Host)) : Prop :=
  ∃ response after, answer = some (response, after) ∧ response.status = 301

/-- A request asks for content at a path that can be read. -/
structure Gets (r : Request) (path : String) : Prop where
  method : r.method = "GET" ∨ r.method = "HEAD"
  decodes : Utf8.decode? (Percent.decode (Utf8.encode r.path)) = some path

theorem respondContent?_missing (hr : Gets r path)
    (hnone : Resolve.request? h s.content.roots s.options.mount path = none) :
    s.respondContent? r h = some (s.notFound h, h) := by
  rw [respondContent?_eq hr.method hr.decodes (Content.serve_missing hnone)]
  rfl

theorem respondContent?_redirected (hr : Gets r path)
    (htarget : Resolve.request? h s.content.roots s.options.mount path = some target)
    (hredirect : target.redirect = true) :
    s.respondContent? r h = some (redirection path, h) := by
  have hserve : s.content.serve ⟨s.options.mount, path, since? r⟩ h = _ :=
    Content.serve_found htarget
  rw [if_pos hredirect] at hserve
  rw [respondContent?_eq hr.method hr.decodes hserve]
  rfl

theorem respondContent?_given (hr : Gets r path)
    (htarget : Resolve.request? h s.content.roots s.options.mount path = some target)
    (hdirect : target.redirect = false) :
    s.respondContent? r h =
      (s.ofOutcome? (s.content.give target (since? r) h).2.2
        (s.content.give target (since? r) h).2.1 (s.content.give target (since? r) h).1).map
          fun response => (response, (s.content.give target (since? r) h).2.2) := by
  have hserve : s.content.serve ⟨s.options.mount, path, since? r⟩ h = _ :=
    Content.serve_found htarget
  rw [if_neg (by rw [hdirect]; exact Bool.false_ne_true)] at hserve
  exact respondContent?_eq hr.method hr.decodes hserve

/-- A directory is redirected exactly if it is requested without a slash at the end. -/
theorem redirected_iff (hr : Gets r path)
    (htarget : Resolve.request? h s.content.roots s.options.mount path = some target)
    (hhit : target.hit = .directory) :
    Redirected (s.respondContent? r h) ↔ ¬ RequestPath.Slashed path := by
  have hflag : target.redirect = !(path.toList.getLast? == some '/') := by
    have hasked := Resolve.request?_asked htarget
    rw [← hasked]
    simp [Target.asked, hhit]
  unfold RequestPath.Slashed
  by_cases hslash : path.toList.getLast? = some '/'
  · -- the index of the directory is answered with
    have hdirect : target.redirect = false := by simp [hflag, hslash]
    refine iff_of_false ?_ (fun hnot => hnot hslash)
    rintro ⟨response, after, hanswer, hstatus⟩
    rw [respondContent?_given hr htarget hdirect] at hanswer
    obtain ⟨found, hfound, heq⟩ := Option.map_eq_some_iff.mp hanswer
    obtain ⟨rfl, -⟩ := Prod.mk.inj heq
    obtain ⟨location, hresult, -⟩ := redirect_of_status hfound hstatus
    exact Content.give_ne_redirect hresult
  · have hredirect : target.redirect = true := by simp [hflag, hslash]
    exact iff_of_true ⟨_, _, respondContent?_redirected hr htarget hredirect, rfl⟩ hslash

theorem notFound_alike (hk : h.Alike k) : s.notFound k = s.notFound h := by
  unfold notFound Tree.bytesAt
  simp only [hk.openFile]

/-- Without a redirect, a target is answered with the same response at both moments. -/
theorem given_alike {since : Option Instant}
    (hrests : h = k ∨ s.content.Undisturbed s.options.mount path h k)
    (htarget : Resolve.request? h s.content.roots s.options.mount path = some target) :
    s.ofOutcome? (s.content.give target since k).2.2 (s.content.give target since k).2.1
        (s.content.give target since k).1 =
      s.ofOutcome? (s.content.give target since h).2.2 (s.content.give target since h).2.1
        (s.content.give target since h).1 := by
  rcases hrests with rfl | hrests
  · rfl
  cases houtput : target.kind.output? with
  | none =>
    have hfile : Content.serveFile k target since = Content.serveFile h target since := by
      unfold Content.serveFile
      rw [hrests.alike.openFile, hrests.alike.now]
    simp only [Content.give, houtput, hfile]
    generalize (Content.serveFile h target since).1 = result
    unfold ofOutcome?
    rw [notFound_alike hrests.alike]
  | some output =>
    have hsame := hrests.collect htarget (by rw [houtput]; exact Option.some_ne_none _)
    simp only [Content.give, houtput]
    rcases hleft : (s.content.compiler.compile target.kind target.path).collect h with
      ⟨result, body, after⟩
    rcases hright : (s.content.compiler.compile target.kind target.path).collect k with
      ⟨result', body', after'⟩
    rw [hleft, hright] at hsame
    -- if the source compiles at one moment, then at both, and else neither answer shows what failed
    cases result with
    | ok n =>
      obtain ⟨_, heq⟩ := (hsame n body).mp ⟨_, rfl⟩
      rw [Prod.mk.injEq, Prod.mk.injEq] at heq
      obtain ⟨rfl, rfl, -⟩ := heq
      rfl
    | error e =>
      cases result' with
      | ok n =>
        obtain ⟨_, heq⟩ := (hsame n body').mpr ⟨_, rfl⟩
        cases heq
      | error e' => rfl

/-- Two spellings of one place are answered alike, at one moment or at two between which no file
    changes, if both end in a slash or both do not. A slash at the end leads nowhere else, and it
    makes no difference to the answer unless the place is that of a directory with an index: then
    exactly the spelling without the slash is redirected. -/
theorem spelling_free (hr : Gets r u) (hr' : Gets r' v)
    (hclean : RequestPath.clean u = RequestPath.clean v) (hsince : since? r = since? r')
    (hrests : h = k ∨ s.content.Undisturbed s.options.mount u h k) :
    (∀ path, RequestPath.clean (path ++ "/") = RequestPath.clean path) ∧
    (∀ target, Resolve.request? h s.content.roots s.options.mount u = some target →
      target.hit = .directory →
      (Redirected (s.respondContent? r h) ↔ ¬ RequestPath.Slashed u) ∧
      (Redirected (s.respondContent? r' k) ↔ ¬ RequestPath.Slashed v)) ∧
    ((RequestPath.Slashed u ↔ RequestPath.Slashed v) ∨
        (∀ target, Resolve.request? h s.content.roots s.options.mount u = some target →
          target.hit ≠ .directory) →
      Option.Rel (fun a b => a.1.Alike b.1) (s.respondContent? r h) (s.respondContent? r' k)) := by
  have halike : h.Alike k := by
    rcases hrests with rfl | hrests
    · exact .refl h
    · exact hrests.alike
  have hother : Resolve.request? k s.content.roots s.options.mount v =
      (Resolve.request? h s.content.roots s.options.mount u).map
        (·.asked (v.toList.getLast? == some '/')) := by
    rw [halike.request?, Resolve.request?_congr_clean hclean]
  refine ⟨RequestPath.clean_slash, fun target htarget hhit => ?_, fun hcase => ?_⟩
  · rw [htarget] at hother
    exact ⟨redirected_iff hr htarget hhit, redirected_iff hr' hother hhit⟩
  · cases htarget : Resolve.request? h s.content.roots s.options.mount u with
    | none =>
      rw [htarget] at hother
      rw [respondContent?_missing hr htarget, respondContent?_missing hr' hother,
        notFound_alike halike]
      exact .some (.refl _)
    | some target =>
      rw [htarget, Option.map_some] at hother
      have hflag : (target.asked (v.toList.getLast? == some '/')).redirect = target.redirect :=
        Resolve.asked_redirect htarget (hcase.imp_right fun hfile => hfile target htarget)
      cases hredirect : target.redirect with
      | true =>
        -- the locations differ, and nothing else
        rw [respondContent?_redirected hr htarget hredirect,
          respondContent?_redirected hr' hother (hflag.trans hredirect)]
        exact .some (redirection_alike u v)
      | false =>
        rw [respondContent?_given hr htarget hredirect,
          respondContent?_given hr' hother (hflag.trans hredirect), Content.give_asked, ← hsince,
          given_alike hrests htarget]
        cases s.ofOutcome? (s.content.give target (since? r) h).2.2
            (s.content.give target (since? r) h).2.1 (s.content.give target (since? r) h).1 with
        | none => exact .none
        | some response => exact .some (.refl response)

/-- A server for the files of `bundleHost`, with one program for every tool. -/
def bundleServer : Server where
  content := Content.ofRoots [⟨"site"⟩] default oneTool
  options := ⟨"/", [], none, false, "/rebuild"⟩
  rebuild := none

/-- No request changes a file of `bundleHost`, and its program only looks at what it is given. -/
theorem bundle_undisturbed : bundleServer.content.Undisturbed "/" "/a.js" Compiler.bundleHost
    (Compiler.bundleHost.numbered 41) := by
  have hready := Compiler.bundle_ready
  have hmatches := hready.matches (G := fun _ => False) 41
  have htarget : ∀ target, Resolve.request? Compiler.bundleHost [⟨"site"⟩] "/" "/a.js" =
      some target → target = ⟨.preprocessedScript, ⟨"site/a.main.js"⟩, .file, false⟩ := by
    have hfound : Resolve.request? Compiler.bundleHost [⟨"site"⟩] "/" "/a.js" =
        some ⟨.preprocessedScript, ⟨"site/a.main.js"⟩, .file, false⟩ := by decide +kernel
    intro target hsome
    exact Option.some.inj (hsome.symm.trans hfound)
  refine ⟨hready, hmatches.ready, hmatches.beside, fun target hsome _ => ?_, fun target hsome => ?_⟩
  · obtain rfl := htarget target hsome
    exact steady_of_blind ⟨"/bin/tool"⟩ (Compiler.scratchPlaces_vacates hready) rfl
      (by decide +kernel) (fun loc run h => installed_eq h ▸ Program.echoing_blind)
      (by decide +kernel) (by decide +kernel) (by decide) (by decide +kernel) (by decide +kernel)
  · obtain rfl := htarget target hsome
    -- the source is streamed, so no scratch directory is made for it
    have hnone : ∀ n ∈ [0, 41], ∀ m b after, (bundleServer.content.compiler.compile
        .preprocessedScript ⟨"site/a.main.js"⟩).collect (Compiler.bundleHost.numbered n) =
          (.ok m, b, after) → after.scratches = n := by
      have hnumbers : ∀ n ∈ [0, 41], ((bundleServer.content.compiler.compile .preprocessedScript
          ⟨"site/a.main.js"⟩).collect (Compiler.bundleHost.numbered n)).2.2.scratches = n := by
        decide +kernel
      intro n hn m b after hrun
      have hafter := hnumbers n hn
      rwa [hrun] at hafter
    constructor
    · intro m b after hrun
      rw [hnone 0 (by decide) m b after hrun]
      decide
    · intro m b after hrun
      rw [hnone 41 (by decide) m b after hrun]
      decide

theorem bundle_spellings :
    Option.Rel (fun a b => a.1.Alike b.1)
      (bundleServer.respondContent? (getRequest "/a.js") Compiler.bundleHost)
      (bundleServer.respondContent? (getRequest "//b/%2E%2e/./%61.js")
        (Compiler.bundleHost.numbered 41)) ∧
    ¬ Redirected (docsServer.respondContent? (getRequest "/docs/") docsHost) ∧
    Redirected (docsServer.respondContent? (getRequest "/x/../docs") docsHost) := by
  have hplain : Gets (getRequest "/a.js") "/a.js" := ⟨.inl rfl, by decide +kernel⟩
  have hother : Gets (getRequest "//b/%2E%2e/./%61.js") "//b/.././a.js" :=
    ⟨.inl rfl, by decide +kernel⟩
  have hscript := (spelling_free hplain hother (by decide +kernel) rfl
    (.inr bundle_undisturbed)).2.2 (.inl (by decide +kernel))
  have hslash : Gets (getRequest "/docs/") "/docs/" := ⟨.inl rfl, by decide +kernel⟩
  have hdots : Gets (getRequest "/x/../docs") "/x/../docs" := ⟨.inl rfl, by decide +kernel⟩
  have hdocs := (spelling_free (s := docsServer) (h := docsHost) hslash hdots (by decide +kernel)
    rfl (.inl rfl)).2.1 ⟨.passthrough, ⟨"site/docs/index.html"⟩, .directory, false⟩
      (by decide +kernel) rfl
  exact ⟨hscript, fun hredirected => hdocs.1.mp hredirected (by decide +kernel),
    hdocs.2.mpr (by decide +kernel)⟩

end Server

end Http

end AssetServer
