import AssetServer.Proofs.HttpDate
import AssetServer.Proofs.Redirect

/-!
# Asking again for a file

A file is served with the date of its last change. A client that sends the date back is told that
nothing has changed, unless the file has been written a second later or more; then it is sent what
the file holds now.

- `Instant.notBefore_iff`: the order of instants that a server compares them by.
- `Content.serve_plain`: what becomes of a request that leads to a plain file.
- `Http.Server.revalidates`: the date comes back as the whole second of the change, and what is
  answered to a request with it.
-/

namespace AssetServer

/-! ## §1 Instants -/

namespace Instant

/-- The one instant comes before the other. -/
def Earlier (a b : Instant) : Prop :=
  a.seconds < b.seconds ∨ a.seconds = b.seconds ∧ a.nanos < b.nanos

theorem notBefore_iff {a b : Instant} : a.notBefore b = true ↔ ¬ a.Earlier b := by
  unfold notBefore Earlier
  simp only [Bool.or_eq_true, Bool.and_eq_true, decide_eq_true_eq, beq_iff_eq]
  omega

end Instant

/-! ## §2 Plain files -/

namespace Content

variable {c : Content} {r : ContentRequest} {h : Host} {target : Target} {f : RegularFile}

/-- A request leads to a plain file, which is used as it is. -/
structure LeadsTo (c : Content) (r : ContentRequest) (h : Host) (target : Target) (f : RegularFile) :
    Prop where
  found : Resolve.request? h c.roots r.mount r.path = some target
  direct : target.redirect = false
  plain : target.kind = .passthrough
  opens : h.tree.openFile h.directory target.path = .ok (.file f)

/-- What is written of a plain file. -/
def fileReply (target : Target) (f : RegularFile) : Reply :=
  ⟨some (mediaTypeOf target.path target.hit), some f.modified, f.content⟩

/-- A plain file is served as a whole, unless the client has seen it since it was last changed. -/
theorem serve_plain (hleads : c.LeadsTo r h target f) :
    c.serve r h = match r.since.map (Instant.modifiedSince? f.modified) with
      | some none => (.ok .outOfTime, default, h)
      | some (some false) => (.ok .notModified, default, h)
      | _ => (.ok .served, fileReply target f, h) := by
  have houtput : target.kind.output? = none := by
    rw [hleads.plain]
    rfl
  unfold serve serveFile
  simp only [hleads.found, hleads.direct, houtput, hleads.opens, Tree.Opened.read, fileReply,
    Bool.false_eq_true, if_false]
  generalize r.since.map (Instant.modifiedSince? f.modified) = answer
  cases answer with
  | none => rfl
  | some seen =>
    cases seen with
    | none => rfl
    | some unchanged => cases unchanged <;> rfl

/-- For a client that has seen the file at a whole second, less than a second more is no change. -/
theorem serve_since {t : Instant} (hleads : c.LeadsTo r h target f) (hsince : r.since = some t.floor)
    (ht : t.seconds < Instant.maxSeconds) :
    (f.modified.Earlier ⟨t.seconds + 1, 0⟩ → c.serve r h = (.ok .notModified, default, h)) ∧
      (¬ f.modified.Earlier ⟨t.seconds + 1, 0⟩ →
        c.serve r h = (.ok .served, fileReply target f, h)) := by
  have hnext : t.floor.nextSecond? = some ⟨t.seconds + 1, 0⟩ := if_pos ht
  have hmodified : r.since.map (Instant.modifiedSince? f.modified) =
      some (some (f.modified.notBefore ⟨t.seconds + 1, 0⟩)) := by
    rw [hsince, Option.map_some, Instant.modifiedSince?, hnext, Option.map_some]
  rw [serve_plain hleads, hmodified, ← not_not (a := f.modified.Earlier _), ← Instant.notBefore_iff]
  constructor
  · intro hseen
    rw [Bool.not_eq_true] at hseen
    rw [hseen]
  · intro hchanged
    rw [not_not] at hchanged
    rw [hchanged]

end Content

/-! ## §3 Requests with a date -/

namespace Http

theorem visible?_of_visible {text : String} (h : ∀ c ∈ text.toList, HttpDate.Visible c) :
    visible? text = some text := by
  unfold visible?
  rw [if_pos]
  refine List.all_eq_true.mpr fun c hc => ?_
  obtain ⟨hlow, hhigh⟩ := h c hc
  simp [hlow, hhigh]

namespace Server

variable {s s' : Server} {r r' : Request} {h h' after : Host} {response : Response}
  {path path' : String} {target target' : Target} {f f' : RegularFile}

/-- A request asks for content at a path that can be read, and a plain file is there. -/
structure Asks (s : Server) (r : Request) (h : Host) (path : String) (target : Target)
    (f : RegularFile) : Prop where
  method : r.method = "GET" ∨ r.method = "HEAD"
  decodes : Utf8.decode? (Percent.decode (Utf8.encode r.path)) = some path
  leads : s.content.LeadsTo ⟨s.options.mount, path, since? r⟩ h target f

/-- What is sent of a plain file, if there is a date for its last change. -/
def fileResponse? (target : Target) (f : RegularFile) : Option Response :=
  (HttpDate.format? f.modified).map fun date =>
    ⟨200, [("content-type", Content.mediaTypeOf target.path target.hit), ("last-modified", date)],
      f.content⟩

/-- A plain file that is sent with success is sent with the date of its last change. -/
theorem fileResponse_of_status (hasks : s.Asks r h path target f)
    (hrespond : s.respondContent? r h = some (response, after)) (hstatus : response.status = 200) :
    fileResponse? target f = some response := by
  have hanswer : ∀ {result : Except Failure Outcome} {reply : Reply} {k : Host},
      s.content.serve ⟨s.options.mount, path, since? r⟩ h = (result, reply, k) →
        s.ofOutcome? k reply result = some response := by
    intro result reply k hserve
    rw [respondContent?_eq hasks.method hasks.decodes hserve] at hrespond
    obtain ⟨found, hfound, heq⟩ := Option.map_eq_some_iff.mp hrespond
    obtain ⟨rfl, -⟩ := Prod.mk.inj heq
    exact hfound
  have hserve := Content.serve_plain hasks.leads
  -- what is not sent has another status
  split at hserve
  · rw [← Option.some.inj (hanswer hserve)] at hstatus
    cases hstatus
  · rw [← Option.some.inj (hanswer hserve)] at hstatus
    cases hstatus
  · exact hanswer hserve

/-- A file that is served with a change in the years 0 to 9999 carries a date that is read as the
    whole second of the change. A later request with this date that leads to a plain file, of this
    server or another state of it, is answered without content if the file was written before the
    next second, and else with all that the file holds now. -/
theorem revalidates (hasks : s.Asks r h path target f)
    (hrespond : s.respondContent? r h = some (response, after)) (hstatus : response.status = 200)
    (hmin : 0 ≤ HttpDate.yearOf f.modified) (hmax : HttpDate.yearOf f.modified ≤ 9999) :
    ∃ date, HttpDate.format? f.modified = some date ∧
      response.headers.get? "last-modified" = some date ∧
      HttpDate.parse? date = some f.modified.floor ∧
      ∀ (s' : Server) (r' : Request) (h' : Host) (path' : String) (target' : Target)
        (f' : RegularFile), s'.Asks r' h' path' target' f' →
        r'.headers.get? "if-modified-since" = some date →
        (f'.modified.Earlier ⟨f.modified.seconds + 1, 0⟩ →
          s'.content.serve ⟨s'.options.mount, path', since? r'⟩ h' =
            (.ok .notModified, default, h') ∧
          s'.respondContent? r' h' = some (.empty 304, h')) ∧
        (¬ f'.modified.Earlier ⟨f.modified.seconds + 1, 0⟩ →
          s'.content.serve ⟨s'.options.mount, path', since? r'⟩ h' =
            (.ok .served, ⟨some (Content.mediaTypeOf target'.path target'.hit), some f'.modified,
              f'.content⟩, h') ∧
          s'.respondContent? r' h' =
            (fileResponse? target' f').map fun response' => (response', h')) := by
  obtain ⟨date, hformat, hparse⟩ := HttpDate.parse?_format? hmin hmax
  -- a header is read only if all of it is visible
  have hvisible := visible?_of_visible (HttpDate.visible_of_format? hmin hmax hformat)
  refine ⟨date, hformat, ?_, hparse, ?_⟩
  · have hresponse := fileResponse_of_status hasks hrespond hstatus
    unfold fileResponse? at hresponse
    rw [hformat, Option.map_some, Option.some.injEq] at hresponse
    rw [← hresponse]
    have hother : Text.sameIgnoringCase "content-type" "last-modified" = false := by decide +kernel
    have hself : Text.sameIgnoringCase "last-modified" "last-modified" = true := by decide +kernel
    simp [Headers.get?, Headers.values, hother, hself]
  · intro s' r' h' path' target' f' hasks' hheader
    have hsince : since? r' = some f.modified.floor := by
      unfold since?
      rw [hheader, Option.bind_some, hvisible, Option.bind_some, hparse]
    obtain ⟨hseen, hchanged⟩ :=
      Content.serve_since hasks'.leads hsince (HttpDate.seconds_lt_of_yearOf hmax)
    constructor
    · intro hearlier
      have hserve := hseen hearlier
      exact ⟨hserve, respondContent?_eq hasks'.method hasks'.decodes hserve⟩
    · intro hlater
      have hserve := hchanged hlater
      exact ⟨hserve, respondContent?_eq hasks'.method hasks'.decodes hserve⟩

/-- A host with one file, last changed at some instant. -/
def agedHost (content : Bytes) (modified : Instant) : Host :=
  .ofTree ⟨[(["site"], .directory),
    (["site", "old"], .file ⟨content, RegularFile.defaultMode, modified⟩)]⟩ fun _ => none

/-- A request for this file by a client that has seen it before, if it gives a date. -/
def agedRequest (date : Option String) : Request :=
  ⟨"GET", "/old", date.toList.map fun d => ("If-Modified-Since", d)⟩

theorem aged_asks (date : Option String) (content : Bytes) (modified : Instant)
    (hfound : Resolve.request? (agedHost content modified) [⟨"site"⟩] "/" "/old" =
      some ⟨.passthrough, ⟨"site/old"⟩, .file, false⟩)
    (hopens : (agedHost content modified).tree.openFile [] ⟨"site/old"⟩ =
      .ok (.file ⟨content, RegularFile.defaultMode, modified⟩)) :
    docsServer.Asks (agedRequest date) (agedHost content modified) "/old"
      ⟨.passthrough, ⟨"site/old"⟩, .file, false⟩ ⟨content, RegularFile.defaultMode, modified⟩ where
  method := .inl rfl
  decodes := by
    show Utf8.decode? (Percent.decode (Utf8.encode "/old")) = some "/old"
    decide +kernel
  leads := ⟨hfound, rfl, rfl, hopens⟩

theorem aged_revalidates :
    (docsServer.respondContent? (agedRequest (some "Tue, 30 Dec 1969 23:59:59 GMT"))
      (agedHost [2] ⟨-86401, 999999999⟩)).map Prod.fst = some (.empty 304) ∧
    (docsServer.respondContent? (agedRequest (some "Tue, 30 Dec 1969 23:59:59 GMT"))
      (agedHost [2] ⟨-86400, 0⟩)).map (fun x => (x.1.status, x.1.body)) = some (200, [2]) := by
  have hasks := aged_asks none [1] ⟨-86401, 500000000⟩ (by decide +kernel) (by decide +kernel)
  obtain ⟨response, after, hrespond, hstatus⟩ : ∃ response after,
      docsServer.respondContent? (agedRequest none) (agedHost [1] ⟨-86401, 500000000⟩) =
        some (response, after) ∧ response.status = 200 := by
    have hmap : (docsServer.respondContent? (agedRequest none)
        (agedHost [1] ⟨-86401, 500000000⟩)).map (fun x => x.1.status) = some 200 := by
      decide +kernel
    obtain ⟨⟨response, after⟩, hsome, hstatus⟩ := Option.map_eq_some_iff.mp hmap
    exact ⟨response, after, hsome, hstatus⟩
  obtain ⟨date, hdate, -, -, hlater⟩ :=
    revalidates hasks hrespond hstatus (by decide +kernel) (by decide +kernel)
  obtain rfl : date = "Tue, 30 Dec 1969 23:59:59 GMT" :=
    Option.some.inj (hdate.symm.trans (by decide +kernel))
  have hasks₁ := aged_asks (some "Tue, 30 Dec 1969 23:59:59 GMT") [2] ⟨-86401, 999999999⟩
    (by decide +kernel) (by decide +kernel)
  have hasks₂ := aged_asks (some "Tue, 30 Dec 1969 23:59:59 GMT") [2] ⟨-86400, 0⟩
    (by decide +kernel) (by decide +kernel)
  obtain ⟨-, hseen⟩ :=
    (hlater _ _ _ _ _ _ hasks₁ (by decide +kernel)).1 (.inl (by decide))
  obtain ⟨-, hchanged⟩ := (hlater _ _ _ _ _ _ hasks₂ (by decide +kernel)).2 (by
    rintro (hless | ⟨-, hless⟩)
    · exact absurd hless (by decide)
    · exact absurd hless (by decide))
  rw [hseen, hchanged]
  refine ⟨rfl, ?_⟩
  decide +kernel

end Server

end Http

end AssetServer
