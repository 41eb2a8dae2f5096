import AssetServer.Proofs.Arrival

/-!
# Files and the range of dates

A plain file is answered with the date of its last change, and compared with the date that the
client sends. Dates end long before the last second that a clock can hold, so there is a second
after every date that can be sent. A file may have been changed at any second, also at one that no
date names; then there is nothing to answer with, unless the client need not be sent the file.

- `HttpDate.dated_iff`: the seconds that have a date.
- `HttpDate.nextSecond?_of_parse?`: there is a second after every date that is read.
- `Http.Server.plain_file_answers`: the answer to every request for a plain file.
-/

namespace AssetServer

/-! ## §1 Seconds with a date -/

namespace HttpDate

open Calendar

/-- The year of an instant is one that dates can have. -/
def Dated (t : Instant) : Prop :=
  minYear ≤ yearOf t ∧ yearOf t ≤ maxYear

instance (t : Instant) : Decidable (Dated t) :=
  inferInstanceAs (Decidable (_ ∧ _))

theorem format?_isSome_iff {t : Instant} : (format? t).isSome = true ↔ Dated t := by
  unfold format?
  simp only
  split
  · rename_i hdated
    exact ⟨fun _ => hdated, fun _ => rfl⟩
  · rename_i hdated
    exact ⟨fun hsome => by simp at hsome, fun hthere => absurd hthere hdated⟩

/-- The years that dates can have go from one day to another. -/
theorem year_bounds (days : Int) :
    (minYear ≤ (ofDays days).year ↔ -96465292 ≤ days) ∧
      ((ofDays days).year ≤ maxYear ↔ days ≤ 95026236) := by
  obtain ⟨era, p, hp, hdays⟩ := exists_era days
  have hcentury := hp.century
  have hspan := hp.span
  have hyear := hp.year
  have hday := hp.day
  have hleap := hp.leap
  -- the first of January is the day 306 of a year that begins in March
  have hjanuary : monthOf p.day < 10 ↔ p.day < 306 := by
    unfold monthOf
    omega
  have hof : (ofDays days).year =
      p.yearOfEra + era * 400 + (if monthOf p.day < 10 then 0 else 1) := by
    rw [ofDays_eq hp hdays]
  unfold Place.dayOfEra daysToEpoch daysPerEra at hdays
  unfold Place.yearOfEra at hof
  unfold minYear maxYear
  simp only [hjanuary] at hof
  constructor
  · split at hof <;> omega
  · split at hof <;> omega

/-- The seconds that have a date. -/
theorem dated_iff {t : Instant} :
    Dated t ↔ -8334601228800 ≤ t.seconds ∧ t.seconds ≤ 8210266876799 := by
  have hsecond := secondOfDay_lt t
  have hseconds := seconds_eq t
  obtain ⟨hmin, hmax⟩ := year_bounds (dayOf t)
  unfold Dated yearOf
  rw [hmin, hmax]
  omega

/-- A date that is read is a whole second, which has a date or is the leap second after one that
    has. -/
theorem exists_dated_of_parse? {text : String} {t : Instant} (h : parse? text = some t) :
    t.nanos = 0 ∧ ∃ u : Instant, Dated u ∧ (t.seconds = u.seconds ∨ t.seconds = u.seconds + 1) := by
  unfold parse? at h
  obtain ⟨⟨dayOfWeek, cs₁⟩, -, h⟩ := Option.bind_eq_some_iff.mp h
  obtain ⟨⟨day, cs₂⟩, -, h⟩ := Option.bind_eq_some_iff.mp h
  obtain ⟨cs₃, -, h⟩ := Option.bind_eq_some_iff.mp h
  obtain ⟨⟨month, cs₄⟩, -, h⟩ := Option.bind_eq_some_iff.mp h
  obtain ⟨cs₅, -, h⟩ := Option.bind_eq_some_iff.mp h
  obtain ⟨⟨year, cs₆⟩, -, h⟩ := Option.bind_eq_some_iff.mp h
  obtain ⟨cs₇, -, h⟩ := Option.bind_eq_some_iff.mp h
  obtain ⟨⟨hour, cs₈⟩, -, h⟩ := Option.bind_eq_some_iff.mp h
  obtain ⟨cs₉, -, h⟩ := Option.bind_eq_some_iff.mp h
  obtain ⟨⟨minute, cs₁₀⟩, -, h⟩ := Option.bind_eq_some_iff.mp h
  obtain ⟨⟨second, cs₁₁⟩, -, h⟩ := Option.bind_eq_some_iff.mp h
  obtain ⟨cs₁₂, -, h⟩ := Option.bind_eq_some_iff.mp h
  obtain ⟨⟨offset, cs₁₃⟩, -, h⟩ := Option.bind_eq_some_iff.mp h
  simp only [Option.ite_none_left_eq_some, Option.ite_none_right_eq_some, Option.some.injEq] at h
  obtain ⟨-, -, hrange, rfl⟩ := h
  -- the year that is checked is that of the second before, for a leap second
  refine ⟨rfl, ⟨_, 0⟩, hrange, ?_⟩
  simp only
  split <;> omega

/-- There is a second after every date that is read. -/
theorem nextSecond?_of_parse? {text : String} {t : Instant} (h : parse? text = some t) :
    t.nextSecond? = some ⟨t.seconds + 1, t.nanos⟩ := by
  obtain ⟨-, u, hdated, hseconds⟩ := exists_dated_of_parse? h
  obtain ⟨-, hmax⟩ := dated_iff.mp hdated
  apply if_pos
  show t.seconds < 9223372036854775807
  omega

end HttpDate

/-! ## §2 Answers -/

namespace Http

namespace Response

theorem configured_status (headers : Headers) (a : Response) :
    (headers.foldl (fun x (n, v) => x.setHeader n v) a).status = a.status := by
  induction headers generalizing a with
  | nil => rfl
  | cons header rest ih => exact ih _

theorem compressed_status (accept : List String) (a : Response) :
    (Compression.apply accept a).status = a.status := by
  unfold Compression.apply
  split
  · simp only
    split <;> rfl
  · rfl

end Response

namespace Server

variable {s : Server} {r : Request} {h : Host} {path : String} {target : Target} {f : RegularFile}

/-- What every response goes through leaves its status. -/
theorem finish_status (response : Response) : (s.finish r response).status = response.status := by
  unfold finish
  simp only
  split
  · rw [Response.compressed_status, Response.configured_status]
  · exact Response.configured_status _ _

/-- The request is none for an export. -/
def PassesRebuild (s : Server) (r : Request) : Prop :=
  ∀ rebuild, s.rebuild = some rebuild → rebuild.route.accepts r.path = false

theorem respond?_passed (hpasses : s.PassesRebuild r) : s.respond? r h =
    (s.respondContent? r h).map fun x => (s.finish r x.1, s, x.2) := by
  have hfilter : (s.rebuild.filter fun rebuild => rebuild.route.accepts r.path) = none := by
    cases hrebuild : s.rebuild with
    | none => rfl
    | some rebuild => simp [Option.filter, hpasses rebuild hrebuild]
  simp only [respond?, hfilter]

/-- The client has seen the file as it is: it sends a date, and the file was last changed before the
    second after that date. -/
def Seen (r : Request) (f : RegularFile) : Prop :=
  ∃ since, since? r = some since ∧ f.modified.Earlier ⟨since.seconds + 1, since.nanos⟩

/-- There is a second after every date that a client sends. -/
theorem nextSecond?_of_since? {since : Instant} (hsince : since? r = some since) :
    since.nextSecond? = some ⟨since.seconds + 1, since.nanos⟩ := by
  obtain ⟨text, -, hparse⟩ := Option.bind_eq_some_iff.mp hsince
  exact HttpDate.nextSecond?_of_parse? hparse

/-- A client that has seen a plain file is told that nothing has changed. -/
theorem respondContent?_seen (hasks : s.Asks r h path target f) (hseen : Seen r f) :
    s.respondContent? r h = some (.empty 304, h) := by
  obtain ⟨since, hsince, hearlier⟩ := hseen
  have hbefore : f.modified.notBefore ⟨since.seconds + 1, since.nanos⟩ = false := by
    simp [← Bool.not_eq_true, Instant.notBefore_iff, hearlier]
  have hserve : s.content.serve ⟨s.options.mount, path, since? r⟩ h =
      (.ok .notModified, default, h) := by
    rw [Content.serve_plain hasks.leads]
    simp [hsince, Instant.modifiedSince?, nextSecond?_of_since? hsince, hbefore]
  exact respondContent?_eq hasks.method hasks.decodes hserve

/-- Any other client is sent the file, if there is a date for its last change. -/
theorem respondContent?_unseen (hasks : s.Asks r h path target f) (hunseen : ¬ Seen r f) :
    s.respondContent? r h = (fileResponse? target f).map fun response => (response, h) := by
  cases hsince : since? r with
  | none => exact respondContent?_file hasks hsince
  | some since =>
    have hafter : f.modified.notBefore ⟨since.seconds + 1, since.nanos⟩ = true := by
      apply Instant.notBefore_iff.mpr
      exact fun hearlier => hunseen ⟨since, hsince, hearlier⟩
    have hserve : s.content.serve ⟨s.options.mount, path, since? r⟩ h =
        (.ok .served, Content.fileReply target f, h) := by
      rw [Content.serve_plain hasks.leads]
      simp [hsince, Instant.modifiedSince?, nextSecond?_of_since? hsince, hafter]
    exact respondContent?_eq hasks.method hasks.decodes hserve

/-- A request for a plain file is answered 304 if the client has seen the file, and else 200 with
    all of it, if the last change of the file lies in a year that dates can have. If it does not then
    there is no answer. The second after the date of a client, with which the last change is
    compared, is always one that a clock can hold. -/
theorem plain_file_answers (hasks : s.Asks r h path target f) (hpasses : s.PassesRebuild r) :
    (∀ since, since? r = some since → ∃ next, since.nextSecond? = some next) ∧
    (Seen r f → ∃ response, s.respond? r h = some (response, s, h) ∧ response.status = 304) ∧
    (¬ Seen r f → HttpDate.Dated f.modified → ∃ response,
      s.respond? r h = some (response, s, h) ∧ response.status = 200 ∧ response.body = f.content) ∧
    (¬ Seen r f → ¬ HttpDate.Dated f.modified → s.respond? r h = none) := by
  refine ⟨fun since hsince => ⟨_, nextSecond?_of_since? hsince⟩, ?_, ?_, ?_⟩
  · intro hseen
    refine ⟨s.finish r (.empty 304), ?_, finish_status _⟩
    simp [respond?_passed hpasses, respondContent?_seen hasks hseen]
  · intro hunseen hdated
    obtain ⟨date, hdate⟩ := Option.isSome_iff_exists.mp (HttpDate.format?_isSome_iff.mpr hdated)
    refine ⟨s.finish r ⟨200, [("content-type", Content.mediaTypeOf target.path target.hit),
      ("last-modified", date)], f.content⟩, ?_, finish_status _, finish_body _⟩
    simp [respond?_passed hpasses, respondContent?_unseen hasks hunseen, fileResponse?, hdate]
  · intro hunseen hundated
    have hnone : HttpDate.format? f.modified = none := by
      rw [← Option.not_isSome_iff_eq_none, HttpDate.format?_isSome_iff]
      exact hundated
    simp [respond?_passed hpasses, respondContent?_unseen hasks hunseen, fileResponse?, hnone]

theorem docs_passes (r : Request) : docsServer.PassesRebuild r := by
  intro rebuild hrebuild
  cases hrebuild

/-- A file of the last second that has a date is sent, also to a client whose date cannot be read;
    a file of the second after it is not sent; but nobody misses a file that was changed at the
    first second of the clock, if they have a date. -/
theorem last_date_answers :
    (∃ response, docsServer.respond? (agedRequest (some "31 Dec +262143"))
        (agedHost [1] ⟨8210266876799, 5⟩) =
        some (response, docsServer, agedHost [1] ⟨8210266876799, 5⟩) ∧
      response.status = 200 ∧ response.body = [1]) ∧
    docsServer.respond? (agedRequest none) (agedHost [1] ⟨8210266876800, 0⟩) = none ∧
    ∃ response, docsServer.respond? (agedRequest (some "Tue, 30 Dec 1969 23:59:59 GMT"))
        (agedHost [1] ⟨-9223372036854775808, 0⟩) =
        some (response, docsServer, agedHost [1] ⟨-9223372036854775808, 0⟩) ∧
      response.status = 304 := by
  have hlast := aged_asks (some "31 Dec +262143") [1] ⟨8210266876799, 5⟩
    (by decide +kernel) (by decide +kernel)
  have hlater := aged_asks none [1] ⟨8210266876800, 0⟩ (by decide +kernel) (by decide +kernel)
  have hfirst := aged_asks (some "Tue, 30 Dec 1969 23:59:59 GMT") [1] ⟨-9223372036854775808, 0⟩
    (by decide +kernel) (by decide +kernel)
  have hsince : since? (agedRequest (some "Tue, 30 Dec 1969 23:59:59 GMT")) = some ⟨-86401, 0⟩ := by
    decide +kernel
  have hnone : since? (agedRequest none) = none := by decide +kernel
  have hunread : since? (agedRequest (some "31 Dec +262143")) = none := by decide +kernel
  refine ⟨?_, ?_, ?_⟩
  · obtain ⟨-, -, hsent, -⟩ := plain_file_answers hlast (docs_passes _)
    refine hsent ?_ (HttpDate.dated_iff.mpr (by decide))
    rintro ⟨since, hdate, -⟩
    simp [hunread] at hdate
  · obtain ⟨-, -, -, hunsent⟩ := plain_file_answers hlater (docs_passes _)
    refine hunsent ?_ (fun hdated => absurd (HttpDate.dated_iff.mp hdated) (by decide))
    rintro ⟨since, hdate, -⟩
    simp [hnone] at hdate
  · obtain ⟨-, hunchanged, -, -⟩ := plain_file_answers hfirst (docs_passes _)
    exact hunchanged ⟨_, hsince, .inl (by decide)⟩

/-- A file that was changed at the last second of the clock gets no answer. -/
theorem last_second_unanswered :
    docsServer.Asks (agedRequest none) (agedHost [1] ⟨9223372036854775807, 0⟩) "/old"
      ⟨.passthrough, ⟨"site/old"⟩, .file, false⟩
      ⟨[1], RegularFile.defaultMode, ⟨9223372036854775807, 0⟩⟩ ∧
    docsServer.respond? (agedRequest none) (agedHost [1] ⟨9223372036854775807, 0⟩) = none :=
  ⟨aged_asks none [1] ⟨9223372036854775807, 0⟩ (by decide +kernel) (by decide +kernel),
    by decide +kernel⟩

end Server

end Http

end AssetServer
