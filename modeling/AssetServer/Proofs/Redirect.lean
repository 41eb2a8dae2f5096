import AssetServer.Proofs.Rooted

/-!
# Redirects

A request for a directory without the slash at its end is answered with the same path and a slash.
The directory is looked for at the place that the path leads to, while the location is made from the
path as it is spelled, so some spellings give a location that clients read as another server.

`Server.redirect_location` says which spellings stay on the server.
-/

namespace AssetServer.Http

/-! ## §1 Headers -/

namespace Headers

variable {headers : Headers} {name other value : String}

theorem values_append : (headers.append name value).values other =
    headers.values other ++ (if Text.sameIgnoringCase name other then [value] else []) := by
  unfold append values
  rw [List.filterMap_append]
  by_cases hsame : Text.sameIgnoringCase name other = true
  · simp [hsame]
  · simp [hsame]

/-- The values of one header stay when another one is taken out. -/
theorem values_erase (hother : Text.sameIgnoringCase name other = false) :
    (headers.erase name).values other = headers.values other := by
  unfold erase values
  rw [List.filterMap_filter]
  apply List.filterMap_congr
  rintro ⟨n, v⟩ -
  by_cases hn : Text.sameIgnoringCase n other = true
  · -- a header of the one name is not of the other
    have hapart : Text.sameIgnoringCase n name = false := by
      unfold Text.sameIgnoringCase at hn hother ⊢
      rw [eq_of_beq hn, beq_eq_false_iff_ne]
      exact (beq_eq_false_iff_ne.mp hother).symm
    simp [hapart]
  · simp [hn]

theorem values_set_of_ne (hother : Text.sameIgnoringCase name other = false) :
    (headers.set name value).values other = headers.values other := by
  have hset : headers.set name value = (headers.erase name).append name value := rfl
  rw [hset, values_append, values_erase hother]
  simp [hother]

end Headers

/-! ## §2 What every response goes through -/

/-- Two responses have the same status and the same values of a header. -/
structure Response.Agrees (name : String) (a b : Response) : Prop where
  status : a.status = b.status
  values : a.headers.values name = b.headers.values name

namespace Response

variable {name : String} {a b c : Response}

theorem Agrees.refl (a : Response) : Agrees name a a :=
  ⟨rfl, rfl⟩

theorem Agrees.trans (hab : Agrees name a b) (hbc : Agrees name b c) : Agrees name a c :=
  ⟨hab.status.trans hbc.status, hab.values.trans hbc.values⟩

theorem setHeader_agrees {other value : String} (hother : Text.sameIgnoringCase other name = false) :
    Agrees name (a.setHeader other value) a :=
  ⟨rfl, Headers.values_set_of_ne hother⟩

/-- Configured headers leave the other headers as they are. -/
theorem configured_agrees {headers : Headers}
    (hheaders : ∀ header ∈ headers, Text.sameIgnoringCase header.1 name = false) (a : Response) :
    Agrees name (headers.foldl (fun x (n, v) => x.setHeader n v) a) a := by
  induction headers generalizing a with
  | nil => exact .refl a
  | cons header rest ih =>
    have hrest := ih (fun k hk => hheaders k (List.mem_cons_of_mem _ hk))
      (a.setHeader header.1 header.2)
    exact hrest.trans (setHeader_agrees (hheaders header (by simp)))

/-- Marking a response for compression leaves the location as it is. -/
theorem compressed_agrees (accept : List String) (a : Response) :
    Agrees "location" (Compression.apply accept a) a := by
  have hvary : Text.sameIgnoringCase "vary" "location" = false := by decide +kernel
  have hranges : Text.sameIgnoringCase "accept-ranges" "location" = false := by decide +kernel
  have hencoding : Text.sameIgnoringCase "content-encoding" "location" = false := by decide +kernel
  have hmore : (a.headers.append "vary" "accept-encoding").values "location" =
      a.headers.values "location" := by
    rw [Headers.values_append, hvary]
    simp
  unfold Compression.apply
  split
  · simp only
    split
    · refine ⟨rfl, ?_⟩
      rw [Headers.values_set_of_ne hencoding, Headers.values_erase hranges, hmore]
    · exact ⟨rfl, hmore⟩
  · exact .refl a

end Response

namespace Server

variable {s server : Server} {r : Request} {h after : Host} {response : Response}

theorem finish_agrees
    (hheaders : ∀ header ∈ s.options.headers, Text.sameIgnoringCase header.1 "location" = false)
    (response : Response) : Response.Agrees "location" (s.finish r response) response := by
  have hconfigured := Response.configured_agrees hheaders response
  unfold finish
  simp only
  split
  · exact (Response.compressed_agrees _ _).trans hconfigured
  · exact hconfigured

end Server

/-! ## §3 Where a location leads -/

/-- A reference that is a path from the root of the same server: it starts with one slash, and not
    with two, after which the name of a server would follow. -/
def PathAbsolute (location : String) : Prop :=
  ∃ rest, location.toList = '/' :: rest ∧ rest.head? ≠ some '/'

namespace Percent

/-- Only a slash is written as a slash. -/
theorem head?_encodeByte (b : UInt8) : (encodeByte b).head? = some '/' ↔ b = 0x2F := by
  unfold encodeByte
  split
  · rename_i hescaped
    -- an escape begins with a percent sign, and a slash is not escaped
    constructor
    · intro h
      cases h
    · rintro rfl
      revert hescaped
      decide
  · rename_i hplain
    have hsmall : b.toNat < 127 := by
      by_contra hnot
      apply hplain
      have hbig : (0x7F : UInt8) ≤ b := by
        rw [UInt8.le_iff_toNat_le]
        exact Nat.le_of_not_lt hnot
      simp [isEscaped, hbig]
    have hascii : ∀ n < 127, Char.ofNat n = '/' ↔ n = 47 := by decide
    rw [List.head?_cons, Option.some.injEq, hascii _ hsmall, ← UInt8.toNat_inj]
    rfl

theorem encodeByte_ne_nil (b : UInt8) : encodeByte b ≠ [] := by
  unfold encodeByte
  split
  · exact List.cons_ne_nil _ _
  · exact List.cons_ne_nil _ _

/-- What is written for some bytes starts with what is written for the first. -/
theorem head?_flatMap (b : UInt8) (rest : Bytes) :
    ((b :: rest).flatMap encodeByte).head? = some '/' ↔ b = 0x2F := by
  rw [List.flatMap_cons, List.head?_append_of_ne_nil _ (encodeByte_ne_nil b), head?_encodeByte]

theorem toNat_eq_slash {c : Char} : c.val.toNat = 47 ↔ c = '/' := by
  constructor
  · intro hvalue
    apply Char.ext
    rw [← UInt32.toNat_inj, hvalue]
    rfl
  · rintro rfl
    rfl

/-- The first byte of a character is a slash for a slash alone: those of longer characters are
    outside ASCII. -/
theorem head?_encodeChar (c : Char) :
    ((String.utf8EncodeChar c).flatMap encodeByte).head? = some '/' ↔ c = '/' := by
  have hbyte : ∀ n < 256, UInt8.ofNat n = 0x2F ↔ n = 47 := by
    intro n hn
    rw [← UInt8.toNat_inj, UInt8.toNat_ofNat', Nat.mod_eq_of_lt hn]
    rfl
  -- only the first byte of the encoding counts, and that of a longer one is not ASCII
  rw [← toNat_eq_slash]
  unfold String.utf8EncodeChar
  simp only
  split
  · rw [head?_flatMap, hbyte _ (by omega)]
  · split
    · rw [head?_flatMap, hbyte _ (by omega)]
      omega
    · split
      · rw [head?_flatMap, hbyte _ (by omega)]
        omega
      · rw [head?_flatMap, hbyte _ (by omega)]
        omega

theorem toList_encode_cons (c : Char) (rest : List Char) :
    (encode (String.ofList (c :: rest))).toList =
      (String.utf8EncodeChar c).flatMap encodeByte ++ (encode (String.ofList rest)).toList := by
  unfold encode Utf8.encode
  simp only [String.toList_ofList, List.flatMap_cons, List.flatMap_append]

theorem toList_encode_slash (rest : List Char) : (encode (String.ofList ('/' :: rest))).toList =
    '/' :: (encode (String.ofList rest)).toList := by
  have hslash : (String.utf8EncodeChar '/').flatMap encodeByte = ['/'] := by decide +kernel
  rw [toList_encode_cons, hslash]
  rfl

/-- A path is written with a slash at its front if it has one there. -/
theorem head?_encode (cs : List Char) :
    (encode (String.ofList cs)).toList.head? = some '/' ↔ cs.head? = some '/' := by
  cases cs with
  | nil => decide +kernel
  | cons c rest =>
    have hne : (String.utf8EncodeChar c).flatMap encodeByte ≠ [] := by
      obtain ⟨b, more, hcons⟩ := List.exists_cons_of_ne_nil (@String.utf8EncodeChar_ne_nil c)
      rw [hcons, List.flatMap_cons]
      exact List.append_ne_nil_of_left_ne_nil (encodeByte_ne_nil b) _
    rw [toList_encode_cons, List.head?_append_of_ne_nil _ hne, head?_encodeChar, List.head?_cons,
      Option.some.injEq]

end Percent

/-- The path is empty, or starts with one slash that another character follows. -/
def OneSlash (path : String) : Prop :=
  path = "" ∨ ∃ c rest, path.toList = '/' :: c :: rest ∧ c ≠ '/'

/-- A path with a slash put behind it stays on the server exactly if it is empty or starts with one
    slash. -/
theorem pathAbsolute_iff {path : String} (hend : path.toList.getLast? ≠ some '/') :
    PathAbsolute (Percent.encode (path ++ "/")) ↔ OneSlash path := by
  have hpath : path ++ "/" = String.ofList (path.toList ++ ['/']) := by
    rw [String.ofList_append, String.ofList_toList]
  rw [hpath]
  unfold PathAbsolute OneSlash
  cases hcs : path.toList with
  | nil =>
    have hempty : path = "" := String.toList_eq_nil_iff.mp hcs
    refine iff_of_true ⟨[], ?_, by simp⟩ (.inl hempty)
    rw [List.nil_append, Percent.toList_encode_slash]
    rfl
  | cons c rest =>
    have hne : path ≠ "" := by
      rintro rfl
      cases hcs
    constructor
    -- encoding keeps slashes and makes no others, so the first two characters decide
    · rintro ⟨more, hmore, hsecond⟩
      have hfirst : c = '/' := by
        have := (Percent.head?_encode (c :: rest ++ ['/'])).mp (by rw [hmore]; rfl)
        simpa using this
      subst hfirst
      rw [List.cons_append, Percent.toList_encode_slash, List.cons.injEq] at hmore
      rw [← hmore.2, Ne, Percent.head?_encode] at hsecond
      cases rest with
      | nil => simp at hsecond
      | cons second tail => exact .inr ⟨second, tail, rfl, by simpa using hsecond⟩
    · rintro (hempty | ⟨second, tail, heq, hsecond⟩)
      · exact absurd hempty hne
      · rw [heq, List.cons_append, Percent.toList_encode_slash]
        refine ⟨_, rfl, ?_⟩
        rw [Ne, Percent.head?_encode]
        simpa using hsecond

/-! ## §4 Redirects -/

namespace Server

variable {s server : Server} {r : Request} {h after : Host} {response : Response}

/-- The status of the response to what became of a request. -/
def statusOf : Except Failure Outcome → Nat
  | .ok .served => 200
  | .ok .notFound => 404
  | .ok .notModified => 304
  | .ok (.redirect _) => 301
  | .ok .outOfTime => 500
  | .error _ => 500

theorem statusOf_eq_redirect {result : Except Failure Outcome} :
    statusOf result = 301 ↔ ∃ location, result = .ok (.redirect location) := by
  rcases result with e | outcome
  · simp [statusOf]
  · cases outcome <;> simp [statusOf]

/-- The configured page has the status of what does not exist, too. -/
theorem notFound_status : (s.notFound h).status = 404 := by
  unfold notFound
  simp only
  split
  · rfl
  · split
    · rfl
    · rfl

theorem served?_some {reply : Reply} (hresponse : served? reply = some response) :
    response.status = 200 ∧ response.body = reply.body := by
  unfold served? at hresponse
  split at hresponse
  · rw [← Option.some.inj hresponse]
    exact ⟨rfl, rfl⟩
  · obtain ⟨date, -, rfl⟩ := Option.map_eq_some_iff.mp hresponse
    exact ⟨rfl, rfl⟩

theorem ofOutcome?_status {result : Except Failure Outcome} {reply : Reply}
    (hresponse : s.ofOutcome? h reply result = some response) :
    response.status = statusOf result := by
  unfold ofOutcome? at hresponse
  split at hresponse
  · exact (served?_some hresponse).1
  · rw [← Option.some.inj hresponse]
    exact notFound_status
  all_goals
    rw [← Option.some.inj hresponse]
    rfl

/-- Nothing but a redirect has its status. -/
theorem redirect_of_status {result : Except Failure Outcome} {reply : Reply}
    (hresponse : s.ofOutcome? h reply result = some response) (hstatus : response.status = 301) :
    ∃ location, result = .ok (.redirect location) ∧
      response = (Response.empty 301).setHeader "location" (Percent.encode location) := by
  rw [ofOutcome?_status hresponse, statusOf_eq_redirect] at hstatus
  obtain ⟨location, rfl⟩ := hstatus
  exact ⟨location, rfl, (Option.some.inj hresponse).symm⟩

/-- What is neither refused for its method nor for the spelling of its path is answered with what
    becomes of the request. -/
theorem exists_serve (hrespond : s.respondContent? r h = some (response, after))
    (hmethod : response.status ≠ 405) (hspelling : response.status ≠ 400) :
    (r.method = "GET" ∨ r.method = "HEAD") ∧ ∃ path result reply,
      Utf8.decode? (Percent.decode (Utf8.encode r.path)) = some path ∧
      s.content.serve ⟨s.options.mount, path, since? r⟩ h = (result, reply, after) ∧
      s.ofOutcome? after reply result = some response := by
  unfold respondContent? at hrespond
  split at hrespond
  · cases hrespond
    exact absurd rfl hmethod
  · rename_i hgets
    rw [← not_or, not_not] at hgets
    split at hrespond
    · cases hrespond
      exact absurd rfl hspelling
    · rename_i path hpath
      rcases hserve : s.content.serve ⟨s.options.mount, path, since? r⟩ h with ⟨result, reply, k⟩
      rw [hserve] at hrespond
      obtain ⟨answer, hanswer, heq⟩ := Option.map_eq_some_iff.mp hrespond
      cases heq
      exact ⟨hgets, path, result, reply, hpath, hserve, hanswer⟩

/-- A redirect is answered for a directory at a rooted path, requested without a slash at the end. -/
theorem respondContent?_redirect (hrespond : s.respondContent? r h = some (response, after))
    (hstatus : response.status = 301) :
    ∃ path p, Utf8.decode? (Percent.decode (Utf8.encode r.path)) = some path ∧
      path.toList.getLast? ≠ some '/' ∧ Resolve.Rooted s.content.roots .directory p ∧
      response = (Response.empty 301).setHeader "location" (Percent.encode (path ++ "/")) := by
  obtain ⟨-, path, result, reply, hpath, hserve, hanswer⟩ :=
    exists_serve hrespond (by simp [hstatus]) (by simp [hstatus])
  have hhandled := Content.serve_handled s.content ⟨s.options.mount, path, since? r⟩ h
  obtain ⟨location, rfl, rfl⟩ := redirect_of_status hanswer hstatus
  rw [hserve] at hhandled
  obtain ⟨rfl, hslash, p, hp⟩ := hhandled.redirect
  exact ⟨path, p, hpath, hslash, hp, rfl⟩

/-- Only a request for content is answered with a redirect: the rebuild route tells what became of
    the export, or refuses the request. -/
theorem respond?_redirect (hrespond : s.respond? r h = some (response, server, after))
    (hheaders : ∀ header ∈ s.options.headers, Text.sameIgnoringCase header.1 "location" = false)
    (hstatus : response.status = 301) :
    ∃ content, s.respondContent? r h = some (content, after) ∧ content.status = 301 ∧
      response.headers.values "location" = content.headers.values "location" := by
  unfold respond? at hrespond
  split at hrespond
  -- neither a rebuild nor the refusal of one is answered with a redirect
  · rename_i rebuild _
    split at hrespond
    · rw [Option.some.injEq, Prod.mk.injEq] at hrespond
      obtain ⟨rfl, -⟩ := hrespond
      rw [(finish_agrees hheaders _).status] at hstatus
      unfold runRebuild at hstatus
      simp only at hstatus
      split at hstatus
      · cases hstatus
      · cases hstatus
    · rw [Option.some.injEq, Prod.mk.injEq] at hrespond
      obtain ⟨rfl, -⟩ := hrespond
      have hallow : (allowPost (s.finish r (.empty 405))).status =
          (s.finish r (.empty 405)).status := by
        unfold allowPost
        split
        · rfl
        · rfl
      rw [hallow, (finish_agrees hheaders _).status] at hstatus
      cases hstatus
  · obtain ⟨⟨content, k⟩, hcontent, heq⟩ := Option.map_eq_some_iff.mp hrespond
    simp only [Prod.mk.injEq] at heq
    obtain ⟨rfl, -, rfl⟩ := heq
    have hagrees := finish_agrees (r := r) hheaders content
    exact ⟨content, hcontent, hagrees.status.symm.trans hstatus, hagrees.values⟩

/-- The location of a redirect is the path as it is spelled, with a slash behind it. It stays on the
    server exactly if the spelling is empty or starts with one slash. -/
theorem redirect_location (hrespond : s.respond? r h = some (response, server, after))
    (hheaders : ∀ header ∈ s.options.headers, Text.sameIgnoringCase header.1 "location" = false)
    (hstatus : response.status = 301) :
    ∃ path p location, Utf8.decode? (Percent.decode (Utf8.encode r.path)) = some path ∧
      Resolve.Rooted s.content.roots .directory p ∧
      response.headers.values "location" = [location] ∧
      location = Percent.encode (path ++ "/") ∧
      (PathAbsolute location ↔ OneSlash path) := by
  obtain ⟨content, hcontent, hcontentStatus, hvalues⟩ :=
    respond?_redirect hrespond hheaders hstatus
  obtain ⟨path, p, hpath, hslash, hp, rfl⟩ := respondContent?_redirect hcontent hcontentStatus
  refine ⟨path, p, Percent.encode (path ++ "/"), hpath, hp, ?_, rfl, pathAbsolute_iff hslash⟩
  rw [hvalues]
  have hself : Text.sameIgnoringCase "location" "location" = true := by decide +kernel
  unfold Response.setHeader Headers.set Response.empty Headers.values Headers.erase
  simp [hself]

/-- A server for the files of `docsHost`. -/
def docsServer : Server where
  content := Content.ofRoots [⟨"site"⟩] default default
  options := ⟨"/", [], none, false, "/rebuild"⟩
  rebuild := none

/-- A request that gets content. -/
def getRequest (path : String) : Request :=
  ⟨"GET", path, []⟩

/-- What is answered to a request for the documents. -/
def docsAnswer (path : String) : Option (Response × Server × Host) :=
  docsServer.respond? (getRequest path) docsHost

/-- The answer is a redirect with one location. -/
def Redirects (path location : String) : Prop :=
  ∃ response server after, docsAnswer path = some (response, server, after) ∧
    response.status = 301 ∧ response.headers.values "location" = [location]

theorem redirects_of_answer {path location : String}
    (hanswer : (docsAnswer path).map (fun x => (x.1.status, x.1.headers.values "location")) =
      some (301, [location])) : Redirects path location := by
  obtain ⟨⟨response, server, after⟩, heq, hboth⟩ := Option.map_eq_some_iff.mp hanswer
  rw [Prod.mk.injEq] at hboth
  exact ⟨response, server, after, heq, hboth⟩

theorem docs_location : ∃ path location, Redirects "/docs" location ∧
    location = Percent.encode (path ++ "/") ∧ (PathAbsolute location ↔ OneSlash path) := by
  have hredirects : Redirects "/docs" "/docs/" := redirects_of_answer (by decide +kernel)
  obtain ⟨response, server, after, hanswer, hstatus, hvalues⟩ := hredirects
  obtain ⟨path, p, location, -, -, hlocation, hencode, hiff⟩ :=
    redirect_location hanswer (fun _ hnone => by cases hnone) hstatus
  exact ⟨path, location, ⟨response, server, after, hanswer, hstatus, hlocation⟩, hencode, hiff⟩

/-- A request with two slashes at its front is sent to a server of the name that follows them. -/
theorem docs_leaves : Redirects "//docs" "//docs/" ∧ ¬ PathAbsolute "//docs/" := by
  refine ⟨redirects_of_answer (by decide +kernel), ?_⟩
  rintro ⟨rest, hrest, hsecond⟩
  have htext : "//docs/".toList = '/' :: '/' :: "docs/".toList := by decide
  rw [htext, List.cons.injEq] at hrest
  exact hsecond (by rw [← hrest.2]; rfl)

end Server

end AssetServer.Http
