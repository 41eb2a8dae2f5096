import AssetServer.Proofs.Dataflow
import AssetServer.Proofs.Leading

/-!
# Following directives

All directives of a source are read before any file is opened. So one that cannot be read keeps all
of them from being followed, and otherwise the files are appended in the order in which they are
named, up to the first that cannot be opened.

- `Directive.expressions` are the directives at the front of a source, as they are written;
  `scan_eq` says that a source is read by reading them one after another.
- `appendFiles_holds` and `appendFiles_stops`: what becomes of a list of files.
- `Directive.expand_in_order`: what becomes of a source with any bytes.
-/

namespace AssetServer

variable {α β ε : Type}

/-! ## §1 Reading a list -/

theorem mapM_of_forall₂ {f : α → Except ε β} {xs : List α} {ys : List β}
    (h : List.Forall₂ (fun x y => f x = .ok y) xs ys) : xs.mapM f = .ok ys := by
  induction h with
  | nil => rfl
  | cons hfirst _ ih =>
    rw [List.mapM_cons, hfirst, ih]
    rfl

/-- The first element that cannot be read is what is reported. -/
theorem mapM_of_first {f : α → Except ε β} {before after : List α} {x : α} {e : ε}
    (hbefore : ∀ z ∈ before, ∃ y, f z = .ok y) (hx : f x = .error e) :
    (before ++ x :: after).mapM f = .error e := by
  induction before with
  | nil =>
    rw [List.nil_append, List.mapM_cons, hx]
    rfl
  | cons z before ih =>
    obtain ⟨y, hy⟩ := hbefore z (by simp)
    rw [List.cons_append, List.mapM_cons, hy, ih fun w hw => hbefore w (List.mem_cons_of_mem _ hw)]
    rfl

/-- If not all elements can be read, then there is a first one that cannot. -/
theorem exists_first {f : α → Except ε β} {xs : List α} (h : ∃ x ∈ xs, ∀ y, f x ≠ .ok y) :
    ∃ before x after e, xs = before ++ x :: after ∧ (∀ z ∈ before, ∃ y, f z = .ok y) ∧
      f x = .error e := by
  induction xs with
  | nil =>
    obtain ⟨x, hx, -⟩ := h
    cases hx
  | cons z rest ih =>
    cases hz : f z with
    | error e => exact ⟨[], z, rest, e, rfl, by simp, hz⟩
    | ok y =>
      have hrest : ∃ x ∈ rest, ∀ y, f x ≠ .ok y := by
        obtain ⟨x, hx, hbad⟩ := h
        rcases List.mem_cons.mp hx with rfl | hx
        · exact absurd hz (hbad y)
        · exact ⟨x, hx, hbad⟩
      obtain ⟨before, x, after, e, rfl, hbefore, hx⟩ := ih hrest
      refine ⟨z :: before, x, after, e, rfl, fun w hw => ?_, hx⟩
      rcases List.mem_cons.mp hw with rfl | hw
      · exact ⟨y, hz⟩
      · exact hbefore w hw

/-! ## §2 Line feeds -/

namespace Utf8

/-- The bytes of a character that is cut off are among those that it is cut off from. -/
theorem subset_of_mem_pieces {bytes : Bytes} {c : Char} (h : some c ∈ pieces bytes) :
    ∀ b ∈ String.utf8EncodeChar c, b ∈ bytes := by
  induction hlength : bytes.length using Nat.strong_induction_on generalizing bytes with
  | _ n ih =>
  cases bytes with
  | nil => simp at h
  | cons first rest =>
    intro b hb
    rw [pieces_cons, List.mem_cons] at h
    rcases h with hfirst | hlater
    · have hbytes := encode_piece (Prod.ext hfirst.symm rfl : piece first rest = (some c, _))
      rw [hbytes] at hb
      rcases List.mem_cons.mp hb with rfl | hb
      · simp
      · exact List.mem_cons_of_mem _ (List.mem_of_mem_take hb)
    · have hshort : (rest.drop (piece first rest).2).length < n := by
        rw [← hlength, List.length_drop, List.length_cons]
        omega
      exact List.mem_cons_of_mem _ (List.mem_of_mem_drop (ih _ hshort hlater rfl b hb))

/-- A line feed is read only where one is written. -/
theorem lineFeed_of_decodeLossy {bytes : Bytes} (h : '\n' ∈ (decodeLossy bytes).toList) :
    0x0A ∈ bytes := by
  rw [decodeLossy_toList] at h
  obtain ⟨piece, hpiece, hchar⟩ := List.mem_map.mp h
  cases piece with
  | none => cases hchar
  | some c =>
    obtain rfl : c = '\n' := hchar
    exact subset_of_mem_pieces hpiece 0x0A (by decide)

end Utf8

namespace Directive

variable {bytes line : Bytes} {e : List Char} {found : List Directive}

/-! ## §3 The directives of a source -/

/-- The lines of a source. -/
def lines (bytes : Bytes) : List Line :=
  (bytes.splitOn 0x0A).map Line.ofBytes

/-- The directives at the front of a source, as they are written: those of the lines in front of the
    first one that is neither blank nor a comment. -/
def expressions (bytes : Bytes) : List (List Char) :=
  ((lines bytes).takeWhile (· ≠ .code)).filterMap fun
    | .directive expression => some expression
    | _ => none

/-- An expression lists the names of files. -/
def Lists (e : List Char) (names : List String) : Prop :=
  ∃ lits, Call (Text.trim e) lits names

theorem expressions_nil : expressions [] = [] := by
  decide +kernel

/-- A source without a line feed is one line. -/
theorem expressions_last (hline : 0x0A ∉ line) : expressions line =
    match Line.ofBytes line with
    | .directive e => [e]
    | _ => [] := by
  unfold expressions lines
  rw [List.splitOn_eq_singleton hline]
  cases hkind : Line.ofBytes line with
  | _ => simp [hkind]

theorem expressions_line (hline : 0x0A ∉ line) (rest : Bytes) :
    expressions (line ++ 0x0A :: rest) =
      match Line.ofBytes line with
      | .code => []
      | .plain => expressions rest
      | .directive e => e :: expressions rest := by
  unfold expressions lines
  rw [List.splitOn_append_cons_self_of_not_mem hline]
  cases hkind : Line.ofBytes line with
  | _ => simp [hkind]

/-- The directives of a source are those of its first line and of what follows. -/
theorem expressions_eq (bytes : Bytes) : expressions bytes =
    match Line.ofBytes (firstLine bytes).1 with
    | .code => []
    | .plain => expressions (firstLine bytes).2
    | .directive e => e :: expressions (firstLine bytes).2 := by
  by_cases hfeed : 0x0A ∈ bytes
  · obtain ⟨line, rest, rfl, hline⟩ := List.eq_append_cons_of_mem hfeed
    rw [firstLine_line hline, expressions_line hline]
  · have hfirst := firstLine_append hfeed []
    rw [List.append_nil, firstLine_nil, List.append_nil] at hfirst
    rw [hfirst, expressions_last hfeed, expressions_nil]
    cases Line.ofBytes bytes with
    | _ => rfl

/-- What is true of nothing, and of a source if it is true of what follows its first line, is true
    of every source. -/
theorem lines_induction {P : Bytes → Prop} (hnil : P [])
    (hline : ∀ bytes, bytes ≠ [] → P (firstLine bytes).2 → P bytes) (bytes : Bytes) : P bytes := by
  induction hlength : bytes.length using Nat.strong_induction_on generalizing bytes with
  | _ n ih =>
  by_cases hne : bytes = []
  · rw [hne]
    exact hnil
  · have hshort : (firstLine bytes).2.length < n := by
      have hpos := List.length_pos_iff.mpr hne
      have hdrop := (List.dropWhile_suffix (fun b : UInt8 => b != 0x0A) (l := bytes)).length_le
      simp only [firstLine, List.length_drop]
      omega
    exact hline bytes hne (ih _ hshort _ rfl)

/-- The directives of a source are read one after another, behind those that were found before. -/
theorem scanOnto_eq (bytes : Bytes) (found : List Directive) :
    scanOnto found bytes = ((expressions bytes).mapM parse).map (found.reverse ++ ·) := by
  induction bytes using lines_induction generalizing found with
  | hnil =>
    rw [scanOnto_nil, expressions_nil, List.mapM_nil]
    simp [Except.map, pure, Except.pure]
  | hline bytes hne ih =>
    rw [expressions_eq]
    unfold scanOnto
    rw [dif_neg hne]
    cases Line.ofBytes (firstLine bytes).1 with
    | plain => exact ih found
    | code => simp [Except.map, pure, Except.pure]
    | directive e =>
      simp only
      rw [List.mapM_cons]
      cases parse e with
      | error fault => rfl
      | ok directive =>
        simp only [ih]
        cases (expressions (firstLine bytes).2).mapM parse with
        | error fault => rfl
        | ok more => simp [Except.map, bind, Except.bind, pure, Except.pure]

/-- A source is read by reading its directives one after another. -/
theorem scan_eq (bytes : Bytes) : scan bytes = (expressions bytes).mapM parse := by
  unfold scan
  rw [scanOnto_eq]
  cases (expressions bytes).mapM parse with
  | error fault => rfl
  | ok directives => rfl

/-- A directive stands in one line. -/
theorem lineFeed_not_mem_expression (bytes : Bytes) : ∀ e ∈ expressions bytes, '\n' ∉ e := by
  induction bytes using lines_induction with
  | hnil => simp [expressions_nil]
  | hline bytes hne ih =>
    rw [expressions_eq]
    intro e he
    cases hkind : Line.ofBytes (firstLine bytes).1 with
    | plain =>
      rw [hkind] at he
      exact ih e he
    | code => simp [hkind] at he
    | directive e' =>
      rw [hkind] at he
      rcases List.mem_cons.mp he with rfl | he
      · intro hfeed
        unfold Line.ofBytes at hkind
        split at hkind
        · cases hkind
        · rename_i expression htrim
          cases hkind
          have hmem : '\n' ∈ Text.trim (Utf8.decodeLossy (firstLine bytes).1).toList := by
            simp [htrim, hfeed]
          have hbyte := Utf8.lineFeed_of_decodeLossy (mem_of_mem_trim hmem)
          exact absurd (List.mem_takeWhile_imp hbyte) (by decide)
        · cases hkind
        · cases hkind
      · exact ih e he

/-- A directive of a source is read as the names that it lists. -/
theorem Lists.parses {names : List String} (h : Lists e names) (he : e ∈ expressions bytes) :
    parse e = .ok (.append names) := by
  obtain ⟨lits, hcall⟩ := h
  exact hcall.parses fun hmem => lineFeed_not_mem_expression bytes e he (mem_of_mem_trim hmem)

theorem lists_of_parse {directive : Directive} (h : parse e = .ok directive) :
    ∃ names, Lists e names := by
  obtain ⟨names⟩ := directive
  exact ⟨names, exists_call h⟩

/-- A source is read if all of its directives list names. -/
theorem scan_lists {lists : List (List String)}
    (h : List.Forall₂ Lists (expressions bytes) lists) : scan bytes = .ok (lists.map .append) := by
  rw [scan_eq]
  apply mapM_of_forall₂
  rw [List.forall₂_map_right_iff]
  obtain ⟨hlength, hpairs⟩ := List.forall₂_iff_zip.mp h
  exact List.forall₂_iff_zip.mpr
    ⟨hlength, fun hpair => (hpairs hpair).parses (List.of_mem_zip hpair).1⟩

/-- The fault of a source is that of its first directive that lists no names. -/
theorem scan_malformed (h : ∃ e ∈ expressions bytes, ∀ names, ¬ Lists e names) :
    ∃ before e after fault, expressions bytes = before ++ e :: after ∧
      (∀ z ∈ before, ∃ names, Lists z names) ∧ (∀ names, ¬ Lists e names) ∧
      parse e = .error fault ∧ scan bytes = .error fault := by
  have hbad : ∃ e ∈ expressions bytes, ∀ directive, parse e ≠ .ok directive := by
    obtain ⟨e, he, hnone⟩ := h
    refine ⟨e, he, fun directive hparse => ?_⟩
    obtain ⟨names, hlists⟩ := lists_of_parse hparse
    exact hnone names hlists
  obtain ⟨before, e, after, fault, hsplit, hbefore, hfault⟩ := exists_first hbad
  refine ⟨before, e, after, fault, hsplit, fun z hz => ?_, fun names hlists => ?_, hfault, ?_⟩
  · obtain ⟨directive, hdirective⟩ := hbefore z hz
    exact lists_of_parse hdirective
  · have he : e ∈ expressions bytes := by simp [hsplit]
    rw [hlists.parses he] at hfault
    cases hfault
  · rw [scan_eq, hsplit]
    exact mapM_of_first hbefore hfault

end Directive

/-! ## §4 Appending files -/

/-- The sink refuses no piece of some contents that are copied into it one after another. -/
def Sink.AcceptsAll (s : Sink) : List Bytes → Prop
  | [] => True
  | data :: rest => s.Accepts data ∧ (s.accept data).AcceptsAll rest

theorem Sink.unlimited_acceptsAll {s : Sink} (hroom : s.room = none) (contents : List Bytes) :
    s.AcceptsAll contents := by
  induction contents generalizing s with
  | nil => trivial
  | cons data rest ih => exact ⟨unlimited_accepts hroom data, ih hroom⟩

theorem Sink.accept_nil (s : Sink) : s.accept [] = s := by
  simp [accept]

section Appending

variable {h : Host} {s : Sink} {o : Outlet} {source path : Path} {before after : List Path}
  {contents : List Bytes} {data : Bytes}

/-- What a path leads to can be read, and is this. -/
def Holds (h : Host) (path : Path) (data : Bytes) : Prop :=
  h.tree.bytesAt h.directory path = .ok data

instance : Decidable (Holds h path data) :=
  inferInstanceAs (Decidable (_ = _))

theorem copy_all (fault : OsError → Failure) (hs : s.Accepts data) :
    runFrom (Emit.copy fault data) ⟨h, s⟩ = (.ok data.length, ⟨h, s.accept data⟩) := by
  unfold Emit.copy
  rw [runFrom_emit]
  simp only [Sink.copy_accepts hs]

theorem appendFile_holds (hholds : Holds h path data) (hs : s.Accepts data) :
    runFrom (appendFile source path) ⟨h, s⟩ = (.ok data.length, ⟨h, s.accept data⟩) := by
  obtain ⟨opened, hopen, hread⟩ := Tree.bytesAt_ok_iff.mp hholds
  unfold appendFile
  rw [runFrom_bind, runFrom_ofAct, runFrom_read, hopen]
  simp only [hread]
  exact copy_all _ hs

/-- A file that cannot be opened is named, next to the source. -/
theorem appendFile_unopened {cause : OsError}
    (hopen : h.tree.openFile h.directory path = .error cause) :
    runFrom (appendFile source path) ⟨h, s⟩ =
      (.error (.directive source (.cannotInclude path cause)), ⟨h, s⟩) := by
  unfold appendFile
  rw [runFrom_bind, runFrom_ofAct, runFrom_read, hopen]

theorem appendFiles_holds (hholds : List.Forall₂ (Holds h) before contents)
    (hs : s.AcceptsAll contents) : runFrom (appendFiles source before) ⟨h, s⟩ =
      (.ok contents.flatten.length, ⟨h, s.accept contents.flatten⟩) := by
  induction hholds generalizing s with
  | nil =>
    rw [List.flatten_nil, Sink.accept_nil]
    rfl
  | cons hfirst _ ih =>
    unfold appendFiles
    rw [runFrom_bind, appendFile_holds hfirst hs.1]
    simp only
    rw [runFrom_bind, ih hs.2]
    simp only
    rw [runFrom_pure, List.flatten_cons, List.length_append, Sink.accept_accept]

/-- Files are appended up to the first that fails, with what the sink holds by then. -/
theorem appendFiles_stops {e : Failure} (hholds : List.Forall₂ (Holds h) before contents)
    (hs : s.AcceptsAll contents)
    (hpath : runFrom (appendFile source path) ⟨h, s.accept contents.flatten⟩ = (.error e, o)) :
    runFrom (appendFiles source (before ++ path :: after)) ⟨h, s⟩ = (.error e, o) := by
  induction hholds generalizing s with
  | nil =>
    rw [List.flatten_nil, Sink.accept_nil] at hpath
    rw [List.nil_append]
    unfold appendFiles
    rw [runFrom_bind, hpath]
  | cons hfirst _ ih =>
    rw [List.flatten_cons, ← Sink.accept_accept] at hpath
    rw [List.cons_append]
    unfold appendFiles
    rw [runFrom_bind, appendFile_holds hfirst hs.1]
    simp only
    rw [runFrom_bind, ih hs.2 hpath]

end Appending

/-! ## §5 Following the directives of a source -/

namespace Directive

variable {h : Host} {s : Sink} {source : Path} {bytes : Bytes}

/-- Where the files are that directives of a source list: below the directory of the source. -/
def places (source : Path) (lists : List (List String)) : List Path :=
  lists.flatten.map (source.parent.getD ⟨""⟩).join

theorem expand_malformed {fault : Fault} (hbytes : Holds h source bytes)
    (hscan : scan bytes = .error fault) : runFrom (expand source) ⟨h, s⟩ =
      (.error (.directive source (.malformed fault)), ⟨h, s⟩) := by
  unfold Holds at hbytes
  unfold expand directivesOf
  rw [runFrom_bind, runFrom_ofAct, runFrom_read, hbytes]
  simp only [hscan]

theorem expand_lists {lists : List (List String)} (hbytes : Holds h source bytes)
    (hlists : List.Forall₂ Lists (expressions bytes) lists) : runFrom (expand source) ⟨h, s⟩ =
      runFrom (appendFiles source (places source lists)) ⟨h, s⟩ := by
  have hfiles : files (lists.map .append) = lists.flatten := by
    unfold files
    rw [List.flatMap_map, ← List.flatMap_id]
    rfl
  unfold Holds at hbytes
  unfold expand directivesOf
  rw [runFrom_bind, runFrom_ofAct, runFrom_read, hbytes]
  simp only [scan_lists hlists, hfiles]
  rfl

/-- A source with a directive at its front that lists no names is reported for the first of them,
    and nothing is written, whatever the other directives are. Else, if all files that are listed
    can be read, then exactly what they hold is appended, in the order in which they are listed,
    and the length of that is given; and if those in front of one can be read that cannot be opened,
    then exactly what these hold is appended, and both the source and that file are reported. -/
theorem expand_in_order (hbytes : Holds h source bytes) :
    ((∃ e ∈ expressions bytes, ∀ names, ¬ Lists e names) →
      ∃ before e after fault, expressions bytes = before ++ e :: after ∧
        (∀ z ∈ before, ∃ names, Lists z names) ∧ (∀ names, ¬ Lists e names) ∧
        parse e = .error fault ∧
        ∀ s, runFrom (expand source) ⟨h, s⟩ =
          (.error (.directive source (.malformed fault)), ⟨h, s⟩)) ∧
    ∀ lists, List.Forall₂ Lists (expressions bytes) lists → ∀ s contents, s.AcceptsAll contents →
      (List.Forall₂ (Holds h) (places source lists) contents →
        runFrom (expand source) ⟨h, s⟩ =
          (.ok contents.flatten.length, ⟨h, s.accept contents.flatten⟩)) ∧
      ∀ before path after cause, places source lists = before ++ path :: after →
        List.Forall₂ (Holds h) before contents →
        h.tree.openFile h.directory path = .error cause →
        runFrom (expand source) ⟨h, s⟩ =
            (.error (.directive source (.cannotInclude path cause)),
              ⟨h, s.accept contents.flatten⟩) ∧
          (Failure.directive source (.cannotInclude path cause)).message =
            "directive error in " ++ Text.quoted source.text ++ ": " ++
              ("cannot include " ++ path.text ++ ": " ++ cause.message) := by
  constructor
  · intro hbad
    obtain ⟨before, e, after, fault, hsplit, hbefore, he, hfault, hscan⟩ := scan_malformed hbad
    exact ⟨before, e, after, fault, hsplit, hbefore, he, hfault,
      fun s => expand_malformed hbytes hscan⟩
  · intro lists hlists s contents hs
    refine ⟨fun hall => ?_, fun before path after cause hplaces hholds hopen => ⟨?_, rfl⟩⟩
    · rw [expand_lists hbytes hlists]
      exact appendFiles_holds hall hs
    · rw [expand_lists hbytes hlists, hplaces]
      exact appendFiles_stops hholds hs (appendFile_unopened hopen)

/-- A host with two small files next to a source. -/
def listingHost (source : String) : Host :=
  .ofTree ⟨[(["site"], .directory), (["site", "a.txt"], plainFile [65]),
    (["site", "b.txt"], plainFile [66, 66]),
    (["site", "app.main.js"], plainFile (Utf8.encode source))]⟩ fun _ => none

/-- What becomes of the source there. -/
def listingRun (source : String) : Except Failure Nat × Outlet :=
  runFrom (expand ⟨"site/app.main.js"⟩) ⟨listingHost source, .unlimited⟩

/-- The second of two directives is unknown. -/
def unknownText : String :=
  "//@include(\"a.txt\")\n//@bundle(\"a.txt\")\n"

/-- Three files are listed, one of them twice. -/
def repeatedText : String :=
  "//@include(\"b.txt\", \"a.txt\")\n\n//@include(\"b.txt\")\nx"

/-- The second of three files is missing. -/
def missingText : String :=
  "//@include(\"a.txt\", \"c.txt\", \"b.txt\")"

theorem listing_in_order :
    (∃ fault, listingRun unknownText =
      (.error (.directive ⟨"site/app.main.js"⟩ (.malformed fault)),
        ⟨listingHost unknownText, .unlimited⟩)) ∧
    listingRun repeatedText = (.ok 5, ⟨listingHost repeatedText, ⟨[66, 66, 65, 66, 66], none⟩⟩) ∧
    ∃ cause, listingRun missingText =
      (.error (.directive ⟨"site/app.main.js"⟩ (.cannotInclude ⟨"site/c.txt"⟩ cause)),
        ⟨listingHost missingText, ⟨[65], none⟩⟩) := by
  have hbytes : ∀ text ∈ [unknownText, repeatedText, missingText],
      Holds (listingHost text) ⟨"site/app.main.js"⟩ (Utf8.encode text) := by
    decide +kernel
  refine ⟨?_, ?_, ?_⟩
  · have hbundle : "bundle(\"a.txt\")".toList ∈ expressions (Utf8.encode unknownText) := by
      decide +kernel
    have hunknown : parse "bundle(\"a.txt\")".toList = .error (.undefined "bundle") := by
      decide +kernel
    have hnone : ∀ names, ¬ Lists "bundle(\"a.txt\")".toList names := by
      intro names hlists
      rw [hlists.parses hbundle] at hunknown
      cases hunknown
    obtain ⟨_, _, _, fault, -, -, -, -, hrun⟩ :=
      (expand_in_order (hbytes unknownText (by simp))).1 ⟨_, hbundle, hnone⟩
    exact ⟨fault, hrun .unlimited⟩
  · have htext : expressions (Utf8.encode repeatedText) =
        ["include(\"b.txt\", \"a.txt\")".toList, "include(\"b.txt\")".toList] := by
      decide +kernel
    have hlists : List.Forall₂ Lists (expressions (Utf8.encode repeatedText))
        [["b.txt", "a.txt"], ["b.txt"]] := by
      rw [htext]
      exact .cons (exists_call (by decide +kernel))
        (.cons (exists_call (by decide +kernel)) .nil)
    have hholds : List.Forall₂ (Holds (listingHost repeatedText))
        (places ⟨"site/app.main.js"⟩ [["b.txt", "a.txt"], ["b.txt"]])
        [[66, 66], [65], [66, 66]] :=
      .cons (by decide +kernel) (.cons (by decide +kernel) (.cons (by decide +kernel) .nil))
    exact ((expand_in_order (hbytes repeatedText (by simp))).2 _ hlists .unlimited _
      (Sink.unlimited_acceptsAll rfl _)).1 hholds
  · have htext : expressions (Utf8.encode missingText) =
        ["include(\"a.txt\", \"c.txt\", \"b.txt\")".toList] := by
      decide +kernel
    have hlists : List.Forall₂ Lists (expressions (Utf8.encode missingText))
        [["a.txt", "c.txt", "b.txt"]] := by
      rw [htext]
      exact .cons (exists_call (by decide +kernel)) .nil
    have hholds : List.Forall₂ (Holds (listingHost missingText)) [⟨"site/a.txt"⟩] [[65]] :=
      .cons (by decide +kernel) .nil
    have hplaces : places ⟨"site/app.main.js"⟩ [["a.txt", "c.txt", "b.txt"]] =
        [⟨"site/a.txt"⟩] ++ ⟨"site/c.txt"⟩ :: [⟨"site/b.txt"⟩] := by
      decide +kernel
    have hmissing : (listingHost missingText).tree.openFile (listingHost missingText).directory
        ⟨"site/c.txt"⟩ = .error .notFound := by
      decide +kernel
    exact ⟨.notFound, (((expand_in_order (hbytes missingText (by simp))).2 _ hlists .unlimited _
      (Sink.unlimited_acceptsAll rfl _)).2 _ _ _ _ hplaces hholds hmissing).1⟩

end Directive

end AssetServer
