import AssetServer.Compile
import AssetServer.Proofs.Action
import AssetServer.Proofs.Grammar
import AssetServer.Proofs.Utf8

/-!
# The front of a source

A source is written with a block of directives, comments and blank lines at its front, and read
back.

- `Directive.Row` and `Leading` say how lists of names are written, `Code` what may stand behind
  them.
- `Line.ofBytes_plain` and `Line.ofBytes_code` tell the lines of a source apart by their bytes.
- `Directive.scanOnto_blank`: white space in front of a source does not count, with line feeds or
  without.
- `Directive.scan_leading`: exactly the lists that were written are read.
-/

namespace AssetServer

/-! ## §1 White space at both ends -/

namespace Text

variable {c : Char} {before cs after : List Char}

theorem trim_append (hbefore : Blank before) : trim (before ++ cs) = trim cs := by
  unfold trim
  rw [List.dropWhile_append_of_pos hbefore]

theorem trimRight_prefix (cs : List Char) : trimRight cs <+: cs := by
  unfold trimRight
  rw [← List.reverse_suffix, List.reverse_reverse]
  exact List.dropWhile_suffix isBlank

theorem trimRight_cons (hc : isBlank c = false) : trimRight (c :: cs) = c :: trimRight cs := by
  unfold trimRight
  rw [List.reverse_cons, List.dropWhile_append]
  split_ifs with hnone
  · rw [List.isEmpty_iff] at hnone
    simp [hnone, hc]
  · simp

theorem trim_cons (hc : isBlank c = false) : trim (c :: cs) = c :: trimRight cs := by
  unfold trim
  rw [List.dropWhile_cons_of_neg (by simp [hc]), trimRight_cons hc]

/-- A text with white space behind it only. -/
theorem trimRight_append (hlast : Inked cs.reverse) (hafter : Blank after) :
    trimRight (cs ++ after) = cs := by
  have hreverse : Blank after.reverse := fun c hc => hafter c (List.mem_reverse.mp hc)
  have hskip := Directive.skipBlank_append hreverse hlast
  unfold Directive.skipBlank at hskip
  unfold trimRight
  rw [List.reverse_append, hskip, List.reverse_reverse]

/-- Only white space is left with nothing. -/
theorem blank_of_trim (h : trim cs = []) : Blank cs := by
  intro c hc
  have hall : ∀ c ∈ cs.dropWhile isBlank, isBlank c = true := by
    unfold trim trimRight at h
    simpa using h
  have hnone : cs.dropWhile isBlank = [] := by
    cases hdrop : cs.dropWhile isBlank with
    | nil => rfl
    | cons d more =>
      have hhead := List.head?_dropWhile_not isBlank cs
      rw [hdrop] at hall hhead
      simp [hall d (by simp)] at hhead
  exact List.dropWhile_eq_nil_iff.mp hnone c hc

end Text

/-! ## §2 Lines -/

/-- The bytes of a line of white space. -/
def BlankLine (line : Bytes) : Prop :=
  ∃ indent : String, Blank indent.toList ∧ line = Utf8.encode indent

/-- The bytes of a line that has two slashes behind white space. -/
def CommentLine (line : Bytes) : Prop :=
  ∃ (indent : String) (body : Bytes), Blank indent.toList ∧
    line = Utf8.encode indent ++ 0x2F :: 0x2F :: body

namespace Utf8

variable {bytes : Bytes} {cs more : List Char}

theorem decodeLossy_toList (bytes : Bytes) :
    (decodeLossy bytes).toList = (pieces bytes).map (·.getD '\uFFFD') := by
  simp [decodeLossy]

theorem decodeLossy_append (cs : List Char) (bytes : Bytes) :
    (decodeLossy (cs.flatMap String.utf8EncodeChar ++ bytes)).toList =
      cs ++ (decodeLossy bytes).toList := by
  rw [decodeLossy_toList, decodeLossy_toList, pieces_append]
  simp

theorem decodeLossy_eq_nil : (decodeLossy bytes).toList = [] ↔ bytes = [] := by
  rw [decodeLossy_toList, List.map_eq_nil_iff]
  cases bytes with
  | nil => simp
  | cons first rest => simp [pieces_cons]

/-- Bytes that are read as a text without U+FFFD start with the bytes of this text. -/
theorem exists_of_decodeLossy (h : (decodeLossy bytes).toList = cs ++ more)
    (hcs : '\uFFFD' ∉ cs) :
    ∃ rest, bytes = cs.flatMap String.utf8EncodeChar ++ rest ∧
      (decodeLossy rest).toList = more := by
  rw [decodeLossy_toList, List.map_eq_append_iff] at h
  obtain ⟨front, back, hpieces, hfront, hback⟩ := h
  have hwhole : front = cs.map some := by
    rw [← hfront, List.map_map]
    refine (List.map_id front).symm.trans (List.map_congr_left fun piece hmem => ?_)
    cases piece with
    | some c => rfl
    | none =>
      -- a broken sequence is read as U+FFFD
      refine absurd ?_ hcs
      rw [← hfront]
      exact List.mem_map_of_mem hmem
  rw [hwhole] at hpieces
  obtain ⟨rest, hbytes, hrest⟩ := exists_append hpieces
  exact ⟨rest, hbytes, by rw [decodeLossy_toList, hrest, hback]⟩

end Utf8

theorem replacement_not_mem {cs : List Char} (hcs : Blank cs) : '\uFFFD' ∉ cs := by
  intro hmem
  exact absurd (hcs _ hmem) (by decide)

namespace Directive

variable {ws cs row : List Char} {bytes line ending rest block tail : Bytes} {names : List String}
  {lists : List (List String)} {found : List Directive}

theorem Line.ofBytes_append (hws : Blank ws) (bytes : Bytes) :
    Line.ofBytes (ws.flatMap String.utf8EncodeChar ++ bytes) = Line.ofBytes bytes := by
  unfold Line.ofBytes
  rw [Utf8.decodeLossy_append, Text.trim_append hws]

theorem Line.ofBytes_nil : Line.ofBytes [] = .plain := by
  decide +kernel

theorem Line.ofBytes_blank (hws : Blank ws) :
    Line.ofBytes (ws.flatMap String.utf8EncodeChar) = .plain := by
  have happend := ofBytes_append hws []
  rwa [List.append_nil, ofBytes_nil] at happend

/-- Two slashes make a comment, without an at sign behind them. -/
theorem Line.ofBytes_plain (hbody : bytes.head? ≠ some 0x40) :
    Line.ofBytes (0x2F :: 0x2F :: bytes) = .plain := by
  have hchars := Utf8.decodeLossy_append ['/', '/'] bytes
  have hslashes : ['/', '/'].flatMap String.utf8EncodeChar = [0x2F, 0x2F] := by decide
  rw [hslashes] at hchars
  have hinked : Text.isBlank '/' = false := by decide
  unfold Line.ofBytes
  simp only [List.cons_append, List.nil_append] at hchars
  rw [hchars, Text.trim_cons hinked, Text.trimRight_cons hinked]
  split
  · rename_i hnil
    cases hnil
  · rename_i expression hat
    rw [List.cons.injEq, List.cons.injEq] at hat
    obtain ⟨behind, hbehind⟩ := Text.trimRight_prefix (Utf8.decodeLossy bytes).toList
    rw [hat.2.2] at hbehind
    -- an at sign behind the slashes would stem from the byte of an at sign
    have hmarked : (Utf8.decodeLossy bytes).toList = ['@'] ++ (expression ++ behind) := by
      simpa using hbehind.symm
    obtain ⟨rest, rfl, -⟩ := Utf8.exists_of_decodeLossy hmarked (by decide)
    exact absurd rfl hbody
  · rfl
  · rename_i hother
    exact absurd rfl (hother _)

/-- A line that is neither blank nor a comment is the first one of the source proper. -/
theorem Line.ofBytes_code (hblank : ¬ BlankLine line) (hcomment : ¬ CommentLine line) :
    Line.ofBytes line = .code := by
  have hslash : ∀ more, Text.trim (Utf8.decodeLossy line).toList ≠ '/' :: '/' :: more := by
    intro more htrim
    obtain ⟨ws, hws, hblank_ws, -⟩ := exists_blank (Utf8.decodeLossy line).toList
    obtain ⟨behind, hbehind⟩ := Text.trimRight_prefix (skipBlank (Utf8.decodeLossy line).toList)
    change Text.trim _ ++ _ = _ at hbehind
    rw [htrim] at hbehind
    have hchars : (Utf8.decodeLossy line).toList = (ws ++ ['/', '/']) ++ (more ++ behind) := by
      rw [hws, ← hbehind]
      simp
    -- what is decoded without a replacement was encoded, so the line would be a comment
    have hwhole : '\uFFFD' ∉ ws ++ ['/', '/'] := by
      simp [replacement_not_mem hblank_ws]
    obtain ⟨rest, hline, -⟩ := Utf8.exists_of_decodeLossy hchars hwhole
    refine hcomment ⟨String.ofList ws, rest, by simpa using hblank_ws, ?_⟩
    rw [hline, Utf8.encode_ofList, List.flatMap_append, List.append_assoc]
    rfl
  unfold Line.ofBytes
  split
  · rename_i hnil
    have hws := Text.blank_of_trim hnil
    obtain ⟨rest, hline, hrest⟩ :=
      Utf8.exists_of_decodeLossy (List.append_nil _).symm (replacement_not_mem hws)
    rw [Utf8.decodeLossy_eq_nil.mp hrest, List.append_nil, ← Utf8.encode_ofList] at hline
    exact absurd ⟨_, by simpa using hws, hline⟩ hblank
  · rename_i htrim
    exact absurd htrim (hslash _)
  · rename_i htrim
    exact absurd htrim (hslash _)
  · rfl

/-! ## §3 Lines one after the other -/

/-- Bytes without a line feed belong to the first line. -/
theorem firstLine_append (hline : 0x0A ∉ line) (bytes : Bytes) :
    firstLine (line ++ bytes) = (line ++ (firstLine bytes).1, (firstLine bytes).2) := by
  have hall : ∀ b ∈ line, (b != 0x0A) = true := by
    intro b hb
    have hne : b ≠ 0x0A := by
      rintro rfl
      exact hline hb
    simp [hne]
  simp [firstLine, List.takeWhile_append_of_pos hall, List.dropWhile_append_of_pos hall]

theorem firstLine_feed (rest : Bytes) : firstLine (0x0A :: rest) = ([], rest) := by
  simp [firstLine]

theorem firstLine_nil : firstLine [] = ([], []) := rfl

theorem firstLine_line (hline : 0x0A ∉ line) (rest : Bytes) :
    firstLine (line ++ 0x0A :: rest) = (line, rest) := by
  simp [firstLine_append hline, firstLine_feed]

theorem scanOnto_nil (found : List Directive) : scanOnto found [] = .ok found.reverse := by
  simp [scanOnto]

theorem scanOnto_plain (hne : bytes ≠ []) (hplain : Line.ofBytes (firstLine bytes).1 = .plain) :
    scanOnto found bytes = scanOnto found (firstLine bytes).2 := by
  conv_lhs => unfold scanOnto
  simp [hne, hplain]

theorem scanOnto_code (hcode : Line.ofBytes (firstLine bytes).1 = .code) :
    scanOnto found bytes = .ok found.reverse := by
  unfold scanOnto
  split_ifs
  · rfl
  · simp [hcode]

/-- Other characters than a line feed are written without the byte of a line feed. -/
theorem lineFeed_not_mem {c : Char} (hc : c ≠ '\n') : 0x0A ∉ String.utf8EncodeChar c := by
  intro hmem
  exact hc (Utf8.eq_of_mem_encodeChar hmem (by decide))

theorem lineFeed_not_mem_flatMap (hcs : '\n' ∉ cs) : 0x0A ∉ cs.flatMap String.utf8EncodeChar := by
  intro hmem
  obtain ⟨c, hc, hbyte⟩ := List.mem_flatMap.mp hmem
  refine lineFeed_not_mem ?_ hbyte
  rintro rfl
  exact hcs hc

/-- White space in front of a source does not count: neither the lines that it fills nor what it
    leaves in front of the first other line. -/
theorem scanOnto_blank (hws : Blank ws) (bytes : Bytes) :
    scanOnto found (ws.flatMap String.utf8EncodeChar ++ bytes) = scanOnto found bytes := by
  induction ws with
  | nil => rfl
  | cons c ws ih =>
    have hc : Blank [c] := fun d hd => hws d (by simp_all)
    rw [List.flatMap_cons, List.append_assoc, ← ih fun d hd => hws d (by simp [hd])]
    generalize ws.flatMap String.utf8EncodeChar ++ bytes = bytes
    have hne : String.utf8EncodeChar c ++ bytes ≠ [] := by
      simp [String.utf8EncodeChar_ne_nil]
    by_cases hfeed : c = '\n'
    · -- the end of a line without anything
      subst hfeed
      have hbyte : String.utf8EncodeChar '\n' = [0x0A] := by decide
      rw [hbyte, List.singleton_append,
        scanOnto_plain (by simp) (by rw [firstLine_feed, Line.ofBytes_nil]), firstLine_feed]
    · have hfirst := firstLine_append (lineFeed_not_mem hfeed) bytes
      have hsame := Line.ofBytes_append hc (firstLine bytes).1
      rw [List.flatMap_singleton] at hsame
      conv_lhs => unfold scanOnto
      rw [dif_neg hne, hfirst]
      simp only [hsame]
      by_cases hnil : bytes = []
      · -- no line is left
        subst hnil
        simp [firstLine_nil, Line.ofBytes_nil, scanOnto_nil]
      · conv_rhs => unfold scanOnto
        simp [hnil]

/-! ## §4 What is written -/

/-- How a character is written between double quotes. -/
def escaped (c : Char) : List Char :=
  if c = '\\' ∨ c = '"' then ['\\', c] else if c = '\n' then ['\\', 'n'] else [c]

/-- A name as a literal between double quotes. -/
def quote (name : String) : List Char :=
  '"' :: (name.toList.flatMap escaped ++ ['"'])

/-- Names as literals with a comma between each two and white space around each, all in one line. -/
inductive Row : List String → List Char → Prop where
  | one {before after : List Char} (name : String) (hbefore : Blank before) (hafter : Blank after)
      (hline : '\n' ∉ before ++ after) : Row [name] (before ++ (quote name ++ after))
  | more {before after row : List Char} {names : List String} (name : String)
      (hbefore : Blank before) (hafter : Blank after) (hline : '\n' ∉ before ++ after)
      (hrow : Row names row) :
      Row (name :: names) (before ++ (quote name ++ (after ++ ',' :: row)))

/-- What ends a line. -/
inductive LineEnd : Bytes → Prop where
  | feed : LineEnd [0x0A]
  | returned : LineEnd [0x0D, 0x0A]

/-- The front of a source that names lists of files: a line for each list, with blank lines and
    comments between them. White space may stand in front of each line. -/
inductive Leading : List (List String) → Bytes → Prop where
  | nil : Leading [] []
  | blank {indent : String} {ending rest : Bytes} {lists : List (List String)}
      (hindent : Blank indent.toList) (hending : LineEnd ending) (hrest : Leading lists rest) :
      Leading lists (Utf8.encode indent ++ (ending ++ rest))
  /-- A comment, whatever bytes it has. -/
  | comment {indent : String} {body ending rest : Bytes} {lists : List (List String)}
      (hindent : Blank indent.toList) (hline : 0x0A ∉ body) (hbody : body.head? ≠ some 0x40)
      (hending : LineEnd ending) (hrest : Leading lists rest) :
      Leading lists (Utf8.encode indent ++ (0x2F :: 0x2F :: body ++ (ending ++ rest)))
  /-- A list of files to append. -/
  | append {indent : String} {row : List Char} {ending rest : Bytes} {names : List String}
      {lists : List (List String)} (hindent : Blank indent.toList) (hrow : Row names row)
      (hending : LineEnd ending) (hrest : Leading lists rest) :
      Leading (names :: lists) (Utf8.encode indent ++
        (Utf8.encode (String.ofList ("//@include(".toList ++ (row ++ [')']))) ++ (ending ++ rest)))

/-- What may stand behind the front of a source: nothing, or a line that is neither blank nor a
    comment, and then anything. -/
inductive Code : Bytes → Prop where
  | none : Code []
  | line {line rest : Bytes} (hline : 0x0A ∉ line) (hblank : ¬ BlankLine line)
      (hcomment : ¬ CommentLine line) (hrest : rest = [] ∨ ∃ more, rest = 0x0A :: more) :
      Code (line ++ rest)

/-! ## §5 What is read -/

theorem body_escaped (cs : List Char) : Body (cs.flatMap escaped) cs := by
  induction cs with
  | nil => exact .nil
  | cons c cs ih =>
    rw [List.flatMap_cons]
    unfold escaped
    split_ifs with hself hfeed
    · rcases hself with rfl | rfl
      · exact .escaped (by decide) ih
      · exact .escaped (by decide) ih
    · subst hfeed
      exact .escaped (by decide) ih
    · rw [not_or] at hself
      exact .plain hself.2 hself.1 ih

theorem literal_quote (name : String) : Literal (quote name) name.toList :=
  .quoted (body_escaped name.toList)

theorem lineFeed_not_mem_quote (name : String) : '\n' ∉ quote name := by
  intro hmem
  unfold quote at hmem
  simp only [List.mem_cons, List.mem_append, List.mem_flatMap, List.not_mem_nil, or_false] at hmem
  rcases hmem with hquote | ⟨c, -, hc⟩ | hquote
  · cases hquote
  · unfold escaped at hc
    split_ifs at hc with hself hfeed
    · rcases hself with rfl | rfl <;> simp at hc
    · simp at hc
    · exact hfeed (List.mem_singleton.mp hc).symm
  · cases hquote

/-- What is written for some names is a row of literals that have these values. -/
theorem Row.arguments (h : Row names row) : ∃ lits, Arguments row lits names := by
  induction h with
  | one name hbefore hafter hline =>
    have hone := Arguments.one hbefore (literal_quote name) hafter
    rw [String.ofList_toList] at hone
    exact ⟨_, hone⟩
  | more name hbefore hafter hline hrow ih =>
    obtain ⟨lits, hlits⟩ := ih
    have hmore := Arguments.more hbefore (literal_quote name) hafter hlits
    rw [String.ofList_toList] at hmore
    exact ⟨_, hmore⟩

theorem Row.lineFeed_not_mem (h : Row names row) : '\n' ∉ row := by
  induction h with
  | one name hbefore hafter hline =>
    simp only [List.mem_append, not_or] at hline ⊢
    exact ⟨hline.1, lineFeed_not_mem_quote name, hline.2⟩
  | more name hbefore hafter hline hrow ih =>
    simp only [List.mem_append, List.mem_cons, not_or] at hline ⊢
    exact ⟨hline.1, lineFeed_not_mem_quote name, hline.2, by decide, ih⟩

/-- White space at the end of a line, in front of the line feed. -/
theorem LineEnd.exists_blank (h : LineEnd ending) : ∃ ret, Blank ret ∧ '\n' ∉ ret ∧
    ending = ret.flatMap String.utf8EncodeChar ++ [0x0A] := by
  cases h with
  | feed => exact ⟨[], blank_nil, by simp, rfl⟩
  | returned => exact ⟨['\r'], by decide, by decide, by decide⟩

/-- An expression ends in a parenthesis. -/
theorem inked_closed (front row : List Char) : Inked (front ++ (row ++ [')'])).reverse := by
  rw [← List.append_assoc, List.reverse_append, List.reverse_singleton]
  exact inked_cons (by decide) _

/-- The expression in a line of its own, with white space behind it. -/
theorem Line.ofBytes_directive (hws : Blank ws) :
    Line.ofBytes (("//@include(".toList ++ (row ++ [')']) ++ ws).flatMap String.utf8EncodeChar) =
      .directive ("include(".toList ++ (row ++ [')'])) := by
  have hchars := Utf8.decodeLossy_append ("//@include(".toList ++ (row ++ [')']) ++ ws) []
  rw [List.append_nil, Utf8.decodeLossy_eq_nil.mpr rfl, List.append_nil] at hchars
  have hfirst : Inked ("//@include(".toList ++ (row ++ [')']) ++ ws) :=
    inked_cons (by decide : Text.isBlank '/' = false) _
  have htrim := Text.trimRight_append (inked_closed "//@include(".toList row) hws
  have hskip := skipBlank_append blank_nil hfirst
  rw [List.nil_append] at hskip
  unfold Line.ofBytes Text.trim
  unfold skipBlank at hskip
  rw [hchars, hskip, htrim]
  rfl

/-- The expression that is written for some names is read as these names. -/
theorem Row.parse (h : Row names row) :
    parse ("include(".toList ++ (row ++ [')'])) = .ok (.append names) := by
  obtain ⟨lits, hlits⟩ := h.arguments
  have hcall : Call ("include(".toList ++ (row ++ [')'])) lits names := .intro blank_nil hlits
  have htrim : Text.trim ("include(".toList ++ (row ++ [')'])) =
      "include(".toList ++ (row ++ [')']) := by
    have hright := Text.trimRight_append (inked_closed "include(".toList row) blank_nil
    rw [List.append_nil] at hright
    exact hright
  rw [← htrim] at hcall
  apply hcall.parses
  rw [htrim]
  simp [h.lineFeed_not_mem]

/-- A comment is passed over, whether its line ends in a line feed alone or not. -/
theorem scanOnto_comment (hline : 0x0A ∉ bytes) (hbody : bytes.head? ≠ some 0x40)
    (hending : LineEnd ending) (rest : Bytes) :
    scanOnto found (0x2F :: 0x2F :: bytes ++ (ending ++ rest)) = scanOnto found rest := by
  -- a carriage return before the end of the line belongs to the comment
  have hfirst : ∃ ret : Bytes, 0x0A ∉ ret ∧ (bytes ++ ret).head? ≠ some 0x40 ∧
      0x2F :: 0x2F :: bytes ++ (ending ++ rest) =
        0x2F :: 0x2F :: (bytes ++ ret) ++ 0x0A :: rest := by
    cases hending with
    | feed => exact ⟨[], by simp, by simpa using hbody, by simp⟩
    | returned =>
      refine ⟨[0x0D], by decide, ?_, by simp⟩
      cases bytes with
      | nil => decide
      | cons b bytes => simpa using hbody
  obtain ⟨ret, hret, hhead, hbytes⟩ := hfirst
  have hall : 0x0A ∉ 0x2F :: 0x2F :: (bytes ++ ret) := by
    simp only [List.mem_cons, List.mem_append, not_or]
    exact ⟨by decide, by decide, hline, hret⟩
  rw [hbytes, scanOnto_plain (by simp), firstLine_line hall]
  rw [firstLine_line hall]
  exact Line.ofBytes_plain hhead

theorem scanOnto_append (hrow : Row names row) (hending : LineEnd ending) (rest : Bytes) :
    scanOnto found (Utf8.encode (String.ofList ("//@include(".toList ++ (row ++ [')']))) ++
      (ending ++ rest)) = scanOnto (.append names :: found) rest := by
  obtain ⟨ret, hret, hfeed, rfl⟩ := hending.exists_blank
  have hbytes : Utf8.encode (String.ofList ("//@include(".toList ++ (row ++ [')']))) ++
      (ret.flatMap String.utf8EncodeChar ++ [0x0A] ++ rest) =
      ("//@include(".toList ++ (row ++ [')']) ++ ret).flatMap String.utf8EncodeChar ++
        0x0A :: rest := by
    rw [Utf8.encode_ofList, List.append_assoc _ [0x0A] rest, ← List.append_assoc,
      ← List.flatMap_append, List.singleton_append]
  have hline : '\n' ∉ "//@include(".toList ++ (row ++ [')']) ++ ret := by
    simp [hrow.lineFeed_not_mem, hfeed]
  have hall := lineFeed_not_mem_flatMap hline
  rw [hbytes]
  conv_lhs => unfold scanOnto
  rw [dif_neg (by simp), firstLine_line hall]
  simp only [Line.ofBytes_directive hret, hrow.parse]

/-- Whatever stands behind the front of a source is not read. -/
theorem Code.scanOnto (h : Code tail) (found : List Directive) :
    scanOnto found tail = .ok found.reverse := by
  cases h with
  | none => exact scanOnto_nil found
  | line hline hblank hcomment hrest =>
    refine scanOnto_code ?_
    rcases hrest with rfl | ⟨more, rfl⟩
    · rw [firstLine_append hline, firstLine_nil, List.append_nil]
      exact Line.ofBytes_code hblank hcomment
    · rw [firstLine_line hline]
      exact Line.ofBytes_code hblank hcomment

/-- The lists of a front are put behind those that were found before. -/
theorem Leading.scanOnto (h : Leading lists block) (hcode : Code tail) (found : List Directive) :
    scanOnto found (block ++ tail) = .ok (found.reverse ++ lists.map .append) := by
  induction h generalizing found with
  | nil => simpa using hcode.scanOnto found
  | @blank indent ending rest lists hindent hending hrest ih =>
    obtain ⟨ret, hret, -, rfl⟩ := hending.exists_blank
    have hfeed : Blank ['\n'] := by decide
    have hbyte : [0x0A] = ['\n'].flatMap String.utf8EncodeChar := by decide
    rw [hbyte, Utf8.encode, List.append_assoc, scanOnto_blank hindent, List.append_assoc,
      List.append_assoc, scanOnto_blank hret, scanOnto_blank hfeed, ih]
  | @comment indent body ending rest lists hindent hline hbody hending hrest ih =>
    rw [Utf8.encode, List.append_assoc, scanOnto_blank hindent, List.append_assoc,
      List.append_assoc, scanOnto_comment hline hbody hending, ih]
  | @append indent row ending rest names lists hindent hrow hending hrest ih =>
    rw [Utf8.encode, List.append_assoc, scanOnto_blank hindent, List.append_assoc,
      List.append_assoc, scanOnto_append hrow hending, ih]
    simp

/-- Exactly the lists that are written at the front of a source are read, in order, whatever stands
    behind the first line of the source proper. -/
theorem scan_leading (hfront : Leading lists block) (hcode : Code tail) :
    scan (block ++ tail) = .ok (lists.map .append) ∧
    ∀ (h : Host) (source : Path), h.tree.bytesAt h.directory source = .ok (block ++ tail) →
      (directivesOf source).runOn h = (.ok (lists.map .append), h) := by
  have hscan : scan (block ++ tail) = .ok (lists.map .append) := by
    simpa [scan] using hfront.scanOnto hcode []
  refine ⟨hscan, fun h source hbytes => ?_⟩
  unfold directivesOf
  rw [Act.runOn_eq, runFrom_read, hbytes]
  simp only [hscan]

/-- A comment that is not UTF-8, a blank line, and two lists, with both ends of lines. -/
def mixedFront : Bytes :=
  [0x20, 0x2F, 0x2F, 0xFF, 0x0D, 0x0A] ++
    Utf8.encode "\n\u2003//@include(\"a\\\"\\n\\\\\" ,\"b,c\")\r\n//@include(\"`)\")\n"

/-- A line of the source proper, and behind it a directive and a byte that is not UTF-8. -/
def mixedCode : Bytes :=
  Utf8.encode "var x;" ++ (0x0A :: Utf8.encode "//@include(\"d\")\n" ++ [0xC3])

theorem scan_mixed : Leading [["a\"\n\\", "b,c"], ["`)"]] mixedFront ∧ Code mixedCode ∧
    scan (mixedFront ++ mixedCode) = .ok [.append ["a\"\n\\", "b,c"], .append ["`)"]] := by
  have hnone : Blank "".toList := blank_nil
  have hspace : Blank " ".toList := by decide
  have hwide : Blank "\u2003".toList := by decide
  have hfirst := Row.more "a\"\n\\" blank_nil hspace (by decide)
    (.one "b,c" blank_nil blank_nil (by simp))
  have hsecond := Row.one "`)" blank_nil blank_nil (by simp)
  have hlists := Leading.append hwide hfirst .returned
    (.append hnone hsecond .feed .nil)
  have hfront : Leading [["a\"\n\\", "b,c"], ["`)"]] mixedFront := by
    have hbody : (0x0A : UInt8) ∉ [0xFF] := by decide
    convert Leading.comment hspace hbody (by decide) .returned (.blank hnone .feed hlists) using 1
    decide +kernel
  have hcode : Code mixedCode := by
    refine .line (by decide +kernel) ?_ ?_ (.inr ⟨_, rfl⟩)
    · rintro ⟨indent, hindent, hline⟩
      have hplain := Line.ofBytes_blank hindent
      rw [← Utf8.encode, ← hline] at hplain
      exact absurd hplain (by decide +kernel)
    · rintro ⟨indent, body, -, hline⟩
      have hmem : 0x2F ∈ Utf8.encode "var x;" := by simp [hline]
      exact absurd hmem (by decide +kernel)
  exact ⟨hfront, hcode, (scan_leading hfront hcode).1⟩

end Directive

end AssetServer
