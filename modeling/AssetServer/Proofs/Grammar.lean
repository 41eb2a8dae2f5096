import AssetServer.Directive
import Mathlib.Data.List.TakeWhile
import Mathlib.Tactic

/-!
# The grammar of directives

An expression is a word, and literals between parentheses. What the parser accepts is stated here as
a grammar, without the parser.

- `Directive.Literal` is a literal as it is written, with the value it has; `Arguments` is a row of
  literals, `Call` a whole expression. Each keeps the literals as they are written, so that it says
  how a text is cut and not only what comes out.
- `literal_iff`, `Arguments.reads` with `exists_arguments`, and `call?_iff` compare the steps of the
  parser with the grammar.
- `Arguments.unique`: a row is cut in one way only.
- `Directive.parse_grammar`: the parser accepts exactly the grammar.
-/

namespace AssetServer

/-! ## §1 White space -/

/-- Nothing but white space. -/
def Blank (cs : List Char) : Prop :=
  ∀ c ∈ cs, Text.isBlank c = true

instance (cs : List Char) : Decidable (Blank cs) :=
  List.decidableBAll _ cs

/-- White space ends where a text starts. -/
def Inked (cs : List Char) : Prop :=
  ∀ c ∈ cs.head?, Text.isBlank c = false

namespace Directive

variable {cs before after rest rest' inner name gap value value' body lit lit' : List Char}
  {lits lits' : List (List Char)} {names names' : List String}

theorem blank_nil : Blank [] := by
  simp [Blank]

theorem inked_nil : Inked [] := by
  simp [Inked]

theorem inked_cons {c : Char} (hc : Text.isBlank c = false) (rest : List Char) :
    Inked (c :: rest) := by
  simp [Inked, hc]

theorem skipBlank_append (hbefore : Blank before) (hrest : Inked rest) :
    skipBlank (before ++ rest) = rest := by
  unfold skipBlank
  rw [List.dropWhile_append_of_pos hbefore]
  cases rest with
  | nil => rfl
  | cons c rest => exact List.dropWhile_cons_of_neg (by simp [hrest c rfl])

/-- White space in front of a text, and the text from its first character that is none. -/
theorem exists_blank (cs : List Char) :
    ∃ before, cs = before ++ skipBlank cs ∧ Blank before ∧ Inked (skipBlank cs) := by
  refine ⟨cs.takeWhile Text.isBlank, (List.takeWhile_append_dropWhile).symm, ?_, ?_⟩
  · intro c hc
    exact List.mem_takeWhile_imp hc
  · intro c hc
    have hhead := List.head?_dropWhile_not Text.isBlank cs
    unfold skipBlank at hc
    rw [hc] at hhead
    exact hhead

/-! ## §2 Literals -/

/-- The characters that a backslash may stand before, and what they stand for there. -/
def escapes : List (Char × Char) :=
  [('n', '\n'), ('t', '\t'), ('r', '\r'), ('\\', '\\'), ('"', '"'), ('\'', '\'')]

/-- What may stand between double quotes, and its value. -/
inductive Body : List Char → List Char → Prop where
  | nil : Body [] []
  /-- A character that stands for itself. -/
  | plain {c : Char} {body value : List Char} (hquote : c ≠ '"') (hslash : c ≠ '\\')
      (hbody : Body body value) : Body (c :: body) (c :: value)
  /-- A backslash and a character that it may stand before. -/
  | escaped {c d : Char} {body value : List Char} (hescape : (c, d) ∈ escapes)
      (hbody : Body body value) : Body ('\\' :: c :: body) (d :: value)

/-- A literal as it is written, and its value. -/
inductive Literal : List Char → List Char → Prop where
  | quoted {body value : List Char} (hbody : Body body value) :
      Literal ('"' :: (body ++ ['"'])) value
  | raw {body : List Char} (hbody : '`' ∉ body) : Literal ('`' :: (body ++ ['`'])) body

theorem escape?_iff {c d : Char} : escape? c = some d ↔ (c, d) ∈ escapes := by
  unfold escape? escapes
  split_ifs with hn ht hr hself
  · subst hn
    simp [eq_comm]
  · subst ht
    simp [eq_comm]
  · subst hr
    simp [eq_comm]
  · rcases hself with rfl | rfl | rfl <;> simp [eq_comm]
  · simp only [not_or] at hself
    simp [hn, ht, hr, hself]

theorem quotedRest_of_body (hbody : Body body value) (rest : List Char) :
    quotedRest (body ++ '"' :: rest) = .ok (value, rest) := by
  induction hbody with
  | nil => simp [quotedRest]
  | @plain c body value hquote hslash hbody ih =>
    rw [List.cons_append, quotedRest, ih]
    · exact hquote
    · intro hsame
      exact absurd hsame hslash
    · intro d more hsame
      exact absurd hsame hslash
  | @escaped c d body value hescape hbody ih =>
    rw [List.cons_append, List.cons_append, quotedRest, escape?_iff.mpr hescape]
    simp [ih]

theorem exists_body_of_quotedRest (h : quotedRest cs = .ok (value, rest)) :
    ∃ body, cs = body ++ '"' :: rest ∧ Body body value := by
  fun_induction quotedRest cs generalizing value rest with
  | case2 more =>
    cases h
    exact ⟨[], rfl, .nil⟩
  | case5 c more d hescape value' after hmore ih =>
    cases h
    obtain ⟨body, rfl, hbody⟩ := ih hmore
    exact ⟨'\\' :: c :: body, rfl, .escaped (escape?_iff.mp hescape) hbody⟩
  | case7 c more hquote hlast hslash value' after hmore ih =>
    cases h
    obtain ⟨body, rfl, hbody⟩ := ih hmore
    refine ⟨c :: body, rfl, .plain hquote ?_ hbody⟩
    -- a backslash is read with the character behind it, if there is one
    rintro rfl
    cases hcs : body ++ '"' :: after with
    | nil => simp at hcs
    | cons d tail => exact hslash d tail rfl hcs
  | _ => simp_all

theorem rawRest_of_body (hbody : '`' ∉ body) (rest : List Char) :
    rawRest (body ++ '`' :: rest) = .ok (body, rest) := by
  induction body with
  | nil => simp [rawRest]
  | cons c body ih =>
    rw [List.mem_cons, not_or] at hbody
    simp [rawRest, Ne.symm hbody.1, ih hbody.2]

theorem exists_body_of_rawRest (h : rawRest cs = .ok (value, rest)) :
    cs = value ++ '`' :: rest ∧ '`' ∉ value := by
  fun_induction rawRest cs generalizing value rest with
  | case2 more =>
    cases h
    simp
  | case3 c more hquote value' after hmore ih =>
    cases h
    obtain ⟨rfl, hnot⟩ := ih hmore
    simp [hnot, Ne.symm hquote]
  | _ => simp_all

/-- What the scanner takes off the front of a text is a literal. -/
theorem literal_iff :
    literal cs = .ok (value, rest) ↔ ∃ lit, cs = lit ++ rest ∧ Literal lit value := by
  constructor
  · intro h
    unfold literal at h
    split at h
    · obtain ⟨body, rfl, hbody⟩ := exists_body_of_quotedRest h
      exact ⟨_, by simp, .quoted hbody⟩
    · obtain ⟨rfl, hbody⟩ := exists_body_of_rawRest h
      exact ⟨_, by simp, .raw hbody⟩
    · cases h
  · rintro ⟨lit, rfl, hlit⟩
    cases hlit with
    | quoted hbody => simpa [literal] using quotedRest_of_body hbody rest
    | raw hbody => simpa [literal] using rawRest_of_body hbody rest

theorem Literal.append (hlit : Literal lit value) (rest : List Char) :
    literal (lit ++ rest) = .ok (value, rest) :=
  literal_iff.mpr ⟨lit, rfl, hlit⟩

/-- No literal is the start of another one. -/
theorem Literal.unique (hlit : Literal lit value) (hlit' : Literal lit' value')
    (hsame : lit ++ rest = lit' ++ rest') : lit = lit' ∧ value = value' ∧ rest = rest' := by
  have hread := hlit.append rest
  rw [hsame, hlit'.append rest'] at hread
  cases hread
  exact ⟨List.append_cancel_right hsame, rfl, rfl⟩

/-- A literal starts with a quote. -/
theorem Literal.head (hlit : Literal lit value) :
    ∃ c more, lit = c :: more ∧ Text.isBlank c = false := by
  cases hlit with
  | quoted hbody => exact ⟨_, _, rfl, by decide⟩
  | raw hbody => exact ⟨_, _, rfl, by decide⟩

theorem Literal.inked (hlit : Literal lit value) (rest : List Char) : Inked (lit ++ rest) := by
  obtain ⟨c, more, rfl, hc⟩ := hlit.head
  exact inked_cons hc _

/-! ## §3 Rows of literals -/

/-- Literals with a comma between each two and white space around each: the text, the literals as
    they are written, and their values. -/
inductive Arguments : List Char → List (List Char) → List String → Prop where
  | one {before lit after value : List Char} (hbefore : Blank before) (hlit : Literal lit value)
      (hafter : Blank after) :
      Arguments (before ++ (lit ++ after)) [lit] [String.ofList value]
  | more {before lit after rest value : List Char} {lits : List (List Char)} {names : List String}
      (hbefore : Blank before) (hlit : Literal lit value) (hafter : Blank after)
      (hrest : Arguments rest lits names) :
      Arguments (before ++ (lit ++ (after ++ ',' :: rest))) (lit :: lits)
        (String.ofList value :: names)

theorem Arguments.ne_nil (h : Arguments inner lits names) : names ≠ [] := by
  cases h with
  | one => simp
  | more => simp

theorem inked_comma (rest : List Char) : Inked (',' :: rest) :=
  inked_cons (by decide) rest

theorem Arguments.skipBlank_ne_nil (h : Arguments inner lits names) : skipBlank inner ≠ [] := by
  cases h with
  | one hbefore hlit hafter =>
    obtain ⟨c, more, rfl, -⟩ := hlit.head
    rw [skipBlank_append hbefore (hlit.inked _)]
    simp
  | more hbefore hlit hafter hrest =>
    obtain ⟨c, more, rfl, -⟩ := hlit.head
    rw [skipBlank_append hbefore (hlit.inked _)]
    simp

theorem arguments_blank (h : skipBlank cs = []) : arguments cs = .ok [] := by
  unfold arguments
  split
  · rfl
  · simp_all

/-- A literal that white space may stand before is read, and then what follows it decides. -/
theorem arguments_literal (hbefore : Blank before) (hlit : Literal lit value) (after : List Char) :
    arguments (before ++ (lit ++ after)) =
      match skipBlank after with
      | [] => .ok [String.ofList value]
      | d :: rest =>
        if d ≠ ',' then .error (.unexpectedAfter d)
        else if skipBlank rest = [] then .error .trailingComma
        else match arguments rest with
          | .ok values => .ok (String.ofList value :: values)
          | .error e => .error e := by
  have hskip := skipBlank_append hbefore (hlit.inked after)
  have hread := hlit.append after
  obtain ⟨c, more, rfl, -⟩ := hlit.head
  rw [List.cons_append] at hskip hread
  conv_lhs => unfold arguments
  -- the two failing cases of the definition do not meet a literal
  split
  · rename_i hnil
    rw [List.cons_append, hskip] at hnil
    cases hnil
  · rename_i c' more' hcons
    rw [List.cons_append, hskip] at hcons
    cases hcons
    split
    · rename_i e herror
      rw [hread] at herror
      cases herror
    · rename_i value' after' hvalue
      rw [hread] at hvalue
      cases hvalue
      split
      · rename_i hnil
        rw [hnil]
      · rename_i d rest hrest
        generalize skipBlank after = skipped at hrest ⊢
        subst hrest
        rfl

/-- What is read as a row starts with a literal, unless it is blank. -/
theorem exists_literal {c : Char} {more : List Char} (hskip : skipBlank cs = c :: more)
    (h : arguments cs = .ok names) :
    ∃ lit value after, c :: more = lit ++ after ∧ Literal lit value := by
  unfold arguments at h
  split at h
  · simp_all
  · split at h
    · cases h
    · rename_i c' more' hcons value after hread
      rw [hskip] at hcons
      cases hcons
      obtain ⟨lit, hmore, hlit⟩ := literal_iff.mp hread
      exact ⟨lit, value, after, hmore, hlit⟩

/-- Only a blank text is read as a row of no values. -/
theorem skipBlank_of_arguments (h : arguments cs = .ok []) : skipBlank cs = [] := by
  cases hskip : skipBlank cs with
  | nil => rfl
  | cons c more =>
    obtain ⟨lit, value, after, hmore, hlit⟩ := exists_literal hskip h
    obtain ⟨before, hcs, hbefore, -⟩ := exists_blank cs
    rw [hcs, hskip, hmore, arguments_literal hbefore hlit] at h
    split at h
    · cases h
    · split_ifs at h
      split at h
      · cases h
      · cases h

theorem Arguments.reads (h : Arguments inner lits names) : arguments inner = .ok names := by
  induction h with
  | one hbefore hlit hafter =>
    have hskip := skipBlank_append hafter inked_nil
    rw [List.append_nil] at hskip
    rw [arguments_literal hbefore hlit, hskip]
  | more hbefore hlit hafter hrest ih =>
    rw [arguments_literal hbefore hlit, skipBlank_append hafter (inked_comma _)]
    simp [hrest.skipBlank_ne_nil, ih]

/-- What is read as a row of values is empty, or a row of literals that have these values. -/
theorem exists_arguments (h : arguments cs = .ok names) (hne : names ≠ []) :
    ∃ lits, Arguments cs lits names := by
  -- each literal leaves a shorter text
  induction hlength : cs.length using Nat.strong_induction_on generalizing cs names with
  | _ n ih =>
  obtain ⟨before, hcs, hbefore, -⟩ := exists_blank cs
  cases hskip : skipBlank cs with
  | nil =>
    rw [arguments_blank hskip] at h
    cases h
    exact absurd rfl hne
  | cons c more =>
    obtain ⟨lit, value, after, hmore, hlit⟩ := exists_literal hskip h
    rw [hskip, hmore] at hcs
    rw [hcs, arguments_literal hbefore hlit] at h
    obtain ⟨gap, hafter, hgap, -⟩ := exists_blank after
    cases hrest : skipBlank after with
    | nil =>
      -- the last literal
      rw [hrest, List.append_nil] at hafter
      rw [hrest] at h
      cases h
      rw [hcs, hafter]
      exact ⟨[lit], .one hbefore hlit hgap⟩
    | cons d rest =>
      rw [hrest] at h hafter
      simp only at h
      split_ifs at h with hcomma hlast
      · split at h
        · rename_i values hvalues
          cases h
          have hshort : rest.length < n := by
            rw [← hlength, hcs, hafter]
            simp only [List.length_append, List.length_cons]
            omega
          have hvalues_ne : values ≠ [] := by
            rintro rfl
            exact hlast (skipBlank_of_arguments hvalues)
          obtain ⟨lits, hrow⟩ := ih rest.length hshort hvalues hvalues_ne rfl
          rw [not_ne_iff] at hcomma
          rw [hcs, hafter, hcomma]
          exact ⟨lit :: lits, .more hbefore hlit hgap hrow⟩
        · cases h

/-- White space in front of a literal ends where the literal starts, and no literal is the start of
    another one. -/
theorem eq_of_literal (hbefore : Blank before) (hlit : Literal lit value) (hbefore' : Blank before')
    (hlit' : Literal lit' value') (hsame : before ++ (lit ++ rest) = before' ++ (lit' ++ rest')) :
    lit = lit' ∧ rest = rest' := by
  have hskip := congrArg skipBlank hsame
  rw [skipBlank_append hbefore (hlit.inked rest), skipBlank_append hbefore' (hlit'.inked rest')]
    at hskip
  obtain ⟨hlits, -, hrest⟩ := hlit.unique hlit' hskip
  exact ⟨hlits, hrest⟩

theorem not_blank_of_comma {after : List Char} (rest : List Char) :
    ¬ Blank (after ++ ',' :: rest) := by
  intro hblank
  have hcomma := hblank ',' (by simp)
  exact absurd hcomma (by decide)

/-- A row of literals is cut in one way only. -/
theorem Arguments.unique (h : Arguments inner lits names) (h' : Arguments inner lits' names') :
    lits = lits' := by
  induction h generalizing lits' names' with
  | one hbefore hlit hafter =>
    rename_i before lit after value
    generalize hinner : before ++ (lit ++ after) = inner at h'
    cases h' with
    | one hbefore' hlit' hafter' =>
      rw [(eq_of_literal hbefore hlit hbefore' hlit' hinner).1]
    | more hbefore' hlit' hafter' hrest' =>
      -- there is no comma behind the last literal
      rw [(eq_of_literal hbefore hlit hbefore' hlit' hinner).2] at hafter
      exact absurd hafter (not_blank_of_comma _)
  | more hbefore hlit hafter hrest ih =>
    rename_i before lit after rest value lits names
    generalize hinner : before ++ (lit ++ (after ++ ',' :: rest)) = inner at h'
    cases h' with
    | one hbefore' hlit' hafter' =>
      rw [← (eq_of_literal hbefore hlit hbefore' hlit' hinner).2] at hafter'
      exact absurd hafter' (not_blank_of_comma _)
    | more hbefore' hlit' hafter' hrest' =>
      obtain ⟨rfl, htail⟩ := eq_of_literal hbefore hlit hbefore' hlit' hinner
      have hskip := congrArg skipBlank htail
      rw [skipBlank_append hafter (inked_comma _), skipBlank_append hafter' (inked_comma _),
        List.cons.injEq] at hskip
      obtain ⟨-, rfl⟩ := hskip
      rw [ih hrest']

/-! ## §4 Expressions -/

/-- A word that may stand in front of the parentheses. -/
structure Word (name : List Char) : Prop where
  start : ∃ c more, name = c :: more ∧ startsName c = true
  all : ∀ c ∈ name, inName c = true

theorem not_inName_of_blank {c : Char} (h : Text.isBlank c = true) : inName c = false := by
  have hval : c.val.toNat = c.toNat := rfl
  have hunderscore : c = '_' → c.toNat = 95 := by
    rintro rfl
    rfl
  have hupper : c.isUpper = decide (c.val ≥ 'A'.val ∧ c.val ≤ 'Z'.val) := rfl
  have hlower : c.isLower = (decide (c.val ≥ 'a'.val) && decide (c.val ≤ 'z'.val)) := rfl
  have halpha : c.isAlpha = (c.isUpper || c.isLower) := rfl
  unfold Text.isBlank at h
  simp only [Bool.or_eq_true, Bool.and_eq_true, decide_eq_true_eq, beq_iff_eq] at h
  simp only [inName, startsName, halpha, hupper, hlower, Char.isDigit,
    Bool.or_eq_false_iff, Bool.and_eq_false_iff, decide_eq_false_iff_not, beq_eq_false_iff_ne,
    ge_iff_le, UInt32.le_iff_toNat_le, hval]
  refine ⟨⟨⟨?_, ?_⟩, ?_⟩, ?_⟩
  · simp
    omega
  · simp
    omega
  · intro hc
    have := hunderscore hc
    omega
  · simp
    omega

/-- A word is read up to the white space or the parenthesis behind it. -/
theorem takeWhile_word (hname : ∀ c ∈ name, inName c = true) (hgap : Blank gap) :
    (name ++ (gap ++ '(' :: rest)).takeWhile inName = name := by
  rw [List.takeWhile_append_of_pos hname]
  cases gap with
  | nil =>
    have hparen : inName '(' = false := by decide
    simp [hparen]
  | cons c gap => simp [not_inName_of_blank (hgap c (by simp))]

/-- What stands for a call: a word, white space, and a text between parentheses that go to the
    end. -/
theorem call?_iff : call? cs = some (name, inner) ↔ ∃ gap,
    cs = name ++ (gap ++ '(' :: (inner ++ [')'])) ∧ Word name ∧ Blank gap ∧ '\n' ∉ inner := by
  constructor
  · intro h
    unfold call? at h
    simp only at h
    split at h
    · rename_i c inner' hhead hskip
      split_ifs at h with hcall
      cases h
      obtain ⟨hstart, hlast, hline⟩ := hcall
      obtain ⟨body, rfl⟩ := List.getLast?_eq_some_iff.mp hlast
      obtain ⟨gap, hgap, hblank, -⟩ := exists_blank (cs.drop (cs.takeWhile inName).length)
      -- the name is what the text begins with, and nothing of it is lost
      have htaken : cs.takeWhile inName = cs.take (cs.takeWhile inName).length :=
        List.prefix_iff_eq_take.mp (List.takeWhile_prefix inName)
      rw [hskip] at hgap
      refine ⟨gap, ?_, ⟨?_, ?_⟩, hblank, ?_⟩
      · rw [List.dropLast_concat, ← hgap]
        conv_rhs => rw [htaken]
        rw [List.length_take_of_le, List.take_append_drop]
        exact (List.takeWhile_prefix inName).length_le
      · obtain ⟨more, hmore⟩ := List.head?_eq_some_iff.mp hhead
        exact ⟨c, more, hmore, hstart⟩
      · intro d hd
        exact List.mem_takeWhile_imp hd
      · rw [List.dropLast_concat]
        simp only [List.mem_append, not_or] at hline
        exact hline.1
    · cases h
  · rintro ⟨gap, rfl, hword, hgap, hline⟩
    obtain ⟨c, more, rfl, hstart⟩ := hword.start
    have hparen : Inked ('(' :: (inner ++ [')'])) := inked_cons (by decide) _
    unfold call?
    simp only [takeWhile_word hword.all hgap, List.drop_left, skipBlank_append hgap hparen]
    simp [hstart, hline]

/-- An expression: the word `include`, white space, and a row of literals between parentheses. The
    literals are given as they are written, and their values. -/
inductive Call : List Char → List (List Char) → List String → Prop where
  | intro {gap inner : List Char} {lits : List (List Char)} {names : List String} (hgap : Blank gap)
      (hrow : Arguments inner lits names) :
      Call ("include".toList ++ (gap ++ '(' :: (inner ++ [')']))) lits names

theorem word_include : Word "include".toList :=
  ⟨⟨'i', _, rfl, by decide⟩, List.all_eq_true.mp (by decide)⟩

/-- An expression is read as the values of its literals. -/
theorem Call.parses {text : List Char} (h : Call (Text.trim text) lits names)
    (hline : '\n' ∉ Text.trim text) : parse text = .ok (.append names) := by
  generalize htext : Text.trim text = cs at h hline
  cases h with
  | intro hgap hrow =>
    rename_i gap inner
    have hinner : '\n' ∉ inner := by
      intro hmem
      exact hline (by simp [hmem])
    have hcall : call? (Text.trim text) = some ("include".toList, inner) := by
      rw [htext]
      exact call?_iff.mpr ⟨gap, rfl, word_include, hgap, hinner⟩
    unfold parse
    simp [hcall, hrow.reads, hrow.ne_nil]

/-- What is read as the names of files is an expression with literals that have these values. -/
theorem exists_call {text : List Char} (h : parse text = .ok (.append names)) :
    ∃ lits, Call (Text.trim text) lits names := by
  unfold parse at h
  simp only at h
  split at h
  · cases h
  · rename_i name inner hcall
    split at h
    · cases h
    · rename_i files hfiles
      split_ifs at h with hname hnone
      cases h
      obtain ⟨lits, hrow⟩ := exists_arguments hfiles hnone
      obtain ⟨gap, htext, -, hgap, -⟩ := call?_iff.mp hcall
      rw [htext, hname]
      exact ⟨lits, .intro hgap hrow⟩

/-- An expression is cut into literals in one way only. -/
theorem Call.unique (h : Call cs lits names) (h' : Call cs lits' names') : lits = lits' := by
  cases h with
  | intro hgap hrow =>
    rename_i gap inner
    generalize hcs : "include".toList ++ (gap ++ '(' :: (inner ++ [')'])) = cs at h'
    cases h' with
    | intro hgap' hrow' =>
      have hparen : ∀ rest : List Char, Inked ('(' :: rest) := inked_cons (by decide)
      -- the parenthesis is the first that is not blank, so the gaps are equally long
      have hskip := congrArg skipBlank (List.append_cancel_left hcs)
      rw [skipBlank_append hgap (hparen _), skipBlank_append hgap' (hparen _), List.cons.injEq]
        at hskip
      obtain rfl := List.append_cancel_right hskip.2
      exact hrow.unique hrow'

theorem mem_of_mem_trim {c : Char} (h : c ∈ Text.trim cs) : c ∈ cs := by
  unfold Text.trim Text.trimRight at h
  rw [List.mem_reverse] at h
  have hright := (List.dropWhile_suffix Text.isBlank).subset h
  rw [List.mem_reverse] at hright
  exact (List.dropWhile_suffix Text.isBlank).subset hright

/-- The parser accepts exactly the grammar. A text in one line asks for some files if, without white
    space at both ends, it is an expression with literals that name them; it can be cut into
    literals in one way only, and so has one reading. Any other text is an error. -/
theorem parse_grammar {text : List Char} (hline : '\n' ∉ text) :
    (∀ names, parse text = .ok (.append names) ↔ ∃ lits, Call (Text.trim text) lits names) ∧
    (∀ lits lits' names names', Call (Text.trim text) lits names →
      Call (Text.trim text) lits' names' → lits = lits' ∧ names = names') ∧
    ((∃ fault, parse text = .error fault) ↔ ¬ ∃ lits names, Call (Text.trim text) lits names) := by
  have htrim : '\n' ∉ Text.trim text := fun hmem => hline (mem_of_mem_trim hmem)
  refine ⟨fun names => ⟨exists_call, ?_⟩, ?_, ?_⟩
  · rintro ⟨lits, hcall⟩
    exact hcall.parses htrim
  · intro lits lits' names names' hcall hcall'
    have hread := hcall.parses htrim
    rw [hcall'.parses htrim] at hread
    cases hread
    exact ⟨hcall.unique hcall', rfl⟩
  · constructor
    · rintro ⟨fault, hfault⟩ ⟨lits, names, hcall⟩
      rw [hcall.parses htrim] at hfault
      cases hfault
    · intro hnone
      cases hread : parse text with
      | error fault => exact ⟨fault, rfl⟩
      | ok directive =>
        obtain ⟨names⟩ := directive
        obtain ⟨lits, hcall⟩ := exists_call hread
        exact absurd ⟨lits, names, hcall⟩ hnone

/-- An expression with white space, brackets, commas and quotes of the other form. -/
def mixedText : List Char :=
  "\t include (\"a(,)\\\"`\" ,`b)\"\\`\u2003 ) ".toList

theorem mixed_grammar : '\n' ∉ mixedText ∧
    ∃ lits, Call (Text.trim mixedText) lits ["a(,)\"`", "b)\"\\"] := by
  have hline : '\n' ∉ mixedText := by decide
  have hread : parse mixedText = .ok (.append ["a(,)\"`", "b)\"\\"]) := by decide +kernel
  exact ⟨hline, ((parse_grammar hline).1 _).mp hread⟩

end Directive

end AssetServer
