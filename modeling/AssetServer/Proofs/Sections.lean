import AssetServer.Proofs.Quotation
import AssetServer.Toml.Section
import AssetServer.Toml.Statement

/-!
# Sections as statements

What is written for sections is read as their statements.

- `keyPart?_keyText`, `key?_name`: keys are read back.
- `value?_write`: values are read back.
- `Reads`: a text is a row of statements, however many lines may be read.
- `Reads.sections`: a row of sections is read as the headers and entries of these sections.
-/

namespace AssetServer.Toml

variable {assemble : List (List String × Value) → Option Value} {cs after rest : List Char}
  {depth room : Nat} {key text : String}

/-! ## §1 Keys -/

/-- Whether a key ends before a text: it does not go on with what may belong to a key. -/
def EndsKey (cs : List Char) : Prop :=
  ∃ a rest, cs = a :: rest ∧ isBare a = false ∧ a ≠ '"' ∧ a ≠ '\''

/-- The text of a key starts with a character of a bare key or a quote, so with none that starts
    something else. -/
theorem keyText_start (key : String) : ∃ a rest, (keyText key).toList = a :: rest ∧
    isBlank a = false ∧ a ∉ ['\n', '\r', '#', '['] := by
  have hother : ∀ a, isBare a = true ∨ a = '"' ∨ a = '\'' →
      isBlank a = false ∧ a ∉ ['\n', '\r', '#', '['] := by
    intro a ha
    -- none of the characters that start something else is one of a bare key or a quote
    have hne : ∀ b ∈ [' ', '\t', '\n', '\r', '#', '['], a ≠ b := by
      rintro b hb rfl
      fin_cases hb <;> revert ha <;> decide
    simp only [isBlank, Bool.or_eq_false_iff, beq_eq_false_iff_ne]
    exact ⟨⟨hne _ (by decide), hne _ (by decide)⟩, fun hmem => hne a (by simp_all) rfl⟩
  unfold keyText
  simp only
  split_ifs with hbare
  · obtain ⟨hne, hall⟩ := hbare
    obtain ⟨a, rest, hkey⟩ := List.exists_cons_of_ne_nil hne
    rw [hkey] at hall ⊢
    exact ⟨a, rest, rfl, hother a (.inl (List.all_eq_true.mp hall a List.mem_cons_self))⟩
  · rw [String.toList_ofList]
    rcases Style.ofKey key.toList with ⟨_ | _, _ | _⟩
    all_goals exact ⟨_, _, rfl, hother _ (.inr (by decide))⟩

theorem ne_quote_of_isBare {c : Char} (h : isBare c = true) : c ≠ '"' ∧ c ≠ '\'' := by
  constructor <;> (rintro rfl; revert h; decide)

/-- A key without quotes is read up to where it ends. -/
theorem keyPart?_bare (hne : cs ≠ []) (hall : cs.all isBare = true) (h : EndsKey after) :
    keyPart? (cs ++ after) = some (String.ofList cs, after) := by
  obtain ⟨a, rest, rfl, hbare, -⟩ := h
  have htake : (cs ++ a :: rest).takeWhile isBare = cs := by
    rw [List.takeWhile_append_of_pos (List.all_eq_true.mp hall)]
    simp [hbare]
  have hdrop : (cs ++ a :: rest).dropWhile isBare = a :: rest := by
    rw [List.dropWhile_append_of_pos (List.all_eq_true.mp hall)]
    simp [hbare]
  obtain ⟨c, more, rfl⟩ := List.exists_cons_of_ne_nil hne
  obtain ⟨hdouble, hsingle⟩ := ne_quote_of_isBare (List.all_eq_true.mp hall c List.mem_cons_self)
  rw [keyPart?.eq_3 _ (by simp [hdouble]) (by simp [hsingle]), htake, hdrop]
  simp

/-- A key in quotes is read up to the closing quote. -/
theorem keyPart?_quoted {s : Style} (hmany : s.many = false) (hfits : s.Fits cs)
    (h : EndsKey after) : keyPart? (s.write cs ++ after) = some (String.ofList cs, after) := by
  obtain ⟨a, rest, rfl, -, hdouble, hsingle⟩ := h
  -- what follows the key is no quote, so the key ends at its own closing quote
  have hquote : (a :: rest).head? ≠ some s.quote := by
    unfold Style.quote
    split <;> simpa
  have hbody := hfits.writes.body? hquote
  have hwrite : s.write cs ++ a :: rest =
      s.quote :: (s.inside cs ++ (s.delimiter ++ a :: rest)) := by
    simp [Style.write, Style.inside, Style.delimiter, hmany]
  rw [hwrite]
  rcases s with ⟨_ | _, _ | _⟩
  · exact congrArg (Option.map fun found => (String.ofList found.1, found.2)) hbody
  · cases hmany
  · exact congrArg (Option.map fun found => (String.ofList found.1, found.2)) hbody
  · cases hmany

/-- A part of a key is read back. -/
theorem keyPart?_keyText (key : String) (h : EndsKey after) :
    keyPart? ((keyText key).toList ++ after) = some (key, after) := by
  unfold keyText
  simp only
  split_ifs with hkey
  · rw [keyPart?_bare hkey.1 hkey.2 h, String.ofList_toList]
  · rw [String.toList_ofList, keyPart?_quoted (Style.ofKey_many _) (Style.fits_ofKey _) h,
      String.ofList_toList]

/-- No blank stands in front of a key. -/
theorem skipBlanks_keyText (key : String) (cs : List Char) :
    skipBlanks ((keyText key).toList ++ cs) = (keyText key).toList ++ cs := by
  obtain ⟨a, rest, hkey, hblank, -⟩ := keyText_start key
  rw [hkey, List.cons_append, skipBlanks, List.dropWhile_cons, hblank, if_neg (by decide)]

/-- The last part of a key, with what follows the blanks behind it. -/
theorem keyParts?_last (key : String) (h : EndsKey after)
    (hdot : ∀ more, skipBlanks after ≠ '.' :: more) :
    keyParts? (room + 1) ((keyText key).toList ++ after) = some ([key], skipBlanks after) := by
  rw [keyParts?, skipBlanks_keyText, keyPart?_keyText key h]
  simp only [Option.bind_eq_bind, Option.bind_some]
  rfl

/-- A part of a key with more parts behind it. -/
theorem keyParts?_dot (key : String) {parts : List String}
    (h : keyParts? room cs = some (parts, after)) :
    keyParts? (room + 1) ((keyText key).toList ++ '.' :: cs) = some (key :: parts, after) := by
  rw [keyParts?, skipBlanks_keyText, keyPart?_keyText key ⟨'.', cs, rfl, by decide⟩]
  simp [skipBlanks, isBlank, h]

/-- The key of a header is read back. -/
theorem key?_name {name : List String} (hne : name ≠ []) (hlength : name.length ≤ maxDepth)
    (rest : List Char) :
    key? ((".".intercalate (name.map keyText)).toList ++ ']' :: rest) =
      some (name, ']' :: rest) := by
  have hparts : ∀ room, name.length ≤ room → keyParts? room
      ((".".intercalate (name.map keyText)).toList ++ ']' :: rest) = some (name, ']' :: rest) := by
    clear hlength
    induction name with
    | nil => exact absurd rfl hne
    | cons key more ih =>
      intro room hroom
      obtain ⟨room, rfl⟩ := Nat.exists_eq_add_one_of_ne_zero (Nat.ne_zero_of_lt hroom)
      cases more with
      | nil =>
        rw [List.map_singleton, String.intercalate_singleton]
        exact keyParts?_last key ⟨']', rest, rfl, by decide⟩ (by simp [skipBlanks, isBlank])
      | cons next more =>
        have hmore := ih (List.cons_ne_nil _ _) room (by simpa using hroom)
        rw [List.map_cons, String.intercalate_cons_of_ne_nil (by simp)]
        simp only [String.toList_append, List.append_assoc]
        exact keyParts?_dot key hmore
  exact hparts maxDepth hlength

/-- The key of an entry is read back, up to its equals sign. -/
theorem key?_entry (key : String) (rest : List Char) :
    key? ((keyText key).toList ++ ' ' :: '=' :: rest) = some ([key], '=' :: rest) :=
  keyParts?_last key ⟨' ', _, rfl, by decide⟩ (by simp [skipBlanks, isBlank])

/-! ## §2 Values -/

/-- The value that is written. -/
def Item.toValue : Item → Value
  | .text text => .string text
  | .flag b => .boolean b
  | .texts ts => .list (ts.map .string)

/-- Whether a value in quotes ends before a text. -/
def EndsText (cs : List Char) : Prop :=
  cs.head? ≠ some '"' ∧ cs.head? ≠ some '\''

/-- A text in quotes starts with a quote. -/
theorem quotedText_start (text : String) :
    ∃ a rest, (quotedText text).toList = a :: rest ∧ (a = '"' ∨ a = '\'') := by
  rw [quotedText, String.toList_ofList]
  rcases hstyle : Style.ofText text.toList with ⟨_ | _, _ | _⟩
  all_goals exact ⟨_, _, rfl, by decide⟩

/-- A text in quotes is read back as a value. -/
theorem value?_quotedText (text : String) (h : EndsText after) :
    value? assemble depth ((quotedText text).toList ++ after) = some (.string text, after) := by
  have hstring := string?_quotedText text h
  obtain ⟨a, rest, htext, hquote⟩ := quotedText_start text
  rw [htext] at hstring ⊢
  have hplain : plainValue? (a :: rest ++ after) = some (.string text, after) := by
    unfold plainValue?
    rcases hquote with rfl | rfl
    · simp only [List.cons_append] at hstring ⊢
      rw [hstring]
      rfl
    · simp only [List.cons_append] at hstring ⊢
      rw [hstring]
      rfl
  rcases hquote with rfl | rfl
  · rw [value?.eq_def]
    exact hplain
  · rw [value?.eq_def]
    exact hplain

section Elements

variable {α : Type} {element : Reader α} {start more : List Char} {v : α} {vs : List α} {fuel : Nat}

/-- The last element of a list. -/
theorem elements?_last (hskip : skipFill false cs = start) (hstart : ∀ more, start ≠ ']' :: more)
    (hvalue : element start = some (v, ']' :: after)) :
    elements? element (fuel + 1) cs = some ([v], after) := by
  rw [elements?, hskip]
  simp [hvalue, skipFill, isBlank]

/-- An element of a list with a comma behind it. -/
theorem elements?_more (hskip : skipFill false cs = start) (hstart : ∀ more, start ≠ ']' :: more)
    (hvalue : element start = some (v, ',' :: more))
    (hmore : elements? element fuel more = some (vs, after)) :
    elements? element (fuel + 1) cs = some (v :: vs, after) := by
  rw [elements?, hskip]
  simp [hvalue, skipFill, isBlank, hmore]

end Elements

/-- Nothing is skipped in front of a text in quotes, and it is not the end of a list. -/
theorem skipFill_quotedText (text : String) (cs : List Char) :
    skipFill false ((quotedText text).toList ++ cs) = (quotedText text).toList ++ cs ∧
      ∀ more, (quotedText text).toList ++ cs ≠ ']' :: more := by
  obtain ⟨a, rest, htext, rfl | rfl⟩ := quotedText_start text
  all_goals simp [htext, skipFill, isBlank]

/-- The lines of a list with more than one text. -/
def textLines (texts : List String) : List Char :=
  (String.join (texts.map fun t => "    " ++ quotedText t ++ ",\n")).toList

theorem textLines_cons (text : String) (more : List String) : textLines (text :: more) =
    ' ' :: ' ' :: ' ' :: ' ' :: ((quotedText text).toList ++ ',' :: '\n' :: textLines more) := by
  simp [textLines]

theorem length_le_textLines (texts : List String) : texts.length ≤ (textLines texts).length := by
  induction texts with
  | nil => exact Nat.zero_le _
  | cons text more ih =>
    simp only [textLines_cons, List.length_cons, List.length_append]
    omega

/-- The lines of a list are read back, from the line end in front of them. -/
theorem elements?_textLines (texts : List String) {fuel : Nat} (hfuel : texts.length < fuel)
    (after : List Char) :
    elements? (value? assemble depth) fuel ('\n' :: (textLines texts ++ ']' :: after)) =
      some (texts.map .string, after) := by
  induction texts generalizing fuel with
  | nil =>
    obtain ⟨fuel, rfl⟩ := Nat.exists_eq_add_one_of_ne_zero (Nat.ne_zero_of_lt hfuel)
    rfl
  | cons text more ih =>
    obtain ⟨fuel, rfl⟩ := Nat.exists_eq_add_one_of_ne_zero (Nat.ne_zero_of_lt hfuel)
    obtain ⟨hskip, hstart⟩ :=
      skipFill_quotedText text (',' :: '\n' :: (textLines more ++ ']' :: after))
    have hvalue : value? assemble depth ((quotedText text).toList ++
        ',' :: '\n' :: (textLines more ++ ']' :: after)) = some (.string text, _) :=
      value?_quotedText text (by simp [EndsText])
    have hmore := ih (Nat.lt_of_succ_lt_succ hfuel)
    refine elements?_more ?_ hstart hvalue hmore
    simpa [textLines_cons, skipFill, isBlank] using hskip

theorem value?_list {vs : List Value}
    (h : elements? (value? assemble depth) (cs.length + 1) cs = some (vs, after)) :
    value? assemble (depth + 1) ('[' :: cs) = some (.list vs, after) := by
  rw [value?, h]
  rfl

/-- A list of texts is read back. -/
theorem value?_textsText (texts : List String) (after : List Char) :
    value? assemble (depth + 1) ((textsText texts).toList ++ after) =
      some (.list (texts.map .string), after) := by
  unfold textsText
  split
  · exact value?_list rfl
  · rename_i text
    obtain ⟨hskip, hstart⟩ := skipFill_quotedText text (']' :: after)
    have hvalue : value? assemble depth ((quotedText text).toList ++ ']' :: after) =
        some (.string text, ']' :: after) := value?_quotedText text (by simp [EndsText])
    simpa using value?_list (elements?_last hskip hstart hvalue)
  · -- each text has a line of its own, so there are fewer texts than characters
    have hfuel : texts.length < ('\n' :: (textLines texts ++ ']' :: after)).length + 1 := by
      have hle := length_le_textLines texts
      simp only [List.length_cons, List.length_append]
      omega
    have hlines : value? assemble (depth + 1) ('[' :: '\n' :: (textLines texts ++ ']' :: after)) =
        some (.list (texts.map .string), after) :=
      value?_list (elements?_textLines texts hfuel after)
    simpa [textLines] using hlines

/-- No blank stands in front of a value. -/
theorem skipBlanks_write (v : Item) (cs : List Char) :
    skipBlanks (v.write.toList ++ cs) = v.write.toList ++ cs := by
  cases v with
  | text t =>
    obtain ⟨a, rest, htext, rfl | rfl⟩ := quotedText_start t
    all_goals simp [Item.write, htext, skipBlanks, isBlank]
  | flag b => cases b <;> rfl
  | texts ts =>
    change skipBlanks ((textsText ts).toList ++ cs) = (textsText ts).toList ++ cs
    unfold textsText
    split <;> simp [skipBlanks, isBlank]

/-- A value is read back. -/
theorem value?_write (v : Item) (h : EndsText after) :
    value? assemble (depth + 1) (v.write.toList ++ after) = some (v.toValue, after) := by
  cases v with
  | text t => exact value?_quotedText t h
  | flag b => cases b <;> rfl
  | texts ts => exact value?_textsText ts after

/-! ## §3 Statements -/

/-- The statements of a section. -/
def Section.statements (s : Section) : List Statement :=
  .table s.name :: s.entries.map fun (k, v) => .entry [k] v.toValue

@[simp] theorem endOfLine?_lineFeed (rest : List Char) : endOfLine? ('\n' :: rest) = some rest := by
  simp [endOfLine?, skipBlanks, isBlank, lineEnd?]

/-- A text that starts with a key does not start with a bracket. -/
theorem keyText_ne_bracket (key : String) (cs rest : List Char) :
    (keyText key).toList ++ cs ≠ '[' :: rest := by
  obtain ⟨a, more, hkey, -, hstart⟩ := keyText_start key
  rw [hkey, List.cons_append]
  rintro heq
  exact hstart (by simp [(List.cons.inj heq).1])

/-- The line of an entry is read back. -/
theorem statement?_entry (key : String) (v : Item) (rest : List Char) :
    statement? assemble ((keyText key ++ " = " ++ v.write ++ "\n").toList ++ rest) =
      some (.entry [key] v.toValue, rest) := by
  have hline : (keyText key ++ " = " ++ v.write ++ "\n").toList ++ rest =
      (keyText key).toList ++ ' ' :: '=' :: ' ' :: (v.write.toList ++ '\n' :: rest) := by simp
  have hvalue : value? assemble maxDepth (v.write.toList ++ '\n' :: rest) =
      some (v.toValue, '\n' :: rest) := value?_write v (by simp [EndsText])
  have hblank : skipBlanks (' ' :: (v.write.toList ++ '\n' :: rest)) =
      v.write.toList ++ '\n' :: rest := skipBlanks_write v _
  have hentry : entry? (value? assemble maxDepth) ((keyText key).toList ++
      ' ' :: '=' :: ' ' :: (v.write.toList ++ '\n' :: rest)) =
        some (([key], v.toValue), '\n' :: rest) := by
    unfold entry?
    simp [key?_entry, hblank, hvalue]
  rw [hline, statement?.eq_3 _ _ (fun _ => keyText_ne_bracket key _ _)
    (fun _ => keyText_ne_bracket key _ _), hentry]
  simp

/-- The line of a header is read back. -/
theorem statement?_header {name : List String} (hne : name ≠ []) (hlength : name.length ≤ maxDepth)
    (rest : List Char) :
    statement? assemble (("[" ++ ".".intercalate (name.map keyText) ++ "]\n").toList ++ rest) =
      some (.table name, rest) := by
  have hline : ("[" ++ ".".intercalate (name.map keyText) ++ "]\n").toList ++ rest =
      '[' :: ((".".intercalate (name.map keyText)).toList ++ ']' :: '\n' :: rest) := by simp
  -- the name starts with a key, so this is no header of an array
  have hbracket : ∀ more, (".".intercalate (name.map keyText)).toList ++ ']' :: '\n' :: rest ≠
      '[' :: more := by
    obtain ⟨key, more, rfl⟩ := List.exists_cons_of_ne_nil hne
    intro x
    cases more with
    | nil =>
      rw [List.map_singleton, String.intercalate_singleton]
      exact keyText_ne_bracket key _ x
    | cons next more =>
      rw [List.map_cons, String.intercalate_cons_of_ne_nil (by simp)]
      simp only [String.toList_append, List.append_assoc]
      exact keyText_ne_bracket key _ x
  rw [hline, statement?.eq_2 _ _ hbracket, key?_name hne hlength]
  simp

/-! ## §4 Rows of statements -/

/-- A text is a row of statements, in however many lines above its length it is read. -/
def Reads (assemble : List (List String × Value) → Option Value) (cs : List Char)
    (all : List Statement) : Prop :=
  ∀ fuel, cs.length < fuel → statementsWithin? assemble fuel cs = some all

namespace Reads

variable {s : Statement} {all : List Statement}

theorem statements? (h : Reads assemble cs all) : Toml.statements? assemble cs = some all :=
  h _ (Nat.lt_succ_self _)

theorem nil : Reads assemble [] [] := by
  intro fuel hfuel
  obtain ⟨fuel, rfl⟩ := Nat.exists_eq_add_one_of_ne_zero (Nat.ne_zero_of_lt hfuel)
  rfl

/-- An empty line is no statement. -/
theorem feed (h : Reads assemble cs all) : Reads assemble ('\n' :: cs) all := by
  intro fuel hfuel
  obtain ⟨fuel, rfl⟩ := Nat.exists_eq_add_one_of_ne_zero (Nat.ne_zero_of_lt hfuel)
  rw [statementsWithin?]
  simp [skipBlanks, isBlank, h fuel (Nat.lt_of_succ_lt_succ hfuel)]

/-- A statement and what is read after its line. -/
theorem line {a : Char} {more : List Char} (hblank : isBlank a = false)
    (ha : a ∉ ['\n', '\r', '#'])
    (hs : ∀ rest, statement? assemble (a :: more ++ rest) = some (s, rest))
    (h : Reads assemble cs all) : Reads assemble (a :: more ++ cs) (s :: all) := by
  intro fuel hfuel
  obtain ⟨fuel, rfl⟩ := Nat.exists_eq_add_one_of_ne_zero (Nat.ne_zero_of_lt hfuel)
  have hshort : cs.length < fuel := by
    simp only [List.cons_append, List.length_cons, List.length_append] at hfuel
    omega
  have hs' : statement? assemble (a :: (more ++ cs)) = some (s, cs) := hs cs
  simp only [List.mem_cons, List.not_mem_nil, or_false, not_or] at ha
  rw [List.cons_append, statementsWithin?]
  simp [skipBlanks, hblank, ha, hs', h fuel hshort]

/-- The lines of some entries. -/
theorem entries (es : List (String × Item)) (h : Reads assemble cs all) :
    Reads assemble
      ((String.join (es.map fun (k, v) => keyText k ++ " = " ++ v.write ++ "\n")).toList ++ cs)
      ((es.map fun (k, v) => .entry [k] v.toValue) ++ all) := by
  induction es with
  | nil => simpa using h
  | cons e es ih =>
    obtain ⟨a, more, hkey, hblank, hstart⟩ := keyText_start e.1
    have hline : (keyText e.1 ++ " = " ++ e.2.write ++ "\n").toList =
        a :: (more ++ (" = " ++ e.2.write ++ "\n").toList) := by simp [hkey]
    have hs : ∀ rest, statement? assemble (a :: (more ++ (" = " ++ e.2.write ++ "\n").toList) ++
        rest) = some (.entry [e.1] e.2.toValue, rest) := by
      rw [← hline]
      exact statement?_entry e.1 e.2
    have hread := line hblank (fun hmem => hstart (by simp_all)) hs ih
    rw [← hline] at hread
    rw [List.map_cons, String.join_cons, String.toList_append, List.append_assoc]
    exact hread

/-- The lines of a section. -/
theorem lines {s : Section} (hname : s.name ≠ [] ∧ s.name.length ≤ maxDepth)
    (h : Reads assemble cs all) : Reads assemble (s.write.toList ++ cs) (s.statements ++ all) := by
  have hheader : ("[" ++ ".".intercalate (s.name.map keyText) ++ "]\n").toList =
      '[' :: ((".".intercalate (s.name.map keyText)).toList ++ [']', '\n']) := by simp
  have hs : ∀ rest, statement? assemble ('[' :: ((".".intercalate (s.name.map keyText)).toList ++
      [']', '\n']) ++ rest) = some (.table s.name, rest) := by
    rw [← hheader]
    exact statement?_header hname.1 hname.2
  have hread := line (by decide) (by decide) hs (h.entries s.entries)
  rw [← hheader] at hread
  rw [Section.write, String.toList_append, List.append_assoc]
  exact hread

/-- The lines of some sections, with an empty line between them. -/
theorem sections {all' : List Section}
    (hnames : ∀ s ∈ all', s.name ≠ [] ∧ s.name.length ≤ maxDepth) (h : Reads assemble cs all) :
    Reads assemble ((Section.writeAll all').toList ++ cs)
      (all'.flatMap Section.statements ++ all) := by
  unfold Section.writeAll
  induction all' with
  | nil => simpa using h
  | cons s more ih =>
    have hmore := ih fun s hs => hnames s (List.mem_cons_of_mem _ hs)
    have hs := hnames s List.mem_cons_self
    rw [List.flatMap_cons, List.append_assoc, List.map_cons]
    cases more with
    | nil =>
      rw [List.map_nil, String.intercalate_singleton]
      exact h.lines hs
    | cons next more =>
      rw [String.intercalate_cons_of_ne_nil (by simp), String.append_assoc, String.toList_append,
        List.append_assoc]
      refine lines hs ?_
      rw [String.toList_append]
      exact hmore.feed

end Reads

end AssetServer.Toml
