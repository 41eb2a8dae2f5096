import AssetServer.Text.Hex

/-!
# Strings in TOML texts

A string stands in quotes: basic strings have escapes, literal strings have none. Three quotes
instead of one make a string that runs over several lines; a line end right after them does not
count, and line ends in it read as line feeds.

- `Style` is one of the four ways to write a string.
- `string?` reads a string in any of them.
- `Style.write` writes a text in a given style, `Style.ofText` chooses a style that can hold it.
-/

namespace AssetServer.Toml

/-- How a string is written. -/
structure Style where
  /-- Whether it has escapes. -/
  basic : Bool
  /-- Whether it may run over several lines. -/
  many : Bool
  deriving DecidableEq, Repr

namespace Style

/-- The quote of a style. -/
def quote (s : Style) : Char :=
  if s.basic then '"' else '\''

/-- What stands at either end of a string. -/
def delimiter (s : Style) : List Char :=
  List.replicate (if s.many then 3 else 1) s.quote

end Style

/-! ## §1 Characters -/

/-- Whether a character may stand in comments and, unless it is special there, in strings: all but
    control characters, of which only the tab may. -/
def isPlain (c : Char) : Bool :=
  c == '\t' || (0x20 ≤ c.toNat && c.toNat != 0x7F)

/-- Whether a character may stand in a key without quotes. -/
def isBare (c : Char) : Bool :=
  c.isAlphanum || c == '-' || c == '_'

/-- Whether a character is a blank: a space or a tab. -/
def isBlank (c : Char) : Bool :=
  c == ' ' || c == '\t'

/-- Skips blanks. -/
def skipBlanks (cs : List Char) : List Char :=
  cs.dropWhile isBlank

/-- What follows a line end, if one is in front. -/
def lineEnd? : List Char → Option (List Char)
  | '\n' :: rest => some rest
  | '\r' :: '\n' :: rest => some rest
  | _ => none

/-- Skips blanks and line ends. -/
def skipGap : List Char → List Char
  | '\r' :: '\n' :: rest => skipGap rest
  | c :: rest => if isBlank c || c == '\n' then skipGap rest else c :: rest
  | [] => []

/-! ## §2 Escapes -/

/-- The letters that stand for a character after a backslash. -/
def escapes : List (Char × Char) :=
  [('b', '\x08'), ('t', '\t'), ('n', '\n'), ('f', '\x0c'), ('r', '\r'), ('"', '"'), ('\\', '\\')]

/-- The character with a code point written in `width` hexadecimal digits. -/
def codePoint? (width : Nat) (cs : List Char) : Option (Char × List Char) :=
  if cs.length < width then none
  else match Text.hexNumber? (cs.take width) with
    | some n => if n.isValidChar then some (Char.ofNat n, cs.drop width) else none
    | none => none

/-- The character that an escape stands for, from after its backslash. -/
def escape? : List Char → Option (Char × List Char)
  | [] => none
  | 'u' :: rest => codePoint? 4 rest
  | 'U' :: rest => codePoint? 8 rest
  | c :: rest => (escapes.lookup c).map fun e => (e, rest)

/-! ## §3 Reading -/

/-- The end of a string: the quotes that still belong to it and what follows. Up to two quotes in
    front of a delimiter of three are part of the string. -/
def closing? (s : Style) : List Char → Option (List Char × List Char)
  | a :: rest =>
    if a ≠ s.quote then none
    else if !s.many then some ([], rest)
    else
      let run := (rest.takeWhile (· == s.quote)).length
      if run < 2 then none
      else
        let inside := min 2 (run - 2)
        some (List.replicate inside s.quote, rest.drop (inside + 2))
  | [] => none

/-- One unit of a string: what it adds and what follows. A backslash at the end of a line adds
    nothing and swallows all blanks and line ends after it. -/
def unit? (s : Style) : List Char → Option (List Char × List Char)
  | [] => none
  | c :: rest =>
    if s.basic && c == '\\' then
      match escape? rest with
      | some (e, after) => some ([e], after)
      | none =>
        if s.many && (lineEnd? (skipBlanks rest)).isSome then some ([], skipGap rest) else none
    else if isPlain c then
      if c == s.quote && !s.many then none else some ([c], rest)
    else if s.many then (lineEnd? (c :: rest)).map fun after => (['\n'], after)
    else none

/-- Skipping leaves no more than there was. -/
theorem length_skipGap_le (cs : List Char) : (skipGap cs).length ≤ cs.length := by
  fun_induction skipGap cs with
  | case1 rest ih => simp only [List.length_cons]; omega
  | case2 c rest _ _ ih => simp only [List.length_cons]; omega
  | case3 => exact Nat.le_refl _
  | case4 => exact Nat.le_refl _

/-- What follows a line end is shorter than what starts with it. -/
theorem length_of_lineEnd? {cs rest : List Char} (h : lineEnd? cs = some rest) :
    rest.length < cs.length := by
  unfold lineEnd? at h
  split at h
  · cases h; simp
  · cases h; simp only [List.length_cons]; omega
  · cases h

/-- What follows a code point is no longer than what starts with it. -/
theorem length_of_codePoint? {width : Nat} {cs rest : List Char} {c : Char}
    (h : codePoint? width cs = some (c, rest)) : rest.length ≤ cs.length := by
  unfold codePoint? at h
  split at h
  · cases h
  · split at h
    · split at h
      · cases h; simp
      · cases h
    · cases h

/-- What follows an escape is shorter than what starts with it. -/
theorem length_of_escape? {cs rest : List Char} {c : Char} (h : escape? cs = some (c, rest)) :
    rest.length < cs.length := by
  unfold escape? at h
  split at h
  · cases h
  · have := length_of_codePoint? h; simp only [List.length_cons]; omega
  · have := length_of_codePoint? h; simp only [List.length_cons]; omega
  · rename_i d rest' _ _
    cases he : escapes.lookup d with
    | none => rw [he] at h; cases h
    | some e => rw [he] at h; cases h; simp

/-- What follows a unit is shorter than what starts with it. -/
theorem length_of_unit? {s : Style} {cs part rest : List Char}
    (h : unit? s cs = some (part, rest)) : rest.length < cs.length := by
  unfold unit? at h
  split at h
  · cases h
  · rename_i c tail
    split at h
    · split at h
      · rename_i e after he
        cases h
        have := length_of_escape? he
        simp only [List.length_cons]; omega
      · split at h
        · cases h
          have := length_skipGap_le tail
          simp only [List.length_cons]; omega
        · cases h
    · split at h
      · split at h
        · cases h
        · cases h; simp
      · split at h
        · cases he : lineEnd? (c :: tail) with
          | none => rw [he] at h; cases h
          | some after => rw [he] at h; cases h; exact length_of_lineEnd? he
        · cases h

/-- The rest of a string, from after its opening delimiter. -/
def body? (s : Style) (cs : List Char) : Option (List Char × List Char) :=
  match closing? s cs with
  | some found => some found
  | none =>
    match h : unit? s cs with
    | some (part, rest) =>
      have : rest.length < cs.length := length_of_unit? h
      (body? s rest).map fun (more, after) => (part ++ more, after)
    | none => none
termination_by cs.length

/-- A string over several lines, from after its opening delimiter. -/
def manyBody? (s : Style) (cs : List Char) : Option (List Char × List Char) :=
  body? s ((lineEnd? cs).getD cs)

/-- A string in any style. -/
def string? : List Char → Option (String × List Char)
  | '"' :: '"' :: '"' :: rest => asText (manyBody? ⟨true, true⟩ rest)
  | '"' :: rest => asText (body? ⟨true, false⟩ rest)
  | '\'' :: '\'' :: '\'' :: rest => asText (manyBody? ⟨false, true⟩ rest)
  | '\'' :: rest => asText (body? ⟨false, false⟩ rest)
  | _ => none
where
  asText (found : Option (List Char × List Char)) : Option (String × List Char) :=
    found.map fun (cs, rest) => (String.ofList cs, rest)

/-! ## §4 Writing -/

/-- The escape for a character in a basic string. A quote is written as it is up to two in a row if
    three end the string; `quotes` counts those before it. -/
def escaped (s : Style) (quotes : Nat) (c : Char) : List Char :=
  if c = '"' then
    if quotes < (if s.many then 2 else 0) then [c] else ['\\', '"']
  else if c = '\n' ∧ s.many then [c]
  else if c = '\x08' then ['\\', 'b']
  else if c = '\t' then ['\\', 't']
  else if c = '\n' then ['\\', 'n']
  else if c = '\x0c' then ['\\', 'f']
  else if c = '\r' then ['\\', 'r']
  else if c = '\\' then ['\\', '\\']
  else if c.toNat < 0x20 ∨ c.toNat = 0x7F then '\\' :: 'u' :: Text.hexDigits 4 c.toNat
  else [c]

/-- The characters of a basic string; `quotes` counts the quotes written just before. -/
def escapeFrom (s : Style) : Nat → List Char → List Char
  | _, [] => []
  | quotes, c :: rest =>
    let written := escaped s quotes c
    written ++ escapeFrom s (if written = ['"'] then quotes + 1 else 0) rest

namespace Style

/-- A text between the delimiters of a style. Over several lines, a text with line feeds starts on a
    line of its own. -/
def write (s : Style) (cs : List Char) : List Char :=
  let start := if s.many && cs.contains '\n' then ['\n'] else []
  let inside := if s.basic then escapeFrom s 0 cs else cs
  s.delimiter ++ start ++ inside ++ s.delimiter

/-- The length of the longest run of a character. -/
def longestRun (c : Char) (cs : List Char) : Nat :=
  (cs.foldl (fun (longest, run) d =>
    if d = c then (max longest (run + 1), run + 1) else (longest, 0)) (0, 0)).1

/-- Whether a character can only be written as an escape: a control character other than the tab and
    the line feed. -/
def needsCode (c : Char) : Bool :=
  (c.toNat < 0x20 && c != '\t' && c != '\n') || c.toNat == 0x7F

/-- The style that a text is written in: the first that shows it best of a basic string, a literal
    string, and both of them over several lines. If none does, a basic string with escapes. -/
def ofText (cs : List Char) : Style :=
  let codes := cs.any needsCode
  let backslash := cs.contains '\\'
  let lines := cs.contains '\n'
  let doubles := longestRun '"' cs
  let singles := longestRun '\'' cs
  if !codes && !backslash && doubles = 0 && !lines then ⟨true, false⟩
  else if !codes && singles = 0 && !lines then ⟨false, false⟩
  else if !codes && !backslash && doubles ≤ 2 then ⟨true, true⟩
  else if !codes && singles ≤ 2 then ⟨false, true⟩
  else ⟨true, lines⟩

/-- The style that a quoted key is written in: a key never runs over several lines. -/
def ofKey (cs : List Char) : Style :=
  let codes := cs.any needsCode || cs.contains '\n'
  if !codes && !cs.contains '\\' && !cs.contains '"' then ⟨true, false⟩
  else if !codes && !cs.contains '\'' then ⟨false, false⟩
  else ⟨true, false⟩

end Style

/-- A text as a string value. -/
def quotedText (text : String) : String :=
  String.ofList ((Style.ofText text.toList).write text.toList)

end AssetServer.Toml
