import AssetServer.OsError
import AssetServer.Path
import AssetServer.Text.Blank
import AssetServer.Text.Utf8

/-!
# Directives

A source may start with a block of `//` comment lines and blank lines. A line `//@include("a", "b")`
in that block names files whose bytes are appended to the compiled source, in order.

- `Directive.parse` reads one expression: a name, then string literals between parentheses. A
  literal stands between double quotes, with backslash escapes, or between backquotes, without any.
- `Directive.scan` reads the directives of a source. It ends at the first line that is neither blank
  nor a comment, so what follows never matters.
-/

namespace AssetServer

/-- What a directive asks for. -/
inductive Directive where
  /-- Append the named files, relative to the directory of the source. -/
  | append (files : List String)
  deriving DecidableEq, Repr

namespace Directive

/-! ## §1 Faults -/

/-- What is wrong with a directive expression. -/
inductive Fault where
  | notCall (text : String)
  | expectedLiteral (rest : String)
  | trailingComma
  | unexpectedAfter (c : Char)
  | unknownEscape (c : Char)
  | openString
  | openRawString
  | noFiles
  | undefined (name : String)
  deriving DecidableEq, Repr

/-- How messages word a fault. -/
def Fault.message : Fault → String
  | .notCall text => "expected call expression: " ++ text
  | .expectedLiteral rest => "expected string literal: " ++ rest
  | .trailingComma => "trailing comma in argument list"
  | .unexpectedAfter c => "unexpected '" ++ c.toString ++ "' after argument"
  | .unknownEscape c => "unknown escape \\" ++ c.toString
  | .openString => "unterminated string literal"
  | .openRawString => "unterminated raw string literal"
  | .noFiles => "include needs at least one file"
  | .undefined name => "undefined directive: " ++ name

/-- Why the directives of a source could not be followed. -/
inductive Problem where
  | malformed (fault : Fault)
  | cannotInclude (file : Path) (cause : OsError)
  /-- A problem known by its wording alone. -/
  | worded (message : String)
  deriving DecidableEq, Repr

/-- How messages word a problem. -/
def Problem.message : Problem → String
  | .malformed fault => fault.message
  | .cannotInclude file cause => "cannot include " ++ file.text ++ ": " ++ cause.message
  | .worded message => message

/-! ## §2 Literals -/

/-- The character that an escape letter stands for. -/
def escape? (c : Char) : Option Char :=
  if c = 'n' then some '\n'
  else if c = 't' then some '\t'
  else if c = 'r' then some '\r'
  else if c = '\\' ∨ c = '"' ∨ c = '\'' then some c
  else none

/-- The value of a quoted literal from after its opening quote, and what follows it. -/
def quotedRest : List Char → Except Fault (List Char × List Char)
  | [] => .error .openString
  | '"' :: rest => .ok ([], rest)
  | ['\\'] => .error .openString
  | '\\' :: c :: rest =>
    match escape? c with
    | none => .error (.unknownEscape c)
    | some d =>
      match quotedRest rest with
      | .ok (value, after) => .ok (d :: value, after)
      | .error e => .error e
  | c :: rest =>
    match quotedRest rest with
    | .ok (value, after) => .ok (c :: value, after)
    | .error e => .error e

/-- The value of a raw literal from after its opening quote, and what follows it. -/
def rawRest : List Char → Except Fault (List Char × List Char)
  | [] => .error .openRawString
  | c :: rest =>
    if c = '`' then .ok ([], rest)
    else match rawRest rest with
      | .ok (value, after) => .ok (c :: value, after)
      | .error e => .error e

/-- The literal at the front, and what follows it. -/
def literal (cs : List Char) : Except Fault (List Char × List Char) :=
  match cs with
  | '"' :: rest => quotedRest rest
  | '`' :: rest => rawRest rest
  | _ => .error (.expectedLiteral (String.ofList (Text.trim cs)))

theorem quotedRest_length {cs value after : List Char} (h : quotedRest cs = .ok (value, after)) :
    after.length < cs.length := by
  fun_induction quotedRest cs generalizing value after <;> grind

theorem rawRest_length {cs value after : List Char} (h : rawRest cs = .ok (value, after)) :
    after.length < cs.length := by
  fun_induction rawRest cs generalizing value after <;> grind

/-- A literal takes at least one character. -/
theorem literal_length {cs value after : List Char} (h : literal cs = .ok (value, after)) :
    after.length < cs.length := by
  unfold literal at h
  split at h
  · exact Nat.lt_succ_of_lt (quotedRest_length h)
  · exact Nat.lt_succ_of_lt (rawRest_length h)
  · cases h

/-! ## §3 Expressions -/

/-- Characters without the white space in front. -/
def skipBlank (cs : List Char) : List Char :=
  cs.dropWhile Text.isBlank

theorem skipBlank_length (cs : List Char) : (skipBlank cs).length ≤ cs.length := by
  simpa [skipBlank] using (List.dropWhile_suffix Text.isBlank (l := cs)).length_le

/-- Literals with a comma between each two, white space around each. -/
def arguments (cs : List Char) : Except Fault (List String) :=
  match _hcs : skipBlank cs with
  | [] => .ok []
  | c :: more =>
    match _h : literal (c :: more) with
    | .error e => .error e
    | .ok (value, after) =>
      match _hs : skipBlank after with
      | [] => .ok [String.ofList value]
      | d :: rest =>
        if d ≠ ',' then .error (.unexpectedAfter d)
        else if skipBlank rest = [] then .error .trailingComma
        else match arguments rest with
          | .ok values => .ok (String.ofList value :: values)
          | .error e => .error e
termination_by (skipBlank cs).length
decreasing_by
  have h₁ := literal_length _h
  have h₂ := skipBlank_length after
  have h₃ := skipBlank_length rest
  simp only [_hs, List.length_cons] at h₂
  simp only [_hcs]
  omega

/-- Whether a character may start a name. -/
def startsName (c : Char) : Bool :=
  c.isAlpha || c == '_'

/-- Whether a character may stand in a name. -/
def inName (c : Char) : Bool :=
  startsName c || c.isDigit

/-- The name and the text between the parentheses of a call that fills all of `cs`. -/
def call? (cs : List Char) : Option (List Char × List Char) :=
  let name := cs.takeWhile inName
  match name.head?, skipBlank (cs.drop name.length) with
  | some c, '(' :: inner =>
    if startsName c ∧ inner.getLast? = some ')' ∧ '\n' ∉ inner then some (name, inner.dropLast)
    else none
  | _, _ => none

/-- Reads an expression, white space around it aside. Arguments are read before the name counts. -/
def parse (text : List Char) : Except Fault Directive :=
  let text := Text.trim text
  match call? text with
  | none => .error (.notCall (String.ofList text))
  | some (name, inner) =>
    match arguments inner with
    | .error e => .error e
    | .ok files =>
      if name = ['i', 'n', 'c', 'l', 'u', 'd', 'e'] then
        if files = [] then .error .noFiles else .ok (.append files)
      else .error (.undefined (String.ofList name))

/-! ## §4 Sources -/

/-- What a line of a source is. -/
inductive Line where
  /-- Blank, or a comment without a directive. -/
  | plain
  /-- A comment with a directive expression. -/
  | directive (expression : List Char)
  /-- The first line of the source proper. -/
  | code
  deriving DecidableEq, Repr

/-- Reads one line: bytes that are not UTF-8 count as one character each, white space at both ends
    does not count. -/
def Line.ofBytes (bytes : Bytes) : Line :=
  match Text.trim (Utf8.decodeLossy bytes).toList with
  | [] => .plain
  | '/' :: '/' :: '@' :: expression => .directive expression
  | '/' :: '/' :: _ => .plain
  | _ => .code

/-- The first line and what follows its line feed. -/
def firstLine (bytes : Bytes) : Bytes × Bytes :=
  (bytes.takeWhile (· != 0x0A), (bytes.dropWhile (· != 0x0A)).drop 1)

/-- The directives at the front of a source, put behind `found`, which is in reverse. -/
def scanOnto (found : List Directive) (bytes : Bytes) : Except Fault (List Directive) :=
  if _hne : bytes = [] then .ok found.reverse
  else match Line.ofBytes (firstLine bytes).1 with
    | .code => .ok found.reverse
    | .plain => scanOnto found (firstLine bytes).2
    | .directive expression =>
      match parse expression with
      | .error e => .error e
      | .ok directive => scanOnto (directive :: found) (firstLine bytes).2
termination_by bytes.length
decreasing_by
  all_goals
    have := List.length_pos_iff.2 _hne
    simp only [firstLine, List.length_drop]
    have := (List.dropWhile_suffix (fun b : UInt8 => b != 0x0A) (l := bytes)).length_le
    omega

/-- The directives of a source, in order. -/
def scan (bytes : Bytes) : Except Fault (List Directive) :=
  scanOnto [] bytes

/-- The files that directives name, in order. -/
def files (directives : List Directive) : List String :=
  directives.flatMap fun
    | .append names => names

end Directive

end AssetServer
