import AssetServer.Toml.DateTime
import AssetServer.Toml.Number
import AssetServer.Toml.Text
import AssetServer.Toml.Value

/-!
# Statements of TOML texts

A TOML text is a row of statements, each on a line of its own: an entry, or the header of a table or
of one more table in a list. Only values in brackets and strings in three quotes go on over several
lines.

- `key?` reads a key of one or more parts, `value?` a value.
- `statements?` reads a whole text.

Inline tables are put together as they are read, by the function `entries` that is given.
-/

namespace AssetServer.Toml

/-- One statement. -/
inductive Statement where
  | entry (key : List String) (value : Value)
  | table (key : List String)
  /-- One more table in a list of tables. -/
  | tables (key : List String)
  deriving Repr, Inhabited

/-! ## §1 Keys -/

/-- One part of a key: bare or quoted. -/
def keyPart? (cs : List Char) : Option (String × List Char) :=
  match cs with
  | '"' :: rest => (body? ⟨true, false⟩ rest).map fun (k, after) => (String.ofList k, after)
  | '\'' :: rest => (body? ⟨false, false⟩ rest).map fun (k, after) => (String.ofList k, after)
  | _ =>
    let bare := cs.takeWhile isBare
    if bare = [] then none else some (String.ofList bare, cs.dropWhile isBare)

/-- A key of at most `room` parts with dots between them, and blanks around it and them. -/
def keyParts? : Nat → List Char → Option (List String × List Char)
  | 0, _ => none
  | room + 1, cs => do
    let (part, rest) ← keyPart? (skipBlanks cs)
    match skipBlanks rest with
    | '.' :: more =>
      let (parts, after) ← keyParts? room more
      return (part :: parts, after)
    | after => return ([part], after)

/-- How many parts a key can have, and how deep values can be nested. -/
def maxDepth : Nat := 79

/-- A key. -/
def key? (cs : List Char) : Option (List String × List Char) :=
  keyParts? maxDepth cs

/-! ## §2 Values -/

/-- Skips blanks, line ends and comments. `comment` tells whether a comment is open. -/
def skipFill : Bool → List Char → List Char
  | _, [] => []
  | _, '\n' :: rest => skipFill false rest
  | _, '\r' :: '\n' :: rest => skipFill false rest
  | true, c :: rest => if isPlain c then skipFill true rest else c :: rest
  | false, c :: rest =>
    if c = '#' then skipFill true rest
    else if isBlank c then skipFill false rest
    else c :: rest

/-- A reader of something in front of a text. -/
abbrev Reader (α : Type) := List Char → Option (α × List Char)

/-- The elements of a list, from after its opening bracket or a comma, in at most `fuel` steps. -/
def elements? {α : Type} (element : Reader α) : Nat → Reader (List α)
  | 0, _ => none
  | fuel + 1, cs =>
    match skipFill false cs with
    | ']' :: after => some ([], after)
    | start => do
      let (v, rest) ← element start
      match skipFill false rest with
      | ']' :: after => return ([v], after)
      | ',' :: more =>
        let (vs, after) ← elements? element fuel more
        return (v :: vs, after)
      | _ => none

/-- An entry of a table: a key, an equals sign and a value. -/
def entry? {α : Type} (element : Reader α) : Reader (List String × α) := fun cs => do
  let (key, rest) ← key? cs
  match rest with
  | '=' :: more =>
    let (v, after) ← element (skipBlanks more)
    return ((key, v), after)
  | _ => none

/-- The entries of an inline table, from its first key or after a comma, in at most `fuel` steps. -/
def inlineEntries? {α : Type} (element : Reader α) : Nat → Reader (List (List String × α))
  | 0, _ => none
  | fuel + 1, cs => do
    let (e, rest) ← entry? element cs
    match skipBlanks rest with
    | '\x7d' :: after => return ([e], after)
    | ',' :: more =>
      let (es, after) ← inlineEntries? element fuel more
      return (e :: es, after)
    | _ => none

/-- An inline table, from after its opening brace. -/
def inlineTable? {α : Type} (element : Reader α) : Reader (List (List String × α)) := fun cs =>
  match skipBlanks cs with
  | '\x7d' :: after => some ([], after)
  | start => inlineEntries? element (start.length + 1) start

/-- A value that is neither a list nor a table. -/
def plainValue? (cs : List Char) : Option (Value × List Char) :=
  match cs with
  | 't' :: 'r' :: 'u' :: 'e' :: rest => some (.boolean true, rest)
  | 'f' :: 'a' :: 'l' :: 's' :: 'e' :: rest => some (.boolean false, rest)
  | _ =>
    match string? cs with
    | some (text, rest) => some (.string text, rest)
    | none =>
      match dateTime? cs with
      | some (text, rest) => some (.dateTime text, rest)
      | none =>
        match number? cs with
        | some (.integer n, rest) => some (.integer n, rest)
        | some (.float bits, rest) => some (.float bits, rest)
        | none => none

/-- A value in which lists and tables are nested at most `depth` deep. `assemble` puts an inline
    table together. -/
def value? (assemble : List (List String × Value) → Option Value) : Nat → Reader Value
  | depth, '[' :: rest =>
    match depth with
    | 0 => none
    | depth + 1 =>
      (elements? (value? assemble depth) (rest.length + 1) rest).map fun (vs, after) =>
        (.list vs, after)
  | depth, '\x7b' :: rest =>
    match depth with
    | 0 => none
    | depth + 1 => do
      let (es, after) ← inlineTable? (value? assemble depth) rest
      return (← assemble es, after)
  | _, cs => plainValue? cs

/-! ## §3 Statements -/

/-- What follows a statement: at most blanks and a comment up to the end of the line. -/
def endOfLine? (cs : List Char) : Option (List Char) :=
  let rest := match skipBlanks cs with
    | '#' :: comment => comment.dropWhile isPlain
    | rest => rest
  match rest with
  | [] => some []
  | _ => lineEnd? rest

/-- One statement, and what follows its line. -/
def statement? (assemble : List (List String × Value) → Option Value) (cs : List Char) :
    Option (Statement × List Char) :=
  match cs with
  | '[' :: '[' :: rest => do
    let (key, rest) ← key? rest
    match rest with
    | ']' :: ']' :: rest => return (.tables key, ← endOfLine? rest)
    | _ => none
  | '[' :: rest => do
    let (key, rest) ← key? rest
    match rest with
    | ']' :: rest => return (.table key, ← endOfLine? rest)
    | _ => none
  | _ => do
    let ((key, v), rest) ← entry? (value? assemble maxDepth) cs
    return (.entry key v, ← endOfLine? rest)

/-- The statements of a text, in at most `fuel` lines. -/
def statementsWithin? (assemble : List (List String × Value) → Option Value) :
    Nat → List Char → Option (List Statement)
  | 0, _ => none
  | fuel + 1, cs =>
    match skipBlanks cs with
    | [] => some []
    | c :: rest =>
      if c = '#' ∨ c = '\n' ∨ c = '\r' then do
        statementsWithin? assemble fuel (← endOfLine? (c :: rest))
      else do
        let (s, after) ← statement? assemble (c :: rest)
        let more ← statementsWithin? assemble fuel after
        return s :: more

/-- The statements of a text. -/
def statements? (assemble : List (List String × Value) → Option Value) (cs : List Char) :
    Option (List Statement) :=
  statementsWithin? assemble (cs.length + 1) cs

end AssetServer.Toml
