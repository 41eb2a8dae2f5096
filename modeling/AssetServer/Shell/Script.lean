import AssetServer.Text.Blank

/-!
# Shell scripts

The command language that tools are scripted in: simple commands with quoting and variables,
redirections, pipes, lists, loops and conditions.

- `Shell.Script` is the tree of a script; pipes and lists have two sides each.
- `Shell.parse?` reads a script. Each function of the reader takes a bound for its depth.
-/

namespace AssetServer.Shell

/-! ## §1 Trees -/

/-- A part of a word. -/
inductive Part where
  /-- Text as it stands. -/
  | text (text : String) (quoted : Bool)
  /-- The value of a variable or parameter. -/
  | value (name : String) (quoted : Bool)
  /-- What a script writes, by the text of the script. -/
  | outputOf (script : String) (quoted : Bool)
  /-- The value of an expression. -/
  | number (expression : String) (quoted : Bool)
  deriving DecidableEq, Repr

/-- A word is a list of parts that stand together. -/
abbrev Word := List Part

/-- Where a redirection points a stream. -/
inductive Redirection where
  /-- Input from a file. -/
  | input (file : Word)
  /-- A stream, by its number, to a file that is emptied first or added to. -/
  | output (stream : Nat) (adding : Bool) (file : Word)
  /-- A stream to where another one goes. -/
  | duplicate (stream target : Nat)
  deriving DecidableEq, Repr

/-- A script. -/
inductive Script where
  | nothing
  /-- Assignments, then a command with its arguments. -/
  | simple (assignments : List (String × Word)) (words : List Word)
  | redirected (body : Script) (redirections : List Redirection)
  | sequence (first second : Script)
  /-- The second part runs if the first one succeeds. -/
  | ifSuccess (first second : Script)
  /-- The second part runs if the first one fails. -/
  | ifFailure (first second : Script)
  | negated (body : Script)
  | pipe (first second : Script)
  /-- The body runs with variables of its own. -/
  | subshell (body : Script)
  /-- The body runs once for each word; without words, once for each parameter. -/
  | forEach (name : String) (words : Option (List Word)) (body : Script)
  | condition (test body otherwise : Script)
  /-- The body runs if the subject fits one of the patterns. -/
  | choice (subject : Word) (patterns : List Word) (body otherwise : Script)
  /-- The body runs while the test gives `expected`. -/
  | loop (expected : Bool) (test body : Script)
  deriving Repr, Inhabited

/-! ## §2 Words -/

/-- Whether a character ends a word when it is not quoted. -/
def endsWord (c : Char) : Bool :=
  c == ' ' || c == '\t' || c == '\n' || c == ';' || c == '&' || c == '|' || c == '<' || c == '>' ||
  c == '(' || c == ')'

/-- Whether a character may stand in a variable's name. -/
def inName (c : Char) : Bool :=
  c.isAlphanum || c == '_'

/-- Whether a text is the name of a variable. -/
def isName (cs : List Char) : Bool :=
  cs.all inName && cs.head?.any (fun c => !c.isDigit)

/-- The text up to the bracket that closes a command substitution, and what follows. -/
def closing? (depth : Nat) (done : List Char) : List Char → Option (List Char × List Char)
  | [] => none
  | c :: rest =>
    if c = '(' then closing? (depth + 1) (c :: done) rest
    else if c = ')' then
      match depth with
      | 0 => some (done.reverse, rest)
      | depth + 1 => closing? depth (c :: done) rest
    else closing? depth (c :: done) rest

/-- What a dollar sign stands for, from after it, and what follows. -/
def dollar (quoted : Bool) (cs : List Char) : Part × List Char :=
  match cs with
  | '\x7b' :: rest =>
    let name := rest.takeWhile (· != '\x7d')
    (.value (String.ofList name) quoted, rest.drop (name.length + 1))
  | '(' :: rest =>
    match closing? 0 [] rest with
    | some (script, after) =>
      if script.head? = some '(' ∧ script.getLast? = some ')' then
        (.number (String.ofList (script.drop 1).dropLast) quoted, after)
      else (.outputOf (String.ofList script) quoted, after)
    | none => (.text "$" quoted, cs)
  | c :: rest =>
    if c = '@' ∨ c = '*' ∨ c = '#' ∨ c = '?' ∨ c = '$' ∨ c.isDigit then
      (.value c.toString quoted, rest)
    else
      let name := cs.takeWhile inName
      if name.isEmpty then (.text "$" quoted, cs)
      else (.value (String.ofList name) quoted, cs.drop name.length)
  | [] => (.text "$" quoted, [])

/-- The script between back quotes, from after the first one, and what follows. -/
def backQuoted? (quoted : Bool) (cs : List Char) : Option (Part × List Char) :=
  let script := cs.takeWhile (· != '`')
  if script.length < cs.length then
    some (.outputOf (String.ofList script) quoted, cs.drop (script.length + 1))
  else none

/-- The parts of a word, put behind `done`, which is in reverse; `double` tells whether a double
    quote is open. None if a quote stays open. -/
def wordOnto : Nat → Bool → List Part → List Char → Option (Word × List Char)
  | 0, _, _, _ => none
  | _ + 1, double, done, [] => if double then none else some (done.reverse, [])
  | fuel + 1, double, done, c :: rest =>
    if double then
      if c = '"' then wordOnto fuel false done rest
      else if c = '\\' then
        match rest with
        | d :: more =>
          if d = '\n' then wordOnto fuel true done more
          else if d = '$' ∨ d = '`' ∨ d = '"' ∨ d = '\\' then
            wordOnto fuel true (.text d.toString true :: done) more
          else wordOnto fuel true (.text (String.ofList [c, d]) true :: done) more
        | [] => none
      else if c = '$' then
        let (part, after) := dollar true rest
        wordOnto fuel true (part :: done) after
      else if c = '`' then
        match backQuoted? true rest with
        | some (part, after) => wordOnto fuel true (part :: done) after
        | none => none
      else wordOnto fuel true (.text c.toString true :: done) rest
    else if endsWord c then some (done.reverse, c :: rest)
    else if c = '"' then wordOnto fuel true (.text "" true :: done) rest
    else if c = '\'' then
      let body := rest.takeWhile (· != '\'')
      if body.length < rest.length then
        wordOnto fuel false (.text (String.ofList body) true :: done) (rest.drop (body.length + 1))
      else none
    else if c = '\\' then
      match rest with
      | d :: more =>
        if d = '\n' then wordOnto fuel false done more
        else wordOnto fuel false (.text d.toString true :: done) more
      | [] => some ((.text "\\" true :: done).reverse, [])
    else if c = '$' then
      let (part, after) := dollar false rest
      wordOnto fuel false (part :: done) after
    else if c = '`' then
      match backQuoted? false rest with
      | some (part, after) => wordOnto fuel false (part :: done) after
      | none => none
    else wordOnto fuel false (.text c.toString false :: done) rest

/-- The word at the front, and what follows. -/
def word? (cs : List Char) : Option (Word × List Char) :=
  wordOnto (cs.length + 1) false [] cs

/-- The text of a word that is free of quotes and values. -/
def plain? (w : Word) : Option String :=
  w.foldr (fun part text => match part, text with
    | .text t false, some text => some (t ++ text)
    | _, _ => none) (some "")

/-- Splits a word into the name and value of an assignment. -/
def assignment? (w : Word) : Option (String × Word) :=
  let bare := w.takeWhile fun
    | .text _ false => true
    | _ => false
  let cs := (plain? bare).getD "" |>.toList
  let name := cs.takeWhile (· != '=')
  if isName name ∧ name.length < cs.length then
    some (String.ofList name,
      .text (String.ofList (cs.drop (name.length + 1))) true :: w.drop bare.length)
  else none

/-! ## §3 Space between words -/

/-- Skips blanks, joined lines and comments. -/
def skipBlanks : List Char → List Char
  | '\\' :: '\n' :: rest => skipBlanks rest
  | c :: rest =>
    if c = ' ' ∨ c = '\t' then skipBlanks rest
    else if c = '#' then (c :: rest).dropWhile (· != '\n')
    else c :: rest
  | [] => []

/-- Skips blanks and ends of lines. -/
def skipLines (cs : List Char) : List Char :=
  go (cs.length + 1) cs
where
  /-- Skips up to `fuel` line ends. -/
  go : Nat → List Char → List Char
    | 0, cs => cs
    | fuel + 1, cs =>
      match skipBlanks cs with
      | '\n' :: rest => go fuel rest
      | cs => cs

/-- Skips blanks and everything that separates commands. -/
def skipSeparators (cs : List Char) : List Char :=
  go (cs.length + 1) cs
where
  /-- Skips up to `fuel` separators. -/
  go : Nat → List Char → List Char
    | 0, cs => cs
    | fuel + 1, cs =>
      match skipBlanks cs with
      | '\n' :: rest => go fuel rest
      | ';' :: ';' :: rest => ';' :: ';' :: rest
      | ';' :: rest => go fuel rest
      | cs => cs

/-- The reserved word at the front, skipped. -/
def reserved? (name : String) (cs : List Char) : Option (List Char) :=
  let cs := skipBlanks cs
  let rest := cs.drop name.length
  if name.toList.isPrefixOf cs ∧ (rest.isEmpty ∨ rest.head?.any endsWord) then some rest else none

/-- Words that end a list of commands. -/
def closers : List String :=
  ["done", "do", "then", "else", "elif", "fi", "\x7d", "esac"]

/-- Whether a list of commands ends here. -/
def atEnd (cs : List Char) : Bool :=
  let cs := skipBlanks cs
  cs.isEmpty || cs.head? == some ')' || cs.take 2 == [';', ';'] ||
    closers.any (fun w => (reserved? w cs).isSome)

/-! ## §4 Commands -/

/-- The redirection at the front, if there is one, and what follows. -/
def redirection? (cs : List Char) : Option (Option Redirection × List Char) :=
  let number := cs.takeWhile Char.isDigit
  let stream := if number.isEmpty then 1 else (String.ofList number).toNat?.getD 1
  match cs.drop number.length with
  | '>' :: '&' :: rest =>
    let target := rest.takeWhile Char.isDigit
    some (some (.duplicate stream ((String.ofList target).toNat?.getD 2)), rest.drop target.length)
  | '>' :: '>' :: rest =>
    (word? (skipBlanks rest)).map fun (w, rest) => (some (.output stream true w), rest)
  | '>' :: '|' :: rest =>
    (word? (skipBlanks rest)).map fun (w, rest) => (some (.output stream false w), rest)
  | '>' :: rest =>
    (word? (skipBlanks rest)).map fun (w, rest) => (some (.output stream false w), rest)
  | '<' :: rest =>
    (word? (skipBlanks rest)).map fun (w, rest) => (some (.input w), rest)
  | _ => some (none, cs)

/-- Redirections at the front, and what follows. -/
def redirections? : Nat → List Char → Option (List Redirection × List Char)
  | 0, _ => none
  | fuel + 1, cs => do
    match ← redirection? (skipBlanks cs) with
    | (none, _) => some ([], cs)
    | (some r, rest) =>
      let (more, rest) ← redirections? fuel rest
      some (r :: more, rest)

/-- A body with redirections, if there are any. -/
def redirect (body : Script) (redirections : List Redirection) : Script :=
  if redirections.isEmpty then body else .redirected body redirections

/-- The words and redirections of a simple command. -/
def simpleRest : Nat → List Char → Option (List Word × List Redirection × List Char)
  | 0, _ => none
  | fuel + 1, cs => do
    let cs := skipBlanks cs
    match ← redirection? cs with
    | (some r, rest) =>
      let (words, more, rest) ← simpleRest fuel rest
      some (words, r :: more, rest)
    | (none, _) =>
      match ← word? cs with
      | ([], rest) => some ([], [], rest)
      | (w, rest) =>
        let (words, more, rest) ← simpleRest fuel rest
        some (w :: words, more, rest)

/-- A simple command from its words. -/
def simple (words : List Word) : Script :=
  let assignments := words.takeWhile fun w => (assignment? w).isSome
  .simple (assignments.filterMap assignment?) (words.drop assignments.length)

/-- Plain words up to the end of a command. -/
def wordsRest : Nat → List Char → Option (List Word × List Char)
  | 0, _ => none
  | fuel + 1, cs => do
    match ← word? (skipBlanks cs) with
    | ([], rest) => some ([], rest)
    | (w, rest) =>
      let (words, rest) ← wordsRest fuel rest
      some (w :: words, rest)

/-- The patterns of a branch, up to the bracket after them. -/
def patterns? : Nat → List Char → Option (List Word × List Char)
  | 0, _ => none
  | fuel + 1, cs => do
    let (w, rest) ← word? (skipBlanks cs)
    match skipBlanks rest with
    | '|' :: rest =>
      let (more, rest) ← patterns? fuel rest
      some (w :: more, rest)
    | ')' :: rest => some ([w], rest)
    | _ => none

mutual

/-- A list of commands, up to a word that closes it. -/
def list? : Nat → List Char → Option (Script × List Char)
  | 0, _ => none
  | fuel + 1, cs => do
    let cs := skipSeparators cs
    if atEnd cs then some (.nothing, cs)
    else
      let (first, rest) ← chain? fuel cs
      match skipBlanks rest with
      | ';' :: ';' :: more => some (first, ';' :: ';' :: more)
      | ';' :: more => let (second, rest) ← list? fuel more; some (.sequence first second, rest)
      | '\n' :: more => let (second, rest) ← list? fuel more; some (.sequence first second, rest)
      | rest => if atEnd rest then some (first, rest) else none

/-- Pipelines joined by `&&` and `||`. -/
def chain? : Nat → List Char → Option (Script × List Char)
  | 0, _ => none
  | fuel + 1, cs => do
    let (first, rest) ← pipeline? fuel cs
    chainRest? fuel first rest

/-- The rest of a chain after its first part. -/
def chainRest? : Nat → Script → List Char → Option (Script × List Char)
  | 0, _, _ => none
  | fuel + 1, first, cs =>
    match skipBlanks cs with
    | '&' :: '&' :: rest => do
      let (second, rest) ← pipeline? fuel (skipLines rest)
      chainRest? fuel (.ifSuccess first second) rest
    | '|' :: '|' :: rest => do
      let (second, rest) ← pipeline? fuel (skipLines rest)
      chainRest? fuel (.ifFailure first second) rest
    | cs => some (first, cs)

/-- Commands joined by pipes, with an optional negation in front. -/
def pipeline? : Nat → List Char → Option (Script × List Char)
  | 0, _ => none
  | fuel + 1, cs =>
    match reserved? "!" cs with
    | some rest => do
      let (body, rest) ← pipes? fuel rest
      some (.negated body, rest)
    | none => pipes? fuel cs

/-- Commands joined by pipes. -/
def pipes? : Nat → List Char → Option (Script × List Char)
  | 0, _ => none
  | fuel + 1, cs => do
    let (first, rest) ← command? fuel cs
    match skipBlanks rest with
    | '|' :: '|' :: more => some (first, '|' :: '|' :: more)
    | '|' :: more =>
      let (second, rest) ← pipes? fuel (skipLines more)
      some (.pipe first second, rest)
    | rest => some (first, rest)

/-- One command, simple or compound, with its redirections. -/
def command? : Nat → List Char → Option (Script × List Char)
  | 0, _ => none
  | fuel + 1, cs => do
    let cs := skipBlanks cs
    let finish (body : Script) (rest : List Char) : Option (Script × List Char) := do
      let (redirections, rest) ← redirections? (rest.length + 1) rest
      some (redirect body redirections, rest)
    if let some rest := reserved? "\x7b" cs then
      let (body, rest) ← list? fuel rest
      finish body (← reserved? "\x7d" rest)
    else if let some rest := reserved? "for" cs then
      let (name, rest) ← word? (skipBlanks rest)
      let name ← plain? name
      match reserved? "in" (skipLines rest) with
      | some rest =>
        let (words, rest) ← wordsRest (rest.length + 1) rest
        let (body, rest) ← list? fuel (← reserved? "do" (skipSeparators rest))
        finish (.forEach name (some words) body) (← reserved? "done" rest)
      | none =>
        let (body, rest) ← list? fuel (← reserved? "do" (skipSeparators rest))
        finish (.forEach name none body) (← reserved? "done" rest)
    else if let some rest := reserved? "while" cs then
      let (test, rest) ← list? fuel rest
      let (body, rest) ← list? fuel (← reserved? "do" rest)
      finish (.loop true test body) (← reserved? "done" rest)
    else if let some rest := reserved? "until" cs then
      let (test, rest) ← list? fuel rest
      let (body, rest) ← list? fuel (← reserved? "do" rest)
      finish (.loop false test body) (← reserved? "done" rest)
    else if let some rest := reserved? "if" cs then
      let (body, rest) ← condition? fuel rest
      finish body rest
    else if let some rest := reserved? "case" cs then
      let (subject, rest) ← word? (skipBlanks rest)
      let (body, rest) ← choices? fuel subject (← reserved? "in" (skipLines rest))
      finish body rest
    else if let '(' :: rest := cs then
      let (body, rest) ← list? fuel rest
      match skipBlanks rest with
      | ')' :: rest => finish (.subshell body) rest
      | _ => none
    else
      let (words, redirections, rest) ← simpleRest (cs.length + 1) cs
      if words.isEmpty ∧ redirections.isEmpty then none
      else some (redirect (simple words) redirections, rest)

/-- The rest of a condition after the word that opens it. -/
def condition? : Nat → List Char → Option (Script × List Char)
  | 0, _ => none
  | fuel + 1, cs => do
    let (test, rest) ← list? fuel cs
    let (body, rest) ← list? fuel (← reserved? "then" rest)
    if let some rest := reserved? "elif" rest then
      let (other, rest) ← condition? fuel rest
      some (.condition test body other, rest)
    else if let some rest := reserved? "else" rest then
      let (other, rest) ← list? fuel rest
      some (.condition test body other, ← reserved? "fi" rest)
    else some (.condition test body .nothing, ← reserved? "fi" rest)

/-- The branches of a choice, each with its patterns. -/
def choices? : Nat → Word → List Char → Option (Script × List Char)
  | 0, _, _ => none
  | fuel + 1, subject, cs => do
    let cs := skipLines cs
    if let some rest := reserved? "esac" cs then some (.nothing, rest)
    else
      let cs := if cs.head? = some '(' then cs.drop 1 else cs
      let (patterns, rest) ← patterns? (cs.length + 1) cs
      let (body, rest) ← list? fuel rest
      let rest := skipLines rest
      let (otherwise, rest) ← choices? fuel subject
        (if rest.take 2 = [';', ';'] then rest.drop 2 else rest)
      some (.choice subject patterns body otherwise, rest)

end

/-- Reads a script. -/
def parse? (text : String) : Option Script := do
  let cs := text.toList
  let (script, rest) ← list? (8 * cs.length + 16) cs
  if (skipSeparators rest).isEmpty then some script else none

end AssetServer.Shell
