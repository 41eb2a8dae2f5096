import AssetServer.Shell.Scene

/-!
# Utilities

The small programs that scripts are put together from. Each reads its input or the files it is given
and writes its output; what it would tell its user about errors is left out, and its exit code says
that there was one.
-/

namespace AssetServer.Shell

/-! ## §1 Text and numbers -/

/-- The number that an argument spells. -/
def count? (text : String) : Option Nat :=
  let digits := text.toList.takeWhile Char.isDigit
  let unit := String.ofList (text.toList.drop digits.length)
  let scale := match unit with
    | "" => some 1
    | "k" | "K" | "KiB" => some 1024
    | "M" | "MiB" => some (1024 * 1024)
    | "b" => some 512
    | _ => none
  if digits.isEmpty then none else scale.map (· * ((String.ofList digits).toNat?.getD 0))

/-- The lines of some data, each with its line feed. -/
def lines (data : Bytes) : List Bytes :=
  let (done, partialLine) := data.foldl (fun (state : List Bytes × Bytes) b =>
    if b = 0x0A then (((b :: state.2).reverse) :: state.1, [])
    else (state.1, b :: state.2)) ([], [])
  (if partialLine.isEmpty then done else partialLine.reverse :: done).reverse

/-- The value of an octal number. -/
def octal (digits : List Char) : Nat :=
  digits.foldl (fun n d => n * 8 + (d.toNat - '0'.toNat)) 0

/-- Text with its backslash escapes resolved. -/
def unescape : Nat → List Char → Bytes
  | 0, _ => []
  | _ + 1, [] => []
  | fuel + 1, '\\' :: c :: rest =>
    let one (b : UInt8) : Bytes := b :: unescape fuel rest
    if c = 'n' then one 0x0A
    else if c = 't' then one 0x09
    else if c = 'r' then one 0x0D
    else if c = 'a' then one 0x07
    else if c = 'b' then one 0x08
    else if c = 'f' then one 0x0C
    else if c = 'v' then one 0x0B
    else if c = '\\' then one 0x5C
    else if '0' ≤ c ∧ c ≤ '7' then
      let all := c :: rest
      let digits := (all.take 3).takeWhile (fun d => '0' ≤ d && d ≤ '7')
      UInt8.ofNat (octal digits) :: unescape fuel (all.drop digits.length)
    else 0x5C :: Utf8.encode c.toString ++ unescape fuel rest
  | fuel + 1, c :: rest => Utf8.encode c.toString ++ unescape fuel rest

/-! ## §2 Copying -/

/-- Passes files on, or the input. -/
def cat : Utility := fun args s =>
  let names := args.filter fun a => a != "-u" && a != "--"
  let names := if names.isEmpty then ["-"] else names
  names.foldl (fun (s : Scene) name =>
    if name = "-" then
      if s.broken then s.exit 1 else { s.write s.input with input := [] }
    else match s.bytesAt name with
      | .ok data => s.write data
      | .error _ => s.exit 1) (s.exit 0)

/-- The data a utility works on: its input or the files it is given, and whether all were read. -/
def source (names : List String) (s : Scene) : Bytes × Bool × Scene :=
  if names.isEmpty then (s.input, !s.broken, { s with input := [] })
  else
    let (data, ok) := names.foldl (fun (state : Bytes × Bool) name =>
      match s.bytesAt name with
      | .ok more => (state.1 ++ more, state.2)
      | .error _ => (state.1, false)) ([], true)
    (data, ok, s)

/-- Writes what a function makes of the data. -/
def filterWith (f : Bytes → Bytes) (names : List String) (s : Scene) : Scene :=
  let (data, ok, s) := source names s
  (s.write (f data)).succeed ok

/-- How much of its input a utility asks for at a time. -/
def blockBytes : Nat := 8192

/-- The beginning of the data: some lines or some bytes. -/
def head : Utility := fun args s =>
  let rec options : Nat → List String → Bool × Nat × List String
    | 0, rest => (false, 10, rest)
    | fuel + 1, rest => match rest with
      | "-c" :: n :: rest =>
        let (_, _, names) := options fuel rest
        (true, (count? n).getD 0, names)
      | "-n" :: n :: rest =>
        let (_, _, names) := options fuel rest
        (false, (count? n).getD 10, names)
      | a :: rest =>
        match a.toList with
        | '-' :: 'c' :: n => (true, (count? (String.ofList n)).getD 0, rest)
        | '-' :: 'n' :: n => (false, (count? (String.ofList n)).getD 10, rest)
        | '-' :: n => if n.all Char.isDigit ∧ !n.isEmpty then
            (false, (count? (String.ofList n)).getD 10, rest)
          else (false, 10, a :: rest)
        | _ => (false, 10, a :: rest)
      | [] => (false, 10, [])
  let (bytes, n, names) := options (args.length + 1) args
  let first (data : Bytes) : Bytes :=
    if bytes then data.take n else ((lines data).take n).flatten
  if names = ["/dev/zero"] then (s.write (List.replicate (if bytes then n else 0) 0)).exit 0
  else if names.isEmpty then
    let taken := first s.input
    let used := if bytes then taken.length
      else (taken.length + blockBytes - 1) / blockBytes * blockBytes
    { s.write taken with input := s.input.drop used }.succeed !s.broken
  else filterWith first names s

/-- The end of the data: some lines or some bytes. -/
def tail : Utility := fun args s =>
  let last (n : Nat) (data : Bytes) : Bytes :=
    let all := lines data
    (all.drop (all.length - n)).flatten
  let lastOf (n : String) : Bytes → Bytes :=
    match n.toList with
    | '+' :: first => fun data =>
      ((lines data).drop ((count? (String.ofList first)).getD 1 - 1)).flatten
    | _ => last ((count? n).getD 10)
  match args with
  | "-c" :: n :: names =>
    filterWith (fun data => data.drop (data.length - (count? n).getD 0)) names s
  | "-n" :: n :: names => filterWith (lastOf n) names s
  | first :: names =>
    match first.toList with
    | '-' :: 'c' :: n =>
      filterWith (fun data => data.drop (data.length - (count? (String.ofList n)).getD 0)) names s
    | '-' :: 'n' :: n => filterWith (lastOf (String.ofList n)) names s
    | '-' :: d :: n => filterWith (lastOf (String.ofList (d :: n))) names s
    | _ => filterWith (last 10) args s
  | [] => filterWith (last 10) [] s

/-- Passes the input on and keeps a copy in each file. -/
def tee : Utility := fun args s =>
  let data := s.input
  let s := { s.write data with input := [] }
  args.foldl (fun (s : Scene) name =>
    match s.openOutput? name false with
    | some (some loc, s) => s.append loc data
    | some (none, s) => s
    | none => s.exit 1) (s.succeed !s.broken)

/-- Copies blocks from a file or the input to a file or the output. -/
def dd : Utility := fun args s =>
  let operands := args.map fun a =>
    let key := a.toList.takeWhile (· != '=')
    (String.ofList key, String.ofList (a.toList.drop (key.length + 1)))
  let operand (key : String) : Option String := operands.lookup key
  let block := ((operand "bs").bind count?).getD 512
  let room := ((operand "count").bind count?).map (· * block)
  let pick (data : Bytes) : Bytes := match room with
    | some n => data.take n
    | none => data
  let (data, ok, s) := match operand "if" with
    | some "/dev/zero" => (List.replicate (room.getD 0) 0, true, s)
    | some file => let (data, ok, s) := source [file] s; (pick data, ok, s)
    | none => (pick s.input, !s.broken, { s with input := s.input.drop (pick s.input).length })
  match operand "of" with
  | none => (s.write data).succeed ok
  | some file =>
    match s.openOutput? file false with
    | some (some loc, s) => (s.append loc data).succeed ok
    | some (none, s) => s.succeed ok
    | none => s.exit 1

/-! ## §3 Changing -/

/-- The characters that a set of `tr` stands for. -/
def charSet : Nat → List Char → List Char
  | 0, _ => []
  | _ + 1, [] => []
  | fuel + 1, '\\' :: c :: rest =>
    let value := if c = 'n' then '\n' else if c = 't' then '\t' else if c = 'r' then '\r'
      else if c = '0' then '\x00' else c
    value :: charSet fuel rest
  | fuel + 1, '[' :: ':' :: rest =>
    let range (a b : Char) : List Char :=
      (List.range (b.toNat - a.toNat + 1)).map fun i => Char.ofNat (a.toNat + i)
    let name := String.ofList (rest.takeWhile (· != ':'))
    let after := rest.drop (name.length + 2)
    let members := match name with
      | "upper" => range 'A' 'Z'
      | "lower" => range 'a' 'z'
      | "digit" => range '0' '9'
      | "alpha" => range 'A' 'Z' ++ range 'a' 'z'
      | "alnum" => range '0' '9' ++ range 'A' 'Z' ++ range 'a' 'z'
      | "space" => ['\t', '\n', '\x0b', '\x0c', '\r', ' ']
      | _ => []
    members ++ charSet fuel after
  | fuel + 1, a :: '-' :: b :: rest =>
    (List.range (b.toNat + 1 - a.toNat)).map (fun i => Char.ofNat (a.toNat + i)) ++
      charSet fuel rest
  | fuel + 1, c :: rest => c :: charSet fuel rest

/-- The bytes of a set of `tr`. -/
def byteSet (text : String) : Bytes :=
  (charSet (text.length + 1) text.toList).map fun c => UInt8.ofNat c.toNat

/-- Runs of a byte of a set cut down to one. -/
def squeeze (set : Bytes) : Bytes → Bytes
  | a :: b :: rest =>
    if a = b ∧ set.contains a then squeeze set (b :: rest) else a :: squeeze set (b :: rest)
  | short => short

/-- Replaces, removes or thins out characters. -/
def tr : Utility := fun args s =>
  let keepOther (set : String) : UInt8 → Bool :=
    let set := byteSet set
    fun b => !set.contains b
  match args with
  | ["-d", set] => filterWith (·.filter (keepOther set)) [] s
  | ["-cd", set] | ["-dc", set] => filterWith (·.filter fun b => !keepOther set b) [] s
  | ["-s", set] => filterWith (squeeze (byteSet set)) [] s
  | [a, b] =>
    let old := byteSet a
    let new := byteSet b
    let last := new.getLast?
    filterWith (·.map fun x =>
      match old.idxOf? x with
      | some i => (new[i]?.or last).getD x
      | none => x) [] s
  | _ => s.exit 1

/-- Replaces `old` in a line, once or everywhere. -/
def replaceIn (old new : Bytes) (everywhere : Bool) : Nat → Bytes → Bytes
  | 0, line => line
  | _ + 1, [] => []
  | fuel + 1, b :: rest =>
    if old.isPrefixOf (b :: rest) ∧ !old.isEmpty then
      let after := (b :: rest).drop old.length
      new ++ (if everywhere then replaceIn old new everywhere fuel after else after)
    else b :: replaceIn old new everywhere fuel rest

/-- Text without the backslashes that take the meaning from the character after them. -/
def literal : List Char → List Char
  | '\\' :: c :: rest => c :: literal rest
  | c :: rest => c :: literal rest
  | [] => []

/-- What a command of `sed` does with a line. -/
inductive Edit where
  | print
  | delete
  /-- Replaces text; the pattern is literal, with `^` or `$` to tie it to an end. -/
  | replace (old new : List Char) (everywhere : Bool)
  deriving DecidableEq, Repr

/-- Which lines a command of `sed` is for. -/
inductive Address where
  | all
  | line (number : Nat)
  | last
  deriving DecidableEq, Repr

/-- Whether a line is meant, by its number and whether it is the last one. -/
def Address.covers (number : Nat) (isLast : Bool) : Address → Bool
  | .all => true
  | .line n => n == number
  | .last => isLast

/-- A command of `sed`. -/
def edit? (cs : List Char) : Option (Address × Edit) :=
  let digits := cs.takeWhile Char.isDigit
  let (address, action) : Address × List Char :=
    if digits ≠ [] then
      (.line ((String.ofList digits).toNat?.getD 0), cs.drop digits.length)
    else match cs with
      | '$' :: rest => (.last, rest)
      | _ => (.all, cs)
  match action with
  | ['p'] => some (address, .print)
  | ['d'] => some (address, .delete)
  | 's' :: mark :: body =>
    let old := body.takeWhile (· != mark)
    let rest := body.drop (old.length + 1)
    let new := rest.takeWhile (· != mark)
    some (address, .replace old new ((rest.drop (new.length + 1)).contains 'g'))
  | _ => none

/-- The text of a line after a replacement. -/
def replaceLine (old new : List Char) (everywhere : Bool) (text : Bytes) : Bytes :=
  let encode (cs : List Char) : Bytes := Utf8.encode (String.ofList (literal cs))
  if old = ['^'] then encode new ++ text
  else if old = ['$'] then text ++ encode new
  else if old.head? = some '^' then
    let old := encode (old.drop 1)
    if old.isPrefixOf text then encode new ++ text.drop old.length else text
  else if old.getLast? = some '$' then
    let old := encode old.dropLast
    if old.isSuffixOf text then text.take (text.length - old.length) ++ encode new else text
  else replaceIn (encode old) (encode new) everywhere (text.length + 1) text

/-- Edits each line by the commands of some scripts. -/
def sed : Utility := fun args s =>
  let quiet := args.contains "-n"
  let args := args.filter (· != "-n")
  let rec options : List String → List String × List String
    | "-e" :: script :: rest => let (scripts, names) := options rest; (script :: scripts, names)
    | rest => ([], rest)
  let (scripts, names) := match options args with
    | ([], script :: names) => ([script], names)
    | found => found
  let commands := scripts.flatMap fun script =>
    if (edit? script.toList).isSome then [edit? script.toList]
    else (Text.split ';' script.toList).map edit?
  if commands.contains none ∨ commands = [] then s.exit 1
  else
    let editLine (count : Nat) (numbered : Bytes × Nat) : Bytes :=
      let (line, i) := numbered
      let text := line.filter (· != 0x0A)
      let feed := line.drop text.length
      let (extra, kept) := (commands.filterMap id).foldl (fun (state : Bytes × Option Bytes) c =>
        match state.2 with
        | none => state
        | some text =>
          if c.1.covers (i + 1) (i + 1 == count) then
            match c.2 with
            | .print => (state.1 ++ text ++ feed, some text)
            | .delete => (state.1, none)
            | .replace old new everywhere => (state.1, some (replaceLine old new everywhere text))
          else state) ([], some text)
      match kept with
      | some text => if quiet then extra else extra ++ text ++ feed
      | none => extra
    filterWith (fun data =>
      let all := lines data
      (all.zipIdx.map (editLine all.length)).flatten) names s

/-- Whether a line holds a text, tied to its ends by `^` or `$`. -/
def holdsText (pattern : List Char) (line : Bytes) : Bool :=
  let encode (cs : List Char) : Bytes := Utf8.encode (String.ofList (literal cs))
  let atStart := pattern.head? == some '^'
  let atEnd := pattern.getLast? == some '$'
  let bare := if atStart then pattern.drop 1 else pattern
  let text := encode (if atEnd then bare.dropLast else bare)
  if atStart && atEnd then line == text
  else if atStart then text.isPrefixOf line
  else if atEnd then text.isSuffixOf line
  else (List.range (line.length + 1)).any fun i => text.isPrefixOf (line.drop i)

/-- Passes on the lines that hold a text. -/
def grep : Utility := fun args s =>
  let flags := args.takeWhile fun a => a.toList.head? == some '-' && a != "-"
  let has (c : Char) : Bool := flags.any fun f => f.toList.contains c
  match args.drop flags.length with
  | [] => s.exit 2
  | pattern :: names =>
    let (data, ok, s) := source names s
    let found := (lines data).zipIdx.filter fun (line, _) =>
      holdsText pattern.toList (line.filter (· != 0x0A)) != has 'v'
    let shown := found.map fun (line, i) =>
      (if has 'n' then Utf8.encode (toString (i + 1) ++ ":") else []) ++
        line.filter (· != 0x0A) ++ [0x0A]
    let s := if has 'q' then s
      else if has 'c' then s.print (toString found.length ++ "\n")
      else s.write shown.flatten
    if ok then s.succeed (!found.isEmpty) else s.exit 2

/-- Lines with repetitions in a row left out, with their numbers if asked for. -/
def uniq : Utility := fun args s =>
  let counted := args.contains "-c"
  filterWith (fun data =>
    let runs := (lines data).foldl (fun (runs : List (Bytes × Nat)) line =>
      let text := line.filter (· != 0x0A)
      match runs with
      | (last, n) :: done => if last = text then (last, n + 1) :: done else (text, 1) :: runs
      | [] => [(text, 1)]) []
    (runs.reverse.map fun (text, n) =>
      let digits := toString n
      let label := String.ofList (List.replicate (7 - digits.length) ' ') ++ digits ++ " "
      (if counted then Utf8.encode label else []) ++ text ++ [0x0A]).flatten)
    (args.filter (· != "-c")) s

/-- Lines from the last to the first. -/
def tac : Utility := fun args s =>
  filterWith (fun data => (lines data).reverse.flatten) args s

/-- The numbers in a list of numbers and ranges; the upper end of an open range is `high`. -/
def selection (high : Nat) (text : String) : List Nat :=
  (Text.parts ',' text).flatMap fun part =>
    match Text.parts '-' part with
    | [n] => [n.toNat?.getD 0]
    | [a, b] => let low := a.toNat?.getD 1; List.range' low (b.toNat?.getD high + 1 - low)
    | _ => []

/-- Parts of each line: characters, or fields between marks. -/
def cut : Utility := fun args s =>
  let rec options : List String → Char × Option String × Option String × List String
    | "-d" :: mark :: rest => let (_, r) := options rest; (mark.toList.headD '\t', r)
    | "-f" :: list :: rest => let (m, _, c, r) := options rest; (m, some list, c, r)
    | "-c" :: list :: rest => let (m, f, _, r) := options rest; (m, f, some list, r)
    | a :: rest =>
      match a.toList, options rest with
      | '-' :: 'd' :: mark, (_, r) => (mark.headD '\t', r)
      | '-' :: 'f' :: list, (m, _, c, r) => (m, some (String.ofList list), c, r)
      | '-' :: 'c' :: list, (m, f, _, r) => (m, f, some (String.ofList list), r)
      | _, (m, f, c, r) => (m, f, c, a :: r)
    | [] => ('\t', none, none, [])
  let (mark, fields, chars, names) := options args
  filterWith (fun data => ((lines data).map fun line =>
    let text := Utf8.decodeLossy (line.filter (· != 0x0A))
    let kept := match fields, chars with
      | some list, _ =>
        let parts := Text.parts mark text
        if parts.length < 2 then text
        else
          let wanted := selection parts.length list
          mark.toString.intercalate
            ((parts.zipIdx.filter fun p => wanted.contains (p.2 + 1)).map Prod.fst)
      | none, some list =>
        let wanted := selection text.length list
        String.ofList ((text.toList.zipIdx.filter fun p => wanted.contains (p.2 + 1)).map Prod.fst)
      | none, none => text
    Utf8.encode (kept ++ "\n")).flatten) names s

/-- Lines in the order of their bytes. -/
def sort : Utility := fun args s =>
  let flags := args.filter fun a => a.toList.head? == some '-'
  let has (c : Char) : Bool := flags.any fun f => f.toList.contains c
  let size (line : Bytes) : Int :=
    let cs := (Utf8.decodeLossy line).toList.dropWhile (· == ' ')
    let digits (cs : List Char) : Int :=
      ((String.ofList (cs.takeWhile Char.isDigit)).toNat?.getD 0 : Nat)
    match cs with
    | '-' :: rest => -digits rest
    | _ => digits cs
  let before (a b : Bytes) : Bool :=
    if has 'n' ∧ size a ≠ size b then size a < size b else !decide (b < a)
  filterWith (fun data =>
    let sorted := ((lines data).map (·.filter (· != 0x0A))).mergeSort before
    let sorted := if has 'u' then sorted.eraseDups else sorted
    ((if has 'r' then sorted.reverse else sorted).map (· ++ [0x0A])).flatten)
    (args.filter fun a => a.toList.head? != some '-') s

/-- Each line backwards. -/
def rev : Utility := fun args s =>
  filterWith (fun data => ((lines data).map fun line =>
    let text := line.filter (· != 0x0A)
    Utf8.encode (String.ofList (Utf8.decodeLossy text).toList.reverse) ++
      line.drop text.length).flatten) args s

/-- Counts bytes, lines or words. -/
def wc : Utility := fun args s =>
  let flags := args.filter fun a => a.toList.head? == some '-' && a != "-"
  let names := args.filter fun a => a.toList.head? != some '-'
  let has (c : Char) : Bool := flags.any fun f => f.toList.contains c
  let (data, ok, s) := source names s
  let lineCount := data.countP (· == 0x0A)
  let wordCount := (data.foldl (fun (state : Nat × Bool) b =>
    let blank := b = 0x20 ∨ (9 ≤ b ∧ b ≤ 13)
    if blank then (state.1, false) else if state.2 then state else (state.1 + 1, true))
    (0, false)).1
  let all := flags.isEmpty
  let numbers := (if all || has 'l' then [lineCount] else []) ++
    (if all || has 'w' then [wordCount] else []) ++
    (if all || has 'c' then [data.length] else [])
  let width := if numbers.length < 2 then 0 else if names.isEmpty then 7
    else (toString data.length).length
  let pad (n : Nat) : String :=
    let digits := toString n
    String.ofList (List.replicate (width - digits.length) ' ') ++ digits
  let text := " ".intercalate (numbers.map pad ++ names)
  (s.print (text ++ "\n")).succeed ok

/-! ## §4 Printing -/

/-- Prints arguments with a blank between each two. -/
def echo : Utility := fun args s =>
  let (bare, args) := match args with
    | "-n" :: rest => (true, rest)
    | args => (false, args)
  let text := (" ".intercalate args).toList
  let s := s.write (unescape (text.length + 1) text)
  (if bare then s else s.write [0x0A]).exit 0

/-- An argument as a conversion shows it. -/
def conversion (c : Char) (value : String) : Bytes :=
  let number := value.toInt?.getD 0
  let inBase (base : Nat) : String := String.ofList (Nat.toDigits base number.toNat)
  if c = 'b' then unescape (value.length + 1) value.toList
  else if c = 'd' ∨ c = 'i' ∨ c = 'u' then Utf8.encode (toString number)
  else if c = 'x' then Utf8.encode (inBase 16)
  else if c = 'X' then Utf8.encode (String.ofList ((inBase 16).toList.map Char.toUpper))
  else if c = 'o' then Utf8.encode (inBase 8)
  else if c = 'c' then Utf8.encode (String.ofList (value.toList.take 1))
  else Utf8.encode value

/-- Text filled up to a width, at its front unless the flags say otherwise. -/
def padded (flags : List Char) (width : Nat) (text : Bytes) : Bytes :=
  let missing := width - text.length
  if flags.contains '-' then text ++ List.replicate missing 0x20
  else List.replicate missing (if flags.contains '0' then 0x30 else 0x20) ++ text

/-- One pass of a format over arguments: the output, the arguments left, and whether any were asked
    for. -/
def formatOnce : Nat → List Char → List String → Bytes × List String × Bool
  | 0, _, args => ([], args, false)
  | _ + 1, [], args => ([], args, false)
  | fuel + 1, '%' :: '%' :: rest, args =>
    let (out, args, asked) := formatOnce fuel rest args
    (0x25 :: out, args, asked)
  | fuel + 1, '%' :: rest, args =>
    let flags := rest.takeWhile fun c => c == '-' || c == '0'
    let digits := (rest.drop flags.length).takeWhile Char.isDigit
    let width := (String.ofList digits).toNat?.getD 0
    match rest.drop (flags.length + digits.length) with
    | [] => (Utf8.encode "%", args, false)
    | c :: rest =>
      let shown := padded flags width (conversion c (args.headD ""))
      let (out, args, _) := formatOnce fuel rest args.tail
      (shown ++ out, args, true)
  | fuel + 1, '\\' :: c :: rest, args =>
    let (digits, after) := if '0' ≤ c ∧ c ≤ '7' then
        let all := c :: rest
        let ds := (all.take 3).takeWhile (fun d => '0' ≤ d && d ≤ '7')
        (ds, all.drop ds.length)
      else ([c], rest)
    let (out, args, asked) := formatOnce fuel after args
    (unescape (digits.length + 2) ('\\' :: digits) ++ out, args, asked)
  | fuel + 1, c :: rest, args =>
    let (out, args, asked) := formatOnce fuel rest args
    (Utf8.encode c.toString ++ out, args, asked)

/-- Prints arguments by a format, again and again until none are left. -/
def formatAll : Nat → List Char → List String → Bytes
  | 0, _, _ => []
  | fuel + 1, format, args =>
    let (out, left, asked) := formatOnce (format.length + 1) format args
    if left.isEmpty ∨ !asked then out else out ++ formatAll fuel format left

/-- Prints arguments by a format. -/
def printf : Utility := fun args s =>
  let args := match args with
    | "--" :: rest => rest
    | args => args
  match args with
  | [] => s.exit 2
  | format :: rest => (s.write (formatAll (rest.length + 1) format.toList rest)).exit 0

/-- Prints the working directory. -/
def pwd : Utility := fun _ s =>
  (s.print ((Path.ofNames s.directory).text ++ "\n")).exit 0

/-- Prints numbers in a row. -/
def seq : Utility := fun args s =>
  let ns := args.filterMap String.toNat?
  let (low, high) := match ns with
    | [high] => (1, high)
    | low :: high :: _ => (low, high)
    | [] => (1, 0)
  let texts := (List.range (high + 1 - low)).map fun i => toString (low + i) ++ "\n"
  (s.print (String.join texts)).exit 0

/-- Prints a line without end, up to where its reader gives up. -/
def yes : Utility := fun args s =>
  let line := Utf8.encode ((if args.isEmpty then "y" else " ".intercalate args) ++ "\n")
  { s.write (List.replicate 65536 line).flatten with status := .killed 13 }

/-- The last part of a path. -/
def basename : Utility := fun args s =>
  match args with
  | name :: more =>
    let base := ((Path.mk name).fileName.getD name).toList
    let ending := (more.headD "").toList
    let kept := if ending.isSuffixOf base ∧ ending ≠ base then
        base.take (base.length - ending.length)
      else base
    (s.print (String.ofList kept ++ "\n")).exit 0
  | [] => s.exit 1

/-- A path without its last part. -/
def dirname : Utility := fun args s =>
  match args with
  | name :: _ =>
    let dir := ((Path.mk name).parent.getD ⟨name⟩).text
    (s.print ((if dir = "" then "." else dir) ++ "\n")).exit 0
  | [] => s.exit 1

/-! ## §5 Testing -/

/-- Whether a test holds; none if it is no test. -/
def holds? (s : Scene) : List String → Option Bool
  | [] => some false
  | [text] => some (text != "")
  | ["!", text] => some (text == "")
  | ["-n", text] => some (text != "")
  | ["-z", text] => some (text == "")
  | ["-e", name] => some (s.tree.reaches s.directory ⟨name⟩)
  | ["-f", name] => some (s.tree.isFile s.directory ⟨name⟩)
  | ["-d", name] => some (s.tree.isDirectory s.directory ⟨name⟩)
  | ["-x", name] => some (s.tree.isExecutable s.directory ⟨name⟩)
  | ["-s", name] => some ((s.bytesAt name).toOption.any (!·.isEmpty))
  | [a, "=", b] => some (a == b)
  | [a, "!=", b] => some (a != b)
  | [a, op, b] =>
    match a.toInt?, b.toInt? with
    | some x, some y =>
      match op with
      | "-eq" => some (x == y)
      | "-ne" => some (x != y)
      | "-lt" => some (decide (x < y))
      | "-le" => some (decide (x ≤ y))
      | "-gt" => some (decide (y < x))
      | "-ge" => some (decide (y ≤ x))
      | _ => none
    | _, _ => none
  | _ => none

/-- Succeeds if a test holds. -/
def test : Utility := fun args s =>
  let args := if args.getLast? = some "]" then args.dropLast else args
  let result := match args with
    | "!" :: a :: b :: rest => (holds? s (a :: b :: rest)).map (!·)
    | args => holds? s args
  match result with
  | some ok => s.succeed ok
  | none => s.exit 2

/-! ## §6 Files -/

/-- Makes directories. -/
def mkdir : Utility := fun args s =>
  let parents := args.contains "-p"
  (args.filter (· != "-p")).foldl (fun (s : Scene) name =>
    if parents then
      let (result, tree) := s.tree.makeDirectories s.directory ⟨name⟩
      { s with tree }.succeed (s.status.success && result.isOk)
    else match s.tree.makeDirectory s.directory ⟨name⟩ with
      | .ok tree => { s with tree }
      | .error _ => s.exit 1) (s.exit 0)

/-- Removes files. -/
def rm : Utility := fun args s =>
  let deep := args.any fun a => a.toList.head? == some '-' && a.toList.contains 'r'
  let force := args.any fun a => a.toList.head? == some '-' && a.toList.contains 'f'
  (args.filter fun a => a.toList.head? != some '-').foldl (fun (s : Scene) name =>
    match s.tree.find s.directory false ⟨name⟩ with
    | .ok (.taken loc .directory) =>
      if deep then { s with tree := s.tree.delete loc } else s.exit 1
    | .ok (.taken loc _) => { s with tree := s.tree.delete loc }
    | _ => if force then s else s.exit 1) (s.exit 0)

/-- Copies one file. -/
def cp : Utility := fun args s =>
  match args with
  | [a, b] =>
    let dest := if s.tree.isDirectory s.directory ⟨b⟩ then
        (Path.mk b).join ((Path.mk a).fileName.getD a)
      else ⟨b⟩
    match s.tree.copyFile s.directory s.now ⟨a⟩ dest with
    | .ok tree => { s with tree }.exit 0
    | .error _ => s.exit 1
  | _ => s.exit 1

/-- Creates files that are missing. -/
def touch : Utility := fun args s =>
  args.foldl (fun (s : Scene) name =>
    match s.openOutput? name true with
    | some (_, s) => s
    | none => s.exit 1) (s.exit 0)

/-- Names in a directory, one a line; those that start with a point are not shown. -/
def ls : Utility := fun args s =>
  match args.filter fun a => a.toList.head? != some '-' with
  | [] | ["."] => listNames s s.directory
  | name :: _ =>
    match s.tree.stat s.directory ⟨name⟩ with
    | .ok (loc, .directory) => listNames s loc
    | .ok _ => (s.print (name ++ "\n")).exit 0
    | .error _ => s.exit 2
where
  /-- Shows the names in a directory. -/
  listNames (s : Scene) (loc : Location) : Scene :=
    let names := (s.tree.names loc).filter fun n => n.toList.head? != some '.'
    (s.print (String.join (names.map (· ++ "\n")))).exit 0

/-- Prints the environment. -/
def env : Utility := fun args s =>
  if args = [] then
    (s.print (String.join (s.environment.map fun (k, v) => k ++ "=" ++ v ++ "\n"))).exit 0
  else s.exit 127

/-! ## §7 The table -/

/-- The utilities by name. -/
def utilities : List (String × Utility) :=
  [("cat", cat), ("head", head), ("tail", tail), ("tee", tee), ("tr", tr), ("sed", sed),
   ("sort", sort), ("rev", rev), ("wc", wc), ("echo", echo), ("printf", printf), ("pwd", pwd),
   ("seq", seq), ("yes", yes), ("basename", basename), ("dirname", dirname), ("test", test),
   ("[", test), ("grep", grep), ("uniq", uniq), ("cut", cut), ("tac", tac), ("ls", ls),
   ("env", env), ("dd", dd),
   ("mkdir", mkdir), ("rm", rm), ("cp", cp), ("touch", touch),
   ("sleep", fun _ s => s.exit 0), ("true", fun _ s => s.exit 0), ("false", fun _ s => s.exit 1)]

end AssetServer.Shell
