import AssetServer.Shell.Arithmetic
import AssetServer.Shell.Script
import AssetServer.Shell.Utility

/-!
# Running shell scripts

A script is run on a scene, in at most a given number of nested steps. Scripts may start the
installed utilities and further shells.

- `Shell.expandWords` turns words into arguments.
- `Shell.run` runs a script, `Shell.shell` is the shell as a utility.
- `Shell.installed` says what the program at a location does, and `Shell.standardTree` is a file
  system that holds those programs.
-/

namespace AssetServer.Shell

/-! ## §1 Words -/

/-- The number that a script sees as its own process. -/
def ownProcess : String := "4242"

/-- The code of the last command, as a script sees it. -/
def lastCode (s : Scene) : Nat :=
  match s.status.code?, s.status.signal? with
  | some code, _ => code
  | none, some signal => 128 + signal
  | none, none => 0

/-- The value of a name after a dollar sign. -/
def valueOf (s : Scene) (name : String) : String :=
  match name with
  | "@" | "*" => " ".intercalate s.parameters.tail
  | "#" => toString s.parameters.tail.length
  | "?" => toString (lastCode s)
  | "$" => ownProcess
  | _ =>
    let cs := name.toList
    let key := cs.takeWhile (· != ':')
    let value := match (String.ofList key).toNat? with
      | some n => s.parameters.getD n ""
      | none => s.valueOf (String.ofList key)
    match cs.drop key.length with
    | ':' :: '-' :: other => if value = "" then String.ofList other else value
    | _ => value

/-- The value of an expression as text, empty if it has none. -/
def numberOf (s : Scene) (expression : String) : String :=
  let value (name : String) : Int := (valueOf s name).toInt?.getD 0
  ((Arithmetic.value? value expression).map toString).getD ""

/-- Arguments under way: those that are complete, in reverse, and the one that is not. -/
structure Fields where
  complete : List String
  current : Option String
  deriving Inhabited

namespace Fields

/-- Adds text to the current argument. -/
def add (f : Fields) (text : String) : Fields :=
  { f with current := some (f.current.getD "" ++ text) }

/-- Completes the current argument. -/
def close (f : Fields) : Fields :=
  match f.current with
  | some text => ⟨text :: f.complete, none⟩
  | none => f

/-- Adds text that is split at white space. -/
def addSplit (f : Fields) (text : String) : Fields :=
  text.toList.foldl (fun (f : Fields) c =>
    if c = ' ' ∨ c = '\t' ∨ c = '\n' then f.close else f.add c.toString) f

/-- Adds texts as arguments of their own, the first and the last joined to what stands around. -/
def addEach (f : Fields) : List String → Fields
  | [] => f
  | [text] => f.add text
  | text :: rest => ((f.add text).close).addEach rest

/-- The arguments in order. -/
def toList (f : Fields) : List String :=
  f.close.complete.reverse

end Fields

/-- Adds a part of a word to the arguments. -/
def expandPart (outputOf : String → Scene → String × Scene) (state : Fields × Scene) (part : Part) :
    Fields × Scene :=
  let (f, s) := state
  match part with
  | .text "" false => (f, s)
  | .text text _ => (f.add text, s)
  | .value "@" true => (f.addEach s.parameters.tail, s)
  | .value name true => (f.add (valueOf s name), s)
  | .value name false => (f.addSplit (valueOf s name), s)
  | .number expression _ => (f.add (numberOf s expression), s)
  | .outputOf script quoted =>
    let (text, s) := outputOf script s
    (if quoted then f.add text else f.addSplit text, s)

/-- The arguments that words stand for. -/
def expandWords (outputOf : String → Scene → String × Scene) (words : List Word) (s : Scene) :
    List String × Scene :=
  let (f, s) := words.foldl (fun (state : Fields × Scene) word =>
    let (f, s) := word.foldl (expandPart outputOf) state
    (f.close, s)) (⟨[], none⟩, s)
  (f.toList, s)

/-- The one text that a word stands for. -/
def expandText (outputOf : String → Scene → String × Scene) (word : Word) (s : Scene) :
    String × Scene :=
  let (fields, s) := expandWords outputOf [word.map fun
    | .text t _ => .text t true
    | .value n _ => .value n true
    | .outputOf t _ => .outputOf t true
    | .number t _ => .number t true] s
  (" ".intercalate fields, s)

/-- An element of a pattern. -/
inductive Glob where
  /-- Any text. -/
  | anything
  /-- Any one character. -/
  | anyone
  | char (c : Char)
  deriving DecidableEq, Repr

namespace Glob

/-- Whether a text fits a pattern. -/
def fits : List Glob → List Char → Bool
  | [], cs => cs.isEmpty
  | .anything :: more, cs => (List.range (cs.length + 1)).any fun i => fits more (cs.drop i)
  | .anyone :: more, cs => !cs.isEmpty && fits more (cs.drop 1)
  | .char c :: more, cs => cs.head? == some c && fits more (cs.drop 1)

/-- The pattern that a word spells. Quoted characters stand for themselves. -/
def ofWord (outputOf : String → Scene → String × Scene) (word : Word) (s : Scene) :
    List Glob × Scene :=
  word.foldl (fun (state : List Glob × Scene) part =>
    let (done, s) := state
    let (text, s) := expandText outputOf [part] s
    let quoted := match part with
      | .text _ q | .value _ q | .outputOf _ q | .number _ q => q
    (done ++ text.toList.map fun c =>
      if quoted then .char c else if c = '*' then .anything else if c = '?' then .anyone
      else .char c, s)) ([], s)

end Glob

/-! ## §2 Built-in commands -/

/-- The signal that a text names, by number or by name. -/
def signal? (text : String) : Option UInt8 :=
  match text.toNat? with
  | some n => some (UInt8.ofNat n)
  | none =>
    let name := if "SIG".toList.isPrefixOf text.toList then text else "SIG" ++ text
    (ExitStatus.signalNames.idxOf? name).map fun i => UInt8.ofNat (i + 1)

/-- Sends a signal. Sent to the script itself, it ends it. -/
def kill : Utility := fun args s =>
  let (signal, targets) := match args with
    | "-s" :: name :: rest => (signal? name, rest)
    | first :: rest =>
      if first.toList.head? = some '-' then (signal? (String.ofList (first.toList.drop 1)), rest)
      else (some 15, first :: rest)
    | [] => (none, [])
  match signal with
  | none => s.exit 1
  | some n =>
    if targets.contains ownProcess then
      if n = 0 then s.exit 0 else { s with status := .killed n, ended := true }
    else s.exit 1

/-- Reads a line into variables. The last one takes what is left of it. -/
def read : Utility := fun args s =>
  let names := args.filter (· != "-r")
  let line := s.input.takeWhile (· != 0x0A)
  let rest := s.input.drop line.length
  let words := (Fields.addSplit ⟨[], none⟩ (Utf8.decodeLossy line)).toList
  let rec assign (s : Scene) : List String → List String → Scene
    | [], _ => s
    | [name], words => s.setVariable name (" ".intercalate words)
    | name :: names, words => assign (s.setVariable name (words.headD "")) names words.tail
  let s := assign { s with input := rest.drop 1 } names words
  s.succeed (!rest.isEmpty)

/-- Ends the script. -/
def leave : Utility := fun args s =>
  let code := (args.head?.bind String.toNat?).getD (lastCode s)
  { s.exit (UInt8.ofNat code) with ended := true }

/-- Changes the working directory. -/
def changeDirectory : Utility := fun args s =>
  let name := args.headD (s.valueOf "HOME")
  match s.tree.stat s.directory ⟨name⟩ with
  | .ok (loc, .directory) => { s with directory := loc }.exit 0
  | _ => s.exit 2

/-- Drops parameters from the front. -/
def shift : Utility := fun args s =>
  let n := (args.head?.bind String.toNat?).getD 1
  { s with parameters := s.parameters.take 1 ++ s.parameters.tail.drop n }.exit 0

/-- Sets the parameters. -/
def setParameters : Utility := fun args s =>
  match args with
  | "--" :: values => { s with parameters := s.parameters.take 1 ++ values }.exit 0
  | first :: _ =>
    if first.toList.head? = some '-' then s.exit 0
    else { s with parameters := s.parameters.take 1 ++ args }.exit 0
  | [] => s.exit 0

/-- Sets variables given as `name=value`. -/
def exportVariables : Utility := fun args s =>
  args.foldl (fun (s : Scene) a =>
    let name := a.toList.takeWhile (· != '=')
    if name.length < a.length then
      s.setVariable (String.ofList name) (String.ofList (a.toList.drop (name.length + 1)))
    else s) (s.exit 0)

/-- Forgets variables. -/
def unset : Utility := fun args s =>
  { s with environment := s.environment.filter fun v => !args.contains v.1 }.exit 0

/-- The commands that a shell knows by itself. -/
def builtins : List (String × Utility) :=
  [("exit", leave), ("cd", changeDirectory), ("shift", shift), ("set", setParameters),
   ("export", exportVariables), ("unset", unset), ("read", read), ("kill", kill),
   (":", fun _ s => s.exit 0),
   ("ulimit", fun _ s => s.exit 0), ("trap", fun _ s => s.exit 0), ("wait", fun _ s => s.exit 0),
   ("echo", echo), ("printf", printf), ("pwd", pwd), ("test", test), ("[", test),
   ("true", fun _ s => s.exit 0), ("false", fun _ s => s.exit 1)]

/-! ## §3 Streams -/

/-- Where a stream of a command goes. -/
inductive Stream where
  | output
  | errors
  | file (location : Location)
  | nowhere
  deriving DecidableEq, Repr

/-- The streams of a command: its input, its output and its errors. -/
structure Streams where
  /-- What is left to read and whether reading fails, if it is not the input of the script. -/
  input : Option (Bytes × Bool)
  output : Stream
  errors : Stream

/-- Applies a redirection; none if a file cannot be opened. -/
def applyRedirection (text : Word → Scene → String × Scene) (state : Option (Streams × Scene))
    (r : Redirection) : Option (Streams × Scene) := do
  let (streams, s) ← state
  match r with
  | .input file =>
    let (name, s) := text file s
    match s.bytesAt name with
    | .ok data => some ({ streams with input := some (data, false) }, s)
    | .error e =>
      if e = .isDirectory then some ({ streams with input := some ([], true) }, s) else none
  | .output stream adding file =>
    let (name, s) := text file s
    let (loc, s) ← s.openOutput? name adding
    let target := match loc with
      | some loc => Stream.file loc
      | none => .nowhere
    some (if stream = 1 then { streams with output := target }
      else { streams with errors := target }, s)
  | .duplicate stream target =>
    let goes := if target = 1 then streams.output else streams.errors
    let streams :=
      if stream = 1 then { streams with output := goes } else { streams with errors := goes }
    some (streams, s)

/-! ## §4 Scripts -/

/-- What an executable file does: a utility by name, the shell, or a script with its interpreter's
    arguments. -/
inductive Executable where
  | utility (u : Utility)
  | shell
  | script (arguments : List String)

/-- Where programs are installed. -/
def programDirectory : Location := ["usr", "bin"]

/-- The program installed at a location. -/
def executableAt? (loc : Location) : Option Executable :=
  match loc.getLast? with
  | some name =>
    if loc.dropLast = programDirectory then
      if name = "sh" ∨ name = "dash" ∨ name = "bash" then some .shell
      else (utilities.lookup name).map .utility
    else none
  | none => none

/-- What executing the file at a path does. -/
def executable? (s : Scene) (p : Path) : Option Executable :=
  match s.tree.stat s.directory p with
  | .ok (loc, .file f) =>
    if f.executable then
      match executableAt? loc with
      | some e => some e
      | none =>
        match Host.interpreter? f.content with
        | some (_, extra) => some (.script (extra ++ [p.text]))
        | none => none
    else none
  | _ => none

/-- Finds a command in the directories of `PATH`. -/
def lookUp? (s : Scene) (name : String) : Option Executable :=
  if name.toList.contains '/' then executable? s ⟨name⟩
  else (Text.parts ':' (s.valueOf "PATH")).findSome? fun dir =>
    executable? s ((Path.mk dir).join name)

/-- The script that a shell is to run: its text, name and parameters. None if it cannot be read. -/
def shellTask? (args : List String) (s : Scene) : Option (String × List String × Scene) :=
  let flags := args.takeWhile fun a => a.toList.head? == some '-' && a.length > 1
  let rest := args.drop flags.length
  if flags.any (·.toList.contains 'c') then
    match rest with
    | text :: "" :: parameters => some (text, "" :: parameters, s)
    | text :: name :: parameters => some (text, name :: parameters, s)
    | [text] => some (text, ["sh"], s)
    | [] => none
  else match rest with
    | [] => some (Utf8.decodeLossy s.input, ["sh"], { s with input := [] })
    | file :: parameters =>
      match s.bytesAt file with
      | .ok data => some (Utf8.decodeLossy data, file :: parameters, s)
      | .error _ => none

/-- Runs a script in at most `fuel` nested steps. -/
def run : Nat → Script → Scene → Scene
  | 0, _, s => { s.exit 2 with ended := true }
  | fuel + 1, script, s =>
    if s.ended then s
    else
      let inner (script : Script) (s : Scene) : Scene :=
        let t := run fuel script { s with ended := false }
        { t with
          environment := s.environment, directory := s.directory, parameters := s.parameters
          ended := false }
      let runShell (args : List String) (s : Scene) : Scene :=
        match shellTask? args s with
        | none => s.exit 2
        | some (text, parameters, s) =>
          match parse? text with
          | none => s.exit 2
          | some script =>
            let t := run fuel script { s with parameters, status := .exited 0 }
            { t with
              environment := s.environment, directory := s.directory, parameters := s.parameters
              ended := false }
      let outputOf (text : String) (s : Scene) : String × Scene :=
        match parse? text with
        | none => ("", s.exit 2)
        | some script =>
          let t := inner script { s with output := [] }
          let kept := (t.output.reverse.dropWhile (· == 0x0A)).reverse
          (Utf8.decodeLossy kept, { t with output := s.output })
      match script with
      | .nothing => s
      | .simple assignments words =>
        let (args, s) := expandWords outputOf words s
        let assigned := assignments.foldl (fun (s : Scene) (a : String × Word) =>
          let (value, s) := expandText outputOf a.2 s
          s.setVariable a.1 value) (if words.isEmpty then s.exit 0 else s)
        match args with
        | [] => assigned
        | name :: args =>
          let back (t : Scene) : Scene :=
            if assignments.isEmpty then t else { t with environment := s.environment }
          match builtins.lookup name with
          | some u => back (u args assigned)
          | none =>
            if name = "exec" then
              match args with
              | [] => assigned.exit 0
              | _ =>
                let words := args.map fun a => [Part.text a true]
                { run fuel (.simple [] words) assigned with ended := true }
            else match lookUp? assigned name with
              | none =>
                let found := name.toList.contains '/' && s.tree.reaches s.directory ⟨name⟩
                assigned.exit (if found then 126 else 127)
              | some (.utility u) => back (u args assigned)
              | some .shell => back (runShell args assigned)
              | some (.script extra) => back (runShell (extra ++ args) assigned)
      | .redirected body redirections =>
        let start : Streams := ⟨none, .output, .errors⟩
        match redirections.foldl (applyRedirection (expandText outputOf)) (some (start, s)) with
        | none => s.exit 2
        | some (streams, opened) =>
          let (input, broken) := streams.input.getD (opened.input, opened.broken)
          let t := run fuel body { opened with input, broken, output := [] }
          let left := if streams.input.isSome then opened.input else t.input
          let base := { t with input := left, broken := opened.broken, output := s.output }
          match streams.output with
          | .output => base.write t.output
          | .errors | .nowhere => base
          | .file loc => base.append loc t.output
      | .sequence first second => run fuel second (run fuel first s)
      | .ifSuccess first second =>
        let s := run fuel first s
        if s.status.success then run fuel second s else s
      | .ifFailure first second =>
        let s := run fuel first s
        if s.status.success then s else run fuel second s
      | .negated body =>
        let s := run fuel body s
        if s.ended then s else s.succeed (!s.status.success)
      | .pipe first second =>
        let a := inner first { s with output := [] }
        let b := inner second { a with input := a.output, broken := false, output := s.output }
        { b with input := a.input, broken := a.broken }
      | .subshell body => inner body s
      | .forEach name words body =>
        let (values, s) := match words with
          | some words => expandWords outputOf words s
          | none => (s.parameters.tail, s)
        values.foldl (fun (s : Scene) value =>
          if s.ended then s else run fuel body (s.setVariable name value)) (s.exit 0)
      | .condition test body otherwise =>
        let s := run fuel test s
        if s.ended then s
        else if s.status.success then run fuel body s
        else run fuel otherwise (s.exit 0)
      | .choice subject patterns body otherwise =>
        let (text, s) := expandText outputOf subject s
        let (fit, s) := patterns.foldl (fun (state : Bool × Scene) pattern =>
          let (pattern, s) := Glob.ofWord outputOf pattern state.2
          (state.1 || Glob.fits pattern text.toList, s)) (false, s)
        if fit then run fuel body (s.exit 0) else run fuel otherwise (s.exit 0)
      | .loop expected test body =>
        let s := run fuel test s
        if s.ended then s
        else if s.status.success == expected then
          run fuel (.loop expected test body) (run fuel body s)
        else s.exit 0

/-- How many nested steps a script may take. -/
def maxSteps : Nat := 100000

/-- The shell. -/
def shell : Utility := fun args s =>
  match shellTask? args s with
  | none => s.exit 2
  | some (text, parameters, s) =>
    match parse? text with
    | none => s.exit 2
    | some script => run maxSteps script { s with parameters, status := .exited 0 }

/-! ## §5 Installed programs -/

/-- What the program at a location does. -/
def installed (loc : Location) : Option Program :=
  match executableAt? loc with
  | some .shell => some (Utility.program shell)
  | some (.utility u) => some (Utility.program u)
  | some (.script _) | none => none

/-- A file system with the installed programs and a directory for temporary files. -/
def standardTree : Tree :=
  let program : Entry := .file ⟨[0x7F, 0x45, 0x4C, 0x46], 0o755, ⟨0, 0⟩⟩
  let names := ["sh", "dash", "bash"] ++ utilities.map Prod.fst
  let t := (Tree.empty.ensureDirectories programDirectory).ensureDirectories ["tmp"]
  let t := names.foldl (fun (t : Tree) name => t.put (programDirectory ++ [name]) program) t
  t.put ["bin"] (.link "usr/bin")

end AssetServer.Shell
