import AssetServer.CommandLine.Basic

/-!
# Scanning arguments

The arguments of one command, up to the subcommand that ends them. Options have a long name after
two dashes or a letter after one; a value follows after an equals sign, in the next argument, or
right after the letter. Letters can be joined. After `--` no argument is an option.

A value that has been read is checked when the next option comes up or the arguments end, so of two
mistakes in a row an unknown option is reported first.
-/

namespace AssetServer.CommandLine

/-! ## §1 Commands and options -/

/-- An option. -/
inductive Opt where
  | logFormat
  | verbose
  | address
  | mount
  | level
  | exportTo
  | out
  | help
  | version
  deriving DecidableEq, Repr

namespace Opt

/-- The name of an option after two dashes. -/
def long : Opt → String
  | .logFormat => "log-format"
  | .verbose => "verbose"
  | .address => "addr"
  | .mount => "prefix"
  | .level => "level"
  | .exportTo => "export"
  | .out => "out"
  | .help => "help"
  | .version => "version"

/-- The letter of an option after one dash. -/
def letter? : Opt → Option Char
  | .verbose => some 'v'
  | .level => some 'l'
  | .out => some 'o'
  | .help => some 'h'
  | .version => some 'V'
  | _ => none

/-- Whether an option takes a value. -/
def takesValue : Opt → Bool
  | .verbose | .help | .version => false
  | _ => true

/-- Checks a value for an option. -/
def check (o : Opt) (value : String) : Except UsageError Unit :=
  match o with
  | .logFormat => if value = "text" ∨ value = "json" then .ok () else .error .invalidValue
  | .level => if (Level.ofText? value).isSome then .ok () else .error .unreadableValue
  | .exportTo | .out => if value = "" then .error .invalidValue else .ok ()
  | _ => .ok ()

end Opt

/-- A command: the program itself or one of its subcommands. -/
inductive Command where
  | program
  | serve
  | build
  | config
  | initConfig
  | showConfig
  deriving DecidableEq, Repr

namespace Command

/-- The options of a command. Those of the program go with every subcommand, except for the one that
    asks for its version. -/
def options (c : Command) : List Opt :=
  [.logFormat, .verbose, .help] ++
    match c with
    | .program => [.version]
    | .serve => [.address, .mount, .level, .exportTo]
    | .build => [.out, .level]
    | .config | .initConfig | .showConfig => []

/-- The subcommands of a command. -/
def subcommands : Command → List (String × Command)
  | .program => [("serve", .serve), ("build", .build), ("config", .config)]
  | .config => [("init", .initConfig), ("show", .showConfig)]
  | _ => []

/-- Whether a command takes arguments that are not options. -/
def takesWords : Command → Bool
  | .serve | .build => true
  | _ => false

/-- The option with a long name. -/
def ofLong? (c : Command) (name : String) : Option Opt :=
  c.options.find? (·.long = name)

/-- The option with a letter. -/
def ofLetter? (c : Command) (letter : Char) : Option Opt :=
  c.options.find? (·.letter? = some letter)

/-- What asking for help with a subcommand comes to: the help, unless there is no such subcommand.
    -/
def helpOn : Command → List String → UsageError
  | _, [] => .help
  | c, name :: rest =>
    match c.subcommands.lookup name with
    | some sub => sub.helpOn rest
    | none =>
      if name = "help" ∧ c.subcommands ≠ [] ∧ rest = [] then .help else .invalidSubcommand

end Command

/-! ## §2 What has been seen -/

/-- Arguments that have been read but not yet checked. -/
inductive Pending where
  | nothing
  /-- An option that takes a value, with the value if it has been read. -/
  | option (o : Opt) (value : Option String)
  | words (words : List String)
  deriving DecidableEq, Repr

/-- What has been seen of the arguments of one command. -/
structure Seen where
  values : List (Opt × String)
  /-- How often the option for more output was given. -/
  verbosity : Nat
  words : List String
  pending : Pending
  /-- Whether `--` has been seen. -/
  wordsOnly : Bool
  deriving DecidableEq, Repr

namespace Seen

/-- Nothing has been seen yet. -/
def start : Seen :=
  ⟨[], 0, [], .nothing, false⟩

/-- The value of an option. -/
def value? (s : Seen) (o : Opt) : Option String :=
  s.values.lookup o

/-- Whether the user has given any option. -/
def hasOptions (s : Seen) : Bool :=
  s.values != [] || s.verbosity != 0

/-- Gives an option a value; it must not have one. -/
def give (s : Seen) (o : Opt) (value : String) : Except UsageError Seen :=
  if (s.value? o).isSome then .error .repeated
  else do
    o.check value
    return { s with values := s.values ++ [(o, value)] }

/-- Checks what is pending. -/
def settle (s : Seen) : Except UsageError Seen :=
  match s.pending with
  | .nothing => .ok s
  | .option _ none => .error .invalidValue
  | .option o (some value) => { s with pending := .nothing }.give o value
  | .words words =>
    if words.contains "" then .error .invalidValue
    else .ok { s with pending := .nothing, words := s.words ++ words }

/-- Takes an argument that is no option. -/
def addWord (s : Seen) (word : String) : Except UsageError Seen :=
  match s.pending with
  | .words words => .ok { s with pending := .words (words ++ [word]) }
  | _ => do return { (← s.settle) with pending := .words [word] }

/-- Whether the next argument is the value of an option. -/
def wantsValue (s : Seen) : Bool :=
  match s.pending with
  | .option _ none => true
  | _ => false

/-- Takes the value of the option that wants one. -/
def addValue (s : Seen) (value : String) : Seen :=
  match s.pending with
  | .option o none => { s with pending := .option o (some value) }
  | _ => s

/-- Takes an option without a value. -/
def flag (s : Seen) (o : Opt) : Except UsageError Seen := do
  let s ← s.settle
  match o with
  | .help => .error .help
  | .version => .error .version
  | _ => return { s with verbosity := min 255 (s.verbosity + 1) }

/-- Takes an option that takes a value, given with it or not. -/
def valued (s : Seen) (o : Opt) (value : Option String) : Except UsageError Seen := do
  let s ← s.settle
  match value with
  | some v => s.give o v
  | none => return { s with pending := .option o none }

end Seen

/-! ## §3 One argument -/

/-- Takes an option by its long name, from after the dashes. -/
def scanLong (c : Command) (s : Seen) (cs : List Char) : Except UsageError Seen :=
  let name := String.ofList (cs.takeWhile (· != '='))
  let value := match cs.dropWhile (· != '=') with
    | _ :: v => some (String.ofList v)
    | [] => none
  match c.ofLong? name with
  | none => .error .unknownArgument
  | some o =>
    if o.takesValue then s.valued o value
    else if value.isSome then .error .unwantedValue
    else s.flag o

/-- Takes options by their letters, from after the dash. -/
def scanLetters (c : Command) : Seen → List Char → Except UsageError Seen
  | s, [] => .ok s
  | s, letter :: rest =>
    match c.ofLetter? letter with
    | none => .error .unknownArgument
    | some o =>
      if o.takesValue then
        s.valued o (match rest with
          | [] => none
          | '=' :: v => some (String.ofList v)
          | v => some (String.ofList v))
      else
        match s.flag o with
        | .ok s => scanLetters c s rest
        | .error e => .error e

/-- Takes an argument that is neither an option nor a subcommand. -/
def scanWord (c : Command) (s : Seen) (word : String) : Except UsageError Seen :=
  if c.takesWords then s.addWord word
  else if c.subcommands = [] then .error .unknownArgument
  else if s.wordsOnly ∧ ((c.subcommands.lookup word).isSome ∨ word = "help") then
    .error .unknownArgument
  else .error .invalidSubcommand

/-! ## §4 All arguments -/

/-- Scans the arguments of a command. Stops at a subcommand and gives it with the arguments after
    it. -/
def scan (c : Command) :
    Seen → List String → Except UsageError (Seen × Option (Command × List String))
  | s, [] => .ok (s, none)
  | s, argument :: rest =>
    let next (s : Except UsageError Seen) :
        Except UsageError (Seen × Option (Command × List String)) :=
      match s with
      | .ok s => scan c s rest
      | .error e => .error e
    if s.wordsOnly then next (scanWord c s argument)
    else
      match (if s.wantsValue then none else c.subcommands.lookup argument) with
      | some sub => .ok (s, some (sub, rest))
      | none =>
        if !s.wantsValue ∧ argument = "help" ∧ c.subcommands ≠ [] then .error (c.helpOn rest)
        else match argument.toList with
          | ['-', '-'] => next (.ok { s with wordsOnly := true })
          | '-' :: '-' :: cs => next (scanLong c s cs)
          | '-' :: d :: cs => next (scanLetters c s (d :: cs))
          | _ => next (if s.wantsValue then .ok (s.addValue argument) else scanWord c s argument)

end AssetServer.CommandLine
