import AssetServer.CommandLine.Scan

/-!
# Reading command lines

`CommandLine.parse` reads the arguments of the program. Options that go with every command count
where they stand last: those of a subcommand go before those of the program. A mistake after a
subcommand is reported before one that was left unchecked in front of it.
-/

namespace AssetServer.CommandLine

/-- What the options that go with every command say. -/
structure Globals where
  format : Option LogFormat
  verbosity : Nat
  deriving DecidableEq, Repr

namespace Globals

/-- What is said among the arguments of one command. -/
def ofSeen (s : Seen) : Globals where
  format := (s.value? .logFormat).map fun v => if v = "json" then .json else .text
  verbosity := s.verbosity

/-- What is said for a command and its subcommand together. -/
def orElse (inner outer : Globals) : Globals where
  format := inner.format.or outer.format
  verbosity := if inner.verbosity = 0 then outer.verbosity else inner.verbosity

end Globals

/-- The level that an option gives. -/
def levelOf? (s : Seen) : Option Level :=
  (s.value? .level).bind Level.ofText?

/-- The task that the arguments of a subcommand ask for. -/
def taskOf (c : Command) (s : Seen) : Except UsageError Task :=
  match c with
  | .serve => .ok (.serve (s.words.map Path.mk) (s.value? .address) (s.value? .mount) (levelOf? s)
      ((s.value? .exportTo).map Path.mk))
  | .build =>
    if s.words = [] then .error .missingArgument
    else .ok (.build (s.words.map Path.mk) ((s.value? .out).map Path.mk) (levelOf? s))
  | .initConfig => .ok .initConfig
  | .showConfig => .ok .showConfig
  | .program | .config =>
    .error (if s.hasOptions then .missingSubcommand else .helpForNothing)

/-- Reads the arguments of a command, in at most `depth` levels of subcommands. -/
def parseWithin : Nat → Command → List String → Except UsageError (Globals × Task)
  | 0, _, _ => .error .invalidSubcommand
  | depth + 1, c, arguments => do
    match ← scan c .start arguments with
    | (s, none) =>
      let s ← s.settle
      return (Globals.ofSeen s, ← taskOf c s)
    | (s, some (sub, rest)) =>
      let (common, task) ← parseWithin depth sub rest
      let s ← s.settle
      return (common.orElse (Globals.ofSeen s), task)

/-- Reads a command line, without the name of the program. -/
def parse (arguments : List String) : Except UsageError CommandLine := do
  let (common, task) ← parseWithin 3 .program arguments
  return ⟨common.format.getD .text, common.verbosity, task⟩

end AssetServer.CommandLine
