import AssetServer.Level
import AssetServer.Path

/-!
# Command lines

What a user can ask for, the options that go with it, and the ways to get a command line wrong.
-/

namespace AssetServer

namespace CommandLine

/-- How log lines are written. -/
inductive LogFormat where
  | text
  | json
  deriving DecidableEq, Repr, Inhabited

/-- What a user asks for. -/
inductive Task where
  /-- Serve content; what is not given comes from the configuration. -/
  | serve (roots : List Path) (address mount : Option String) (level : Option Level)
      (exportTo : Option Path)
  /-- Compile all sources in some directories. -/
  | build (directories : List Path) (out : Option Path) (level : Option Level)
  | initConfig
  | showConfig
  deriving DecidableEq, Repr

/-- Why a command line does not ask for a task. -/
inductive UsageError where
  | help
  | version
  /-- Nothing is asked for at all, so the help is shown. -/
  | helpForNothing
  | missingSubcommand
  | missingArgument
  | unknownArgument
  | invalidSubcommand
  /-- A value is missing, empty, or not one of those allowed. -/
  | invalidValue
  /-- A value cannot be read. -/
  | unreadableValue
  /-- An option that takes no value has one. -/
  | unwantedValue
  /-- An option is given twice. -/
  | repeated
  deriving DecidableEq, Repr

/-- The exit code of the program: asking for help or the version is no mistake. -/
def UsageError.exitCode : UsageError → Nat
  | .help | .version => 0
  | _ => 2

/-- How an error is classified. -/
def UsageError.label : UsageError → String
  | .help => "DisplayHelp"
  | .version => "DisplayVersion"
  | .helpForNothing => "DisplayHelpOnMissingArgumentOrSubcommand"
  | .missingSubcommand => "MissingSubcommand"
  | .missingArgument => "MissingRequiredArgument"
  | .unknownArgument => "UnknownArgument"
  | .invalidSubcommand => "InvalidSubcommand"
  | .invalidValue => "InvalidValue"
  | .unreadableValue => "ValueValidation"
  | .unwantedValue => "TooManyValues"
  | .repeated => "ArgumentConflict"

end CommandLine

/-- A command line. -/
structure CommandLine where
  format : CommandLine.LogFormat
  /-- How much is logged, from 0 to 255. -/
  verbosity : Nat
  task : CommandLine.Task
  deriving DecidableEq, Repr

end AssetServer
