import AssetServer.Config.Problem
import AssetServer.Directive
import AssetServer.ExitStatus
import AssetServer.Manifest
import AssetServer.Text.Quoted

/-!
# Failures

Everything that can go wrong, by cause. `Failure.message` words a failure, `Failure.kind` tells
which part of the work it belongs to.
-/

namespace AssetServer

/-- Why something could not be done. -/
inductive Failure where
  /-- The configuration cannot be found or read. -/
  | config (fault : Config.Fault)
  /-- An operation on the file at a path failed. -/
  | file (path : Path) (cause : OsError)
  /-- No executable was found for a tool, before anything was started. -/
  | toolNotFound (tool : String) (path : Path)
  /-- A stage of a pipeline could not be started. -/
  | notStarted (stage : Nat) (program : String) (cause : OsError)
  /-- A stage of a pipeline ended without success. -/
  | stageFailed (stage : Nat) (program : String) (status : ExitStatus)
  /-- Data could not be passed into or out of a pipeline. -/
  | pipe (cause : OsError)
  /-- A manifest cannot be used. -/
  | manifest (path : Path) (problem : Manifest.Problem)
  /-- The directives of a source cannot be followed. -/
  | directive (path : Path) (problem : Directive.Problem)
  /-- Nothing is known that builds this kind of source. -/
  | unsupportedKind (kind : String) (path : Path)
  /-- A value is not one of those allowed. -/
  | invalid (message : String)
  /-- The list of roots was left in an unknown state. -/
  | rootsLost
  deriving DecidableEq, Repr

namespace Failure

/-- The level that a text names. -/
def parseLevel (text : String) : Except Failure Level :=
  match Level.ofText? text with
  | some level => .ok level
  | none => .error (.invalid (Level.unknown text))

/-- How messages word a failure. -/
def message : Failure → String
  | .config fault => "config error: " ++ fault.message
  | .file path cause => "I/O error at " ++ Text.quoted path.text ++ ": " ++ cause.message
  | .toolNotFound tool path => tool ++ " not found at " ++ Text.quoted path.text
  | .notStarted stage program cause =>
    "failed to start stage " ++ toString stage ++ " (" ++ program ++ "): " ++ cause.message
  | .stageFailed stage program status =>
    "stage " ++ toString stage ++ " (" ++ program ++ ") failed: " ++ status.message
  | .pipe cause => "pipe I/O error: " ++ cause.message
  | .manifest path problem =>
    "bad manifest " ++ Text.quoted path.text ++ ": " ++ problem.message
  | .directive path problem =>
    "directive error in " ++ Text.quoted path.text ++ ": " ++ problem.message
  | .unsupportedKind kind path =>
    "no build recipe for " ++ kind ++ " (" ++ Text.quoted path.text ++ ")"
  | .invalid m => "validation error: " ++ m
  | .rootsLost => "content roots lock poisoned"

/-- The part of the work that a failure belongs to. -/
inductive Kind where
  /-- Before what failed was running. -/
  | construction
  /-- While processes were running. -/
  | execution
  /-- While directives were followed. -/
  | directive
  /-- Outside of all that. -/
  | environment
  deriving DecidableEq, Repr

/-- How a part of the work is named. -/
def Kind.label : Kind → String
  | .construction => "construction"
  | .execution => "execution"
  | .directive => "directive"
  | .environment => "environment"

/-- Which part of the work a failure belongs to. -/
def kind : Failure → Kind
  | .toolNotFound .. | .notStarted .. | .manifest .. | .unsupportedKind .. => .construction
  | .stageFailed .. | .pipe .. => .execution
  | .directive .. => .directive
  | .config .. | .file .. | .invalid .. | .rootsLost => .environment

end Failure

end AssetServer
