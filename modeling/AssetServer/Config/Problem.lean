import AssetServer.Level
import AssetServer.Mismatch
import AssetServer.Path

/-!
# Why a configuration cannot be used
-/

namespace AssetServer.Config

/-- What is wrong with the text of a configuration. -/
inductive Problem where
  /-- It is not a TOML document. -/
  | grammar
  | mismatch (mismatch : Mismatch)
  /-- It names a level that does not exist. -/
  | level (text : String)
  deriving DecidableEq, Repr

/-- How messages word a problem. -/
def Problem.message : Problem → String
  | .grammar => "syntax"
  | .mismatch m => m.message
  | .level text => "validation error: " ++ Level.unknown text

/-- Why there is no configuration. -/
inductive Fault where
  /-- The text of the file at a path is refused. -/
  | refused (path : Path) (problem : Problem)
  /-- It is not known whose configuration to use. -/
  | noHome
  /-- Another cause, in words of its own. -/
  | worded (message : String)
  deriving DecidableEq, Repr

/-- How messages word a fault. -/
def Fault.message : Fault → String
  | .refused path problem => "failed to parse " ++ path.text ++ ": " ++ problem.message
  | .noHome => "could not determine home directory"
  | .worded message => message

end AssetServer.Config
