import AssetServer.Level
import AssetServer.Path

/-!
# Build settings and tools

What a compilation is told besides its source: the level, the directories and files to pass on, and
which program plays each role.
-/

namespace AssetServer

/-- What every compilation is told. -/
structure Settings where
  level : Level
  /-- Search directories for the component compiler. -/
  componentIncludes : List Path
  /-- Search directories for the preprocessor. -/
  preprocessorIncludes : List Path
  /-- Search directories for the stylesheet compiler. -/
  stylesheetIncludes : List Path
  /-- Declaration files for the optimizer. -/
  externs : List Path
  /-- Flags for the preprocessor, ahead of its search directories. -/
  preprocessorFlags : List String
  deriving DecidableEq, Repr, Inhabited

/-- A program with leading arguments. -/
structure Tool where
  /-- The role the program plays, as messages name it. -/
  name : String
  program : Path
  arguments : List String
  deriving DecidableEq, Repr, Inhabited

/-- The part that a tool plays in a build. -/
inductive Role where
  | component
  | typescript
  | stylesheet
  | preprocessor
  | optimizer
  deriving DecidableEq, Repr, Inhabited

namespace Role

/-- All roles, in the order in which they are listed. -/
def all : List Role :=
  [.component, .typescript, .stylesheet, .preprocessor, .optimizer]

/-- How messages name a role. -/
def label : Role → String
  | .component => "component compiler"
  | .typescript => "typescript compiler"
  | .stylesheet => "stylesheet compiler"
  | .preprocessor => "preprocessor"
  | .optimizer => "optimizer"

/-- How the configuration names a role. -/
def key : Role → String
  | .component => "component"
  | .typescript => "typescript"
  | .stylesheet => "stylesheet"
  | .preprocessor => "preprocessor"
  | .optimizer => "optimizer"

end Role

/-- The tool for each role. -/
structure Toolchain where
  component : Tool
  typescript : Tool
  stylesheet : Tool
  preprocessor : Tool
  optimizer : Tool
  deriving DecidableEq, Repr, Inhabited

namespace Toolchain

/-- The toolchain that gives each role the tool `tool` chooses for it. -/
def ofRoles (tool : Role → Tool) : Toolchain :=
  ⟨tool .component, tool .typescript, tool .stylesheet, tool .preprocessor, tool .optimizer⟩

/-- The tool for a role. -/
def get (tools : Toolchain) : Role → Tool
  | .component => tools.component
  | .typescript => tools.typescript
  | .stylesheet => tools.stylesheet
  | .preprocessor => tools.preprocessor
  | .optimizer => tools.optimizer

/-- The tools in the order of their roles. -/
def toList (tools : Toolchain) : List Tool :=
  Role.all.map tools.get

end Toolchain

end AssetServer
