import AssetServer.Settings

/-!
# Configuration

What a user sets once for all runs: where the tools are, how to compile, and how to serve. Every
field has a default.

- `Config.toolchain` and `Config.settings` give the tools and settings for compilations.
- `Config.override` replaces the paths of tools by values from elsewhere.
-/

namespace AssetServer

namespace Config

/-- Where a tool is. -/
structure ToolEntry where
  path : String
  /-- Arguments in front of all others. -/
  arguments : List String
  deriving DecidableEq, Repr, Inhabited

/-- Where the tools are. -/
structure Tools where
  component : ToolEntry
  typescript : ToolEntry
  stylesheet : ToolEntry
  preprocessor : ToolEntry
  optimizer : ToolEntry
  deriving DecidableEq, Repr, Inhabited

/-- How to compile. -/
structure Build where
  level : Level
  componentIncludes : List String
  preprocessorIncludes : List String
  stylesheetIncludes : List String
  externs : List String
  preprocessorFlags : List String
  deriving DecidableEq, Repr, Inhabited

/-- How to serve. -/
structure Server where
  /-- The address to listen on. -/
  address : String
  /-- The path under which the content is mounted. -/
  mount : String
  /-- The roots, highest precedence first. -/
  roots : List String
  /-- Headers of every answer, in the order of their names. -/
  headers : List (String × String)
  /-- A page for answers with status 404. -/
  notFoundPage : Option String
  /-- Whether answers may be compressed. -/
  gzip : Bool
  /-- The path that starts an export while the server runs. -/
  rebuildPath : String
  deriving DecidableEq, Repr, Inhabited

end Config

/-- A configuration. -/
structure Config where
  tools : Config.Tools
  build : Config.Build
  server : Config.Server
  deriving DecidableEq, Repr, Inhabited

namespace Config

/-! ## §1 Defaults -/

/-- The tool that is looked up under a name. -/
def ToolEntry.named (name : String) : ToolEntry :=
  ⟨name, []⟩

/-- The tools under their usual names. -/
def Tools.standard : Tools where
  component := .named "jsx"
  typescript := .named "tsc"
  stylesheet := .named "sass"
  preprocessor := .named "cpp"
  optimizer := .named "closure-compiler"

/-- Compiling without optimization. -/
def Build.standard : Build where
  level := .none
  componentIncludes := []
  preprocessorIncludes := []
  stylesheetIncludes := []
  externs := []
  preprocessorFlags := ["-P", "-CC"]

/-- Serving the working directory to this machine. -/
def Server.standard : Server where
  address := "127.0.0.1:8082"
  mount := "/"
  roots := ["."]
  headers := []
  notFoundPage := none
  gzip := true
  rebuildPath := "/_kiln/rebuild"

/-- What holds where nothing is configured. -/
def standard : Config where
  tools := .standard
  build := .standard
  server := .standard

/-! ## §2 Tools -/

namespace Tools

/-- Where the tool for a role is. -/
def get (tools : Tools) : Role → ToolEntry
  | .component => tools.component
  | .typescript => tools.typescript
  | .stylesheet => tools.stylesheet
  | .preprocessor => tools.preprocessor
  | .optimizer => tools.optimizer

/-- The tools with another one for a role. -/
def set (tools : Tools) (role : Role) (entry : ToolEntry) : Tools :=
  match role with
  | .component => { tools with component := entry }
  | .typescript => { tools with typescript := entry }
  | .stylesheet => { tools with stylesheet := entry }
  | .preprocessor => { tools with preprocessor := entry }
  | .optimizer => { tools with optimizer := entry }

@[simp] theorem get_set_self (tools : Tools) (role : Role) (entry : ToolEntry) :
    (tools.set role entry).get role = entry := by
  cases role <;> rfl

theorem get_set_of_ne (tools : Tools) {role other : Role} (entry : ToolEntry) (h : other ≠ role) :
    (tools.set role entry).get other = tools.get other := by
  cases role <;> cases other <;> first | rfl | exact absurd rfl h

end Tools

/-- The environment variable that overrides the path of a tool. -/
def overrideName : Role → String
  | .component => "KILN_JSX"
  | .typescript => "KILN_TSC"
  | .stylesheet => "KILN_SASS"
  | .preprocessor => "KILN_CPP"
  | .optimizer => "KILN_OPTIMIZER"

/-- The configuration with the paths of tools that `lookup` has other values for. Empty values do
    not count. -/
def override (c : Config) (lookup : String → Option String) : Config :=
  let step (tools : Tools) (role : Role) : Tools :=
    match lookup (overrideName role) with
    | some path =>
      if path = "" then tools else tools.set role { tools.get role with path }
    | none => tools
  { c with tools := Role.all.foldl step c.tools }

/-! ## §3 What compilations are told -/

/-- The tools for compilations. -/
def toolchain (c : Config) : Toolchain :=
  Toolchain.ofRoles fun role =>
    let entry := c.tools.get role
    ⟨role.label, ⟨entry.path⟩, entry.arguments⟩

/-- The settings for compilations. -/
def settings (c : Config) : Settings where
  level := c.build.level
  componentIncludes := c.build.componentIncludes.map Path.mk
  preprocessorIncludes := c.build.preprocessorIncludes.map Path.mk
  stylesheetIncludes := c.build.stylesheetIncludes.map Path.mk
  externs := c.build.externs.map Path.mk
  preprocessorFlags := c.build.preprocessorFlags

end Config

end AssetServer
