import AssetServer.Config.Basic
import AssetServer.Config.Problem
import AssetServer.Toml.Document
import AssetServer.Toml.Section

/-!
# Configurations as text

A configuration is a TOML document with the tables `tools`, `build` and `server`. Whatever is left
out has its default, and keys that are not known do not count.

- `Config.ofText` reads a configuration.
- `Config.toText` writes one for people to edit: all fields, except lists of arguments without
  entries and a page that is not set.
-/

namespace AssetServer.Config

open Toml (Value)

/-- Reading a value. -/
abbrev Reading (α : Type) := Except Problem α

/-- The value of an expected form. -/
def expect {α : Type} (read : Value → Except Mismatch α) (v : Value) : Reading α :=
  match read v with
  | .ok a => .ok a
  | .error m => .error (.mismatch m)

/-! ## §1 Tools -/

namespace ToolEntry

/-- Reads one field; the path is required. -/
def member (key : String) (v : Value) (s : Option String × List String) :
    Reading (Option String × List String) :=
  match key with
  | "path" => return (some (← expect Value.asText v), s.2)
  | "args" => return (s.1, ← expect Value.asTexts v)
  | _ => return s

/-- Where a tool is. A list must hold at least the path. -/
def ofValue (v : Value) : Reading ToolEntry := do
  let (path, arguments) ←
    v.asRecord .mismatch "ToolConfig" ["path", "args"] member (none, [])
  match path, v with
  | some path, _ => return ⟨path, arguments⟩
  | none, .list _ => .error (.mismatch (.wrongLength 0 "struct ToolConfig with 2 elements"))
  | none, _ => .error (.mismatch (.missingField "path"))

end ToolEntry

namespace Tools

/-- Reads one field. -/
def member (key : String) (v : Value) (tools : Tools) : Reading Tools :=
  match Role.all.find? (·.key = key) with
  | some role => return tools.set role (← ToolEntry.ofValue v)
  | none => return tools

/-- Where the tools are. -/
def ofValue (v : Value) : Reading Tools :=
  v.asRecord .mismatch "ToolsConfig" (Role.all.map Role.key) member .standard

end Tools

/-! ## §2 Compiling -/

/-- A level, in letters of any case. -/
def levelOfValue (v : Value) : Reading Level := do
  let text ← expect Value.asText v
  match Level.ofText? text with
  | some level => return level
  | none => .error (.level text)

namespace Build

/-- The names of the fields, in order. -/
def fields : List String :=
  ["level", "component_includes", "preprocessor_includes", "stylesheet_includes", "externs",
    "preprocessor_flags"]

/-- Reads one field. -/
def member (key : String) (v : Value) (b : Build) : Reading Build :=
  match key with
  | "level" => return { b with level := ← levelOfValue v }
  | "component_includes" => return { b with componentIncludes := ← expect Value.asTexts v }
  | "preprocessor_includes" => return { b with preprocessorIncludes := ← expect Value.asTexts v }
  | "stylesheet_includes" => return { b with stylesheetIncludes := ← expect Value.asTexts v }
  | "externs" => return { b with externs := ← expect Value.asTexts v }
  | "preprocessor_flags" => return { b with preprocessorFlags := ← expect Value.asTexts v }
  | _ => return b

/-- How to compile. -/
def ofValue (v : Value) : Reading Build :=
  v.asRecord .mismatch "BuildConfig" fields member .standard

end Build

/-! ## §3 Serving -/

namespace Server

/-- The names of the fields, in order. -/
def fields : List String :=
  ["addr", "prefix", "roots", "headers", "not_found_page", "gzip", "rebuild_path"]

/-- Puts an entry into a list that is ordered by key, in place of one with the same key. -/
def insertHeader (key value : String) : List (String × String) → List (String × String)
  | [] => [(key, value)]
  | (k, v) :: rest =>
    if key < k then (key, value) :: (k, v) :: rest
    else if key = k then (key, value) :: rest
    else (k, v) :: insertHeader key value rest

/-- Headers in the order of their names. -/
def sortHeaders (headers : List (String × String)) : List (String × String) :=
  headers.foldl (fun sorted (k, v) => insertHeader k v sorted) []

/-- Reads one field. -/
def member (key : String) (v : Value) (s : Server) : Reading Server :=
  match key with
  | "addr" => return { s with address := ← expect Value.asText v }
  | "prefix" => return { s with mount := ← expect Value.asText v }
  | "roots" => return { s with roots := ← expect Value.asTexts v }
  | "headers" => return { s with headers := sortHeaders (← expect Value.asTextTable v) }
  | "not_found_page" => return { s with notFoundPage := some (← expect Value.asText v) }
  | "gzip" => return { s with gzip := ← expect Value.asFlag v }
  | "rebuild_path" => return { s with rebuildPath := ← expect Value.asText v }
  | _ => return s

/-- How to serve. -/
def ofValue (v : Value) : Reading Server :=
  v.asRecord .mismatch "ServerConfig" fields member .standard

end Server

/-! ## §4 Whole configurations -/

/-- Reads one table. -/
def member (key : String) (v : Value) (c : Config) : Reading Config :=
  match key with
  | "tools" => return { c with tools := ← Tools.ofValue v }
  | "build" => return { c with build := ← Build.ofValue v }
  | "server" => return { c with server := ← Server.ofValue v }
  | _ => return c

/-- The configuration that a document describes. -/
def ofValue (v : Value) : Reading Config :=
  v.asRecord .mismatch "AppConfig" ["tools", "build", "server"] member .standard

/-- Reads a configuration. The whole text must be a TOML document before any of it counts. -/
def ofText (text : String) : Reading Config :=
  match Toml.Document.read? text with
  | some v => ofValue v
  | none => .error .grammar

/-! ## §5 Writing -/

/-- The section of a tool. -/
def ToolEntry.toSection (role : Role) (t : ToolEntry) : Toml.Section where
  name := ["tools", role.key]
  entries := ("path", .text t.path) ::
    (if t.arguments = [] then [] else [("args", .texts t.arguments)])

/-- The section about compiling. -/
def Build.toSection (b : Build) : Toml.Section where
  name := ["build"]
  entries := [
    ("level", .text b.level.lowerName),
    ("component_includes", .texts b.componentIncludes),
    ("preprocessor_includes", .texts b.preprocessorIncludes),
    ("stylesheet_includes", .texts b.stylesheetIncludes),
    ("externs", .texts b.externs),
    ("preprocessor_flags", .texts b.preprocessorFlags)]

/-- The section about serving, without the headers. -/
def Server.toSection (s : Server) : Toml.Section where
  name := ["server"]
  entries := [("addr", .text s.address), ("prefix", .text s.mount), ("roots", .texts s.roots)] ++
    (s.notFoundPage.map fun page => ("not_found_page", Toml.Item.text page)).toList ++
    [("gzip", .flag s.gzip), ("rebuild_path", .text s.rebuildPath)]

/-- The section of the headers. -/
def Server.headerSection (s : Server) : Toml.Section where
  name := ["server", "headers"]
  entries := s.headers.map fun (k, v) => (k, .text v)

/-- The sections of a configuration. -/
def sections (c : Config) : List Toml.Section :=
  (Role.all.map fun role => (c.tools.get role).toSection role) ++
    [c.build.toSection, c.server.toSection, c.server.headerSection]

/-- Writes a configuration. -/
def toText (c : Config) : String :=
  Toml.Section.writeAll c.sections

end AssetServer.Config
