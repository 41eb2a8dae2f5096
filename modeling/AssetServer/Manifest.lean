import AssetServer.Json.Value
import AssetServer.Settings

/-!
# Bundle manifests

A bundle is described by a JSON text: files and search directories for all of its units, and the
units, each with its source and additions of its own.

- `Manifest.read` decodes a text. Unknown fields are skipped, known ones may come in any order but
  only once, and every list may be left out.
- `Manifest.unitSettings` gives the settings that one unit compiles under.
-/

namespace AssetServer

/-- One source of a bundle. -/
structure BundleUnit where
  file : String
  /-- The level the unit declares for itself. -/
  declared : Option String
  externs : List String
  includes : List String
  deriving DecidableEq, Repr, Inhabited

/-- The description of a bundle. -/
structure Manifest where
  externs : List String
  includes : List String
  units : List BundleUnit
  deriving DecidableEq, Repr, Inhabited

/-! ## §1 Reading a unit -/

namespace BundleUnit

/-- The fields of a unit that have been read. -/
structure Fields where
  file : Option String
  declared : Option (Option String)
  externs : Option (List String)
  includes : Option (List String)
  deriving DecidableEq, Repr, Inhabited

/-- Reads a field that must not have been read before. -/
def once {α σ : Type} (name : String) (old : Option α)
    (value : Bytes → Except Json.Problem (α × Bytes)) (store : α → σ) (bytes : Bytes) :
    Except Json.Problem (σ × Bytes) :=
  if old.isSome then .error (.duplicateField name)
  else match Json.afterColon value bytes with
    | .ok (a, rest) => .ok (store a, rest)
    | .error e => .error e

/-- Skips a field that is not known. -/
def unknownField {σ : Type} (state : σ) (bytes : Bytes) : Except Json.Problem (σ × Bytes) := do
  return (state, ← Json.skipValue (← Json.colon bytes))

/-- Reads one member of a unit. -/
def member (key : String) (fields : Fields) (bytes : Bytes) :
    Except Json.Problem (Fields × Bytes) :=
  let list := Json.listValue Json.stringValue
  match key with
  | "File" => once key fields.file Json.stringValue
      (fun x => { fields with file := some x }) bytes
  | "Level" => once key fields.declared Json.optionalString
      (fun x => { fields with declared := some x }) bytes
  | "Externs" => once key fields.externs list (fun x => { fields with externs := some x }) bytes
  | "Includes" => once key fields.includes list (fun x => { fields with includes := some x }) bytes
  | _ => unknownField fields bytes

/-- The unit with given fields: only the file is required. -/
def ofFields (fields : Fields) : Except Json.Problem BundleUnit :=
  match fields.file with
  | none => .error (.mismatch (.missingField "File"))
  | some file => .ok {
      file
      declared := fields.declared.join
      externs := fields.externs.getD []
      includes := fields.includes.getD [] }

/-- The rest of a unit written as an object. -/
def ofObject (bytes : Bytes) : Except Json.Problem (BundleUnit × Bytes) := do
  let (fields, rest) ← Json.members member (bytes.length + 1) true default bytes
  return (← ofFields fields, rest)

/-- The rest of a unit written as a list. -/
def ofList (bytes : Bytes) : Except Json.Problem (BundleUnit × Bytes) := do
  let list := Json.listValue Json.stringValue
  let short := .error (.mismatch (.wrongLength 0 "struct Unit with 4 elements"))
  let (file, rest) ← Json.fieldInList true Json.stringValue short bytes
  let (declared, rest) ← Json.fieldInList false Json.optionalString (.ok none) rest
  let (externs, rest) ← Json.fieldInList false list (.ok []) rest
  let (includes, rest) ← Json.fieldInList false list (.ok []) rest
  return ({ file, declared, externs, includes }, rest)

/-- A unit. -/
def value : Bytes → Except Json.Problem (BundleUnit × Bytes) :=
  Json.recordValue "Unit" ofObject ofList

/-- The level a unit asks for. -/
def level (u : BundleUnit) : Level :=
  Level.ofDeclaration u.declared

end BundleUnit

/-! ## §2 Reading a manifest -/

namespace Manifest

/-- The fields of a manifest that have been read. -/
structure Fields where
  externs : Option (List String)
  includes : Option (List String)
  units : Option (List BundleUnit)
  deriving DecidableEq, Repr, Inhabited

/-- Reads one member of a manifest. -/
def member (key : String) (fields : Fields) (bytes : Bytes) :
    Except Json.Problem (Fields × Bytes) :=
  let list := Json.listValue Json.stringValue
  match key with
  | "Externs" => BundleUnit.once key fields.externs list
      (fun x => { fields with externs := some x }) bytes
  | "Includes" => BundleUnit.once key fields.includes list
      (fun x => { fields with includes := some x }) bytes
  | "Units" => BundleUnit.once key fields.units (Json.listValue BundleUnit.value)
      (fun x => { fields with units := some x }) bytes
  | _ => BundleUnit.unknownField fields bytes

/-- The rest of a manifest written as an object. -/
def ofObject (bytes : Bytes) : Except Json.Problem (Manifest × Bytes) := do
  let (fields, rest) ← Json.members member (bytes.length + 1) true default bytes
  return ({
    externs := fields.externs.getD []
    includes := fields.includes.getD []
    units := fields.units.getD [] }, rest)

/-- The rest of a manifest written as a list. -/
def ofList (bytes : Bytes) : Except Json.Problem (Manifest × Bytes) := do
  let list := Json.listValue Json.stringValue
  let (externs, rest) ← Json.fieldInList true list (.ok []) bytes
  let (includes, rest) ← Json.fieldInList false list (.ok []) rest
  let (units, rest) ← Json.fieldInList false (Json.listValue BundleUnit.value) (.ok []) rest
  return ({ externs, includes, units }, rest)

/-- Decodes the text of a manifest. -/
def read (bytes : Bytes) : Except Json.Problem Manifest :=
  Json.document (Json.recordValue "Manifest" ofObject ofList) bytes

/-! ## §3 Settings of a unit -/

/-- The settings of one unit: the base settings at the unit's capped level, with the externs and
    includes of the manifest and then those of the unit at their ends, seen from `dir`. -/
def unitSettings (m : Manifest) (u : BundleUnit) (base : Settings) (dir : Path) : Settings :=
  let externs := (m.externs ++ u.externs).map dir.join
  let includes := (m.includes ++ u.includes).map dir.join
  { level := u.level.cappedBy base.level
    componentIncludes := base.componentIncludes ++ includes
    preprocessorIncludes := base.preprocessorIncludes ++ includes
    stylesheetIncludes := base.stylesheetIncludes ++ includes
    externs := base.externs ++ externs
    preprocessorFlags := base.preprocessorFlags }

/-- Why a bundle could not be compiled. -/
inductive Problem where
  | malformed (fault : Json.Problem)
  /-- A unit that is a bundle itself, by its place in the manifest. -/
  | nested (index : Nat) (file : String)
  /-- A problem known by its wording alone. -/
  | worded (message : String)
  deriving DecidableEq, Repr

/-- How messages word a problem. -/
def Problem.message : Problem → String
  | .malformed fault => fault.message
  | .nested index file => "unit " ++ toString index ++ " (" ++ file ++ ") is itself a bundle"
  | .worded message => message

end Manifest

end AssetServer
