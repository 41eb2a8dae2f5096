import AssetServer.Mismatch
import AssetServer.Text.Shortest

/-!
# TOML values

What a TOML text says, and reading it by expectation: a value that is not of the expected type is
named in the message.
-/

namespace AssetServer.Toml

/-- A value. Tables keep their entries in the order in which they were written. -/
inductive Value where
  | string (text : String)
  | integer (n : Int)
  /-- A double, by its bits. -/
  | float (bits : Nat)
  | boolean (b : Bool)
  /-- A date, a time or both. -/
  | dateTime (text : String)
  | list (items : List Value)
  | table (entries : List (String × Value))
  deriving Repr, Inhabited

/-- The key under which a date is read where a table is expected. -/
def dateKey : String := "$__toml_private_datetime"

namespace Value

/-- A value as messages name it. -/
def found : Value → Found
  | .string text => .string text
  | .integer n => .integer n
  | .float bits => .float (Text.showBits Text.positional bits)
  | .boolean b => .boolean b
  | .dateTime _ => .map
  | .list _ => .sequence
  | .table _ => .map

/-- A value where another type is expected. -/
def refuse {α : Type} (expected : String) (v : Value) : Except Mismatch α :=
  .error (.wrongType v.found expected)

/-- A string. -/
def asText : Value → Except Mismatch String
  | .string text => .ok text
  | v => v.refuse "a string"

/-- A truth value. -/
def asFlag : Value → Except Mismatch Bool
  | .boolean b => .ok b
  | v => v.refuse "a boolean"

/-- A list of strings. -/
def asTexts : Value → Except Mismatch (List String)
  | .list items => items.mapM asText
  | v => v.refuse "a sequence"

/-- A table of strings, its keys in the order of their bytes. -/
def asTextTable : Value → Except Mismatch (List (String × String))
  | .table entries => entries.mapM fun (k, v) => v.asText.map (k, ·)
  | .dateTime text => .ok [(dateKey, text)]
  | v => v.refuse "a map"

/-- A record with named fields: a table with some of the fields, or a list of the first fields in
    their own order. `member` reads one field into the state. A date is a table of one entry. -/
def asRecord {ε σ : Type} (refused : Mismatch → ε) (label : String) (fields : List String)
    (member : String → Value → σ → Except ε σ) (start : σ) (v : Value) : Except ε σ :=
  match v with
  | .table entries => entries.foldlM (fun s (k, v) => member k v s) start
  | .list items => (fields.zip items).foldlM (fun s (k, v) => member k v s) start
  | .dateTime text => member dateKey (.string text) start
  | v => .error (refused (.wrongType v.found ("struct " ++ label)))

end Value

end AssetServer.Toml
