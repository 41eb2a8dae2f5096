import AssetServer.Toml.Text

/-!
# Writing TOML texts

A text for people to read and edit: a table with a header for each section, an empty line between
them, one entry on a line. Lists of more than one string have a line for each string.
-/

namespace AssetServer.Toml

/-- A value that can be written as an entry. -/
inductive Item where
  | text (text : String)
  | flag (b : Bool)
  | texts (texts : List String)
  deriving DecidableEq, Repr

/-- A table with a header of its own. -/
structure Section where
  name : List String
  entries : List (String × Item)
  deriving DecidableEq, Repr

/-- A key as it is written: bare if it can be, else in quotes. -/
def keyText (key : String) : String :=
  let cs := key.toList
  if cs ≠ [] ∧ cs.all isBare then key else String.ofList ((Style.ofKey cs).write cs)

/-- A list of strings as it is written. -/
def textsText : List String → String
  | [] => "[]"
  | [one] => "[" ++ quotedText one ++ "]"
  | many => "[\n" ++ String.join (many.map fun t => "    " ++ quotedText t ++ ",\n") ++ "]"

namespace Item

/-- A value as it is written. -/
def write : Item → String
  | .text t => quotedText t
  | .flag b => if b then "true" else "false"
  | .texts ts => textsText ts

end Item

namespace Section

/-- The lines of a section. -/
def write (s : Section) : String :=
  "[" ++ ".".intercalate (s.name.map keyText) ++ "]\n" ++
    String.join (s.entries.map fun (k, v) => keyText k ++ " = " ++ v.write ++ "\n")

/-- The text of some sections. -/
def writeAll (sections : List Section) : String :=
  "\n".intercalate (sections.map write)

end Section

end AssetServer.Toml
