import AssetServer.Text.Blank

/-!
# Optimization levels

How aggressively sources are compiled. Levels are ordered `none < basic < advanced`, and the level
of a part is capped by the level of the whole.
-/

namespace AssetServer

/-- How aggressively a source is compiled. -/
inductive Level where
  | none
  | basic
  | advanced
  deriving DecidableEq, Repr, Inhabited

namespace Level

/-- The place of a level in the order. -/
def rank : Level → Nat
  | .none => 0
  | .basic => 1
  | .advanced => 2

instance : LE Level := ⟨fun a b => a.rank ≤ b.rank⟩

instance (a b : Level) : Decidable (a ≤ b) := inferInstanceAs (Decidable (a.rank ≤ b.rank))

/-- The lower of two levels: what a part compiles at under a ceiling. -/
def cappedBy (level ceiling : Level) : Level :=
  if level ≤ ceiling then level else ceiling

/-- Whether an optimizer runs at this level. -/
def optimizes (level : Level) : Bool :=
  level != .none

/-- The name of a level, as manifests write it. -/
def name : Level → String
  | .none => "None"
  | .basic => "Basic"
  | .advanced => "Advanced"

/-- The name of a level in small letters, as the configuration writes it. -/
def lowerName (level : Level) : String :=
  Text.lowerAscii level.name

/-- How messages word a text that names no level. -/
def unknown (text : String) : String :=
  "invalid optimization level: " ++ text ++ " (expected none, basic or advanced)"

/-- The level that a text names, in letters of any case. -/
def ofText? (text : String) : Option Level :=
  match Text.lowerAscii text with
  | "none" => some .none
  | "basic" => some .basic
  | "advanced" => some .advanced
  | _ => Option.none

/-- The level that a unit declares. Names are matched exactly; any other text, and no declaration,
    mean `advanced`. -/
def ofDeclaration : Option String → Level
  | some "None" => .none
  | some "Basic" => .basic
  | _ => .advanced

end Level

end AssetServer
