import AssetServer.Text.Quoted

/-!
# Values of the wrong form

Manifests and configurations are values of some format first and get their meaning second. Here is
what can be wrong with a well-formed value: it has another type than the one expected, or a part of
it is missing.
-/

namespace AssetServer

/-- A value as messages name it when another type is expected. -/
inductive Found where
  | null
  | boolean (b : Bool)
  | integer (n : Int)
  /-- A number that is no integer of 64 bits, with its text. -/
  | float (text : String)
  | string (text : String)
  | sequence
  | map
  deriving DecidableEq, Repr

/-- How messages word a value of the wrong type. -/
def Found.message : Found → String
  | .null => "null"
  | .boolean b => "boolean `" ++ toString b ++ "`"
  | .integer n => "integer `" ++ toString n ++ "`"
  | .float text => "floating point `" ++ text ++ "`"
  | .string text => "string " ++ Text.quoted text
  | .sequence => "sequence"
  | .map => "map"

/-- What is wrong with the form of a value. -/
inductive Mismatch where
  | missingField (name : String)
  | wrongType (found : Found) (expected : String)
  /-- A record written as a list is too short. -/
  | wrongLength (length : Nat) (expected : String)
  deriving DecidableEq, Repr

/-- How messages word a mismatch. -/
def Mismatch.message : Mismatch → String
  | .missingField name => "missing field `" ++ name ++ "`"
  | .wrongType found expected => "invalid type: " ++ found.message ++ ", expected " ++ expected
  | .wrongLength n expected => "invalid length " ++ toString n ++ ", expected " ++ expected

end AssetServer
