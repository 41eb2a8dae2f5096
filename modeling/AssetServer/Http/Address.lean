import AssetServer.Text.Split

/-!
# Addresses to listen on

An address is a host and, after its last colon, a number of 16 bits. What the host is called does
not matter here.
-/

namespace AssetServer.Http

/-- Why nothing can listen on an address. -/
inductive AddressFault where
  /-- There is no colon. -/
  | noNumber
  /-- What follows the last colon is no number of 16 bits. -/
  | badNumber
  deriving DecidableEq, Repr

/-- How messages word what is wrong with an address. -/
def AddressFault.message : AddressFault → String
  | .noNumber => "invalid socket address"
  | .badNumber => "invalid port value"

namespace Address

/-- The number that digits spell, if it has 16 bits. A plus sign may stand in front of them. -/
def number? (text : List Char) : Option Nat :=
  let digits : List Char := match text with
    | '+' :: rest => rest
    | _ => text
  let n : Nat := digits.foldl (fun n d => n * 10 + (d.toNat - '0'.toNat)) 0
  if digits ≠ [] ∧ digits.all Char.isDigit ∧ n < 0x10000 then some n else none

/-- Checks that an address ends in a number. -/
def check (address : String) : Except AddressFault Unit :=
  let parts := Text.split ':' address.toList
  if parts.length < 2 then .error .noNumber
  else if (number? (parts.getLast?.getD [])).isSome then .ok ()
  else .error .badNumber

end Address

end AssetServer.Http
