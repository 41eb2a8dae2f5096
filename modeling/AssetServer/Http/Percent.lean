import AssetServer.Text.Hex
import AssetServer.Text.Utf8

/-!
# Percent-encoding

Addresses write bytes that have no place in them as a percent sign and two hexadecimal digits.

- `Percent.decode` reads any bytes; a percent sign without two digits stands for itself.
- `Percent.encode` writes a path; `Percent.decode` gives its bytes back.
-/

namespace AssetServer.Http.Percent

/-- The percent sign. -/
def sign : UInt8 := 0x25

/-- The value of a hexadecimal digit. -/
def digit? (b : UInt8) : Option Nat :=
  Text.hexValue? (Char.ofNat b.toNat)

/-- The bytes that an encoded text stands for. -/
def decode : Bytes → Bytes
  | [] => []
  | [b] => [b]
  | [b, c] => [b, c]
  | b :: high :: low :: rest =>
    if b = sign then
      match digit? high, digit? low with
      | some x, some y => UInt8.ofNat (x * 16 + y) :: decode rest
      | _, _ => b :: decode (high :: low :: rest)
    else b :: decode (high :: low :: rest)

/-- Whether a byte is written with a percent sign in a path: controls, bytes outside ASCII, and what
    has a meaning of its own in addresses or around them. -/
def isEscaped (b : UInt8) : Bool :=
  b < 0x20 || 0x7F ≤ b || (" \"#%<>?`\x7b\x7d".toList.map fun c => c.toNat.toUInt8).contains b

/-- A byte as it is written. -/
def encodeByte (b : UInt8) : List Char :=
  if isEscaped b then '%' :: Text.hexDigits 2 b.toNat else [Char.ofNat b.toNat]

/-- A path as it is written in an address. -/
def encode (text : String) : String :=
  String.ofList ((Utf8.encode text).flatMap encodeByte)

end AssetServer.Http.Percent
