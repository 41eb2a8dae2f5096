import AssetServer.Json.Problem
import AssetServer.Text.Hex
import AssetServer.Text.Utf8

/-!
# Strings in JSON texts

Strings are read as bytes and must be UTF-8 once their escapes are resolved. A string whose value is
not needed is only checked for its end, its escapes and control characters.
-/

namespace AssetServer.Json

/-- The byte of an ASCII character. -/
def byte (c : Char) : UInt8 :=
  c.toNat.toUInt8

/-- The value of a hexadecimal digit. -/
def hexDigit? (b : UInt8) : Option Nat :=
  Text.hexValue? (Char.ofNat b.toNat)

/-- Four hexadecimal digits. -/
def hexQuad : Bytes → Except Problem (Nat × Bytes)
  | a :: b :: c :: d :: rest =>
    match hexDigit? a, hexDigit? b, hexDigit? c, hexDigit? d with
    | some a, some b, some c, some d => .ok (((a * 16 + b) * 16 + c) * 16 + d, rest)
    | _, _, _, _ => .error .invalidEscape
  | _ => .error .endInString

/-- The bytes of the character with a code point. -/
def codePointBytes (n : Nat) : Bytes :=
  String.utf8EncodeChar (Char.ofNat n)

/-- The character after the letter `u` of an escape. Characters above U+FFFF are written as two
    surrogates, which must come in order and together. -/
def unicodeEscape (bytes : Bytes) : Except Problem (Bytes × Bytes) :=
  match hexQuad bytes with
  | .error e => .error e
  | .ok (high, rest) =>
    if 0xDC00 ≤ high ∧ high ≤ 0xDFFF then .error .loneSurrogate
    else if high < 0xD800 ∨ 0xDBFF < high then .ok (codePointBytes high, rest)
    else match rest with
      | [] => .error .endInString
      | b :: more =>
        if b ≠ byte '\\' then .error .halfSurrogatePair
        else match more with
          | [] => .error .endInString
          | c :: more =>
            if c ≠ byte 'u' then .error .halfSurrogatePair
            else match hexQuad more with
              | .error e => .error e
              | .ok (low, rest) =>
                if low < 0xDC00 ∨ 0xDFFF < low then .error .loneSurrogate
                else .ok (codePointBytes ((high - 0xD800) * 0x400 + (low - 0xDC00) + 0x10000), rest)

/-- What the letter of a short escape stands for. -/
def shortEscape? (b : UInt8) : Option UInt8 :=
  if b = byte '"' ∨ b = byte '\\' ∨ b = byte '/' then some b
  else if b = byte 'b' then some 0x08
  else if b = byte 'f' then some 0x0C
  else if b = byte 'n' then some 0x0A
  else if b = byte 'r' then some 0x0D
  else if b = byte 't' then some 0x09
  else none

/-- The rest of a string after its opening quote, put behind `done`, which is in reverse: the bytes
    of its value and what follows the closing quote. `fuel` bounds the number of steps. -/
def stringOnto : Nat → Bytes → Bytes → Except Problem (Bytes × Bytes)
  | 0, _, _ => .error .endInString
  | _ + 1, _, [] => .error .endInString
  | fuel + 1, done, b :: rest =>
    if b = byte '"' then .ok (done.reverse, rest)
    else if b = byte '\\' then
      match rest with
      | [] => .error .endInString
      | c :: rest =>
        if c = byte 'u' then
          match unicodeEscape rest with
          | .error e => .error e
          | .ok (bytes, rest) => stringOnto fuel (bytes.reverse ++ done) rest
        else match shortEscape? c with
          | some value => stringOnto fuel (value :: done) rest
          | none => .error .invalidEscape
    else if b < 0x20 then .error .controlCharacter
    else stringOnto fuel (b :: done) rest

/-- The rest of a string after its opening quote: its text and what follows the closing quote. -/
def string (bytes : Bytes) : Except Problem (String × Bytes) :=
  match stringOnto (bytes.length + 1) [] bytes with
  | .error e => .error e
  | .ok (value, rest) =>
    match Utf8.decode? value with
    | some text => .ok (text, rest)
    | none => .error .invalidCodePoint

/-- What follows a string whose value is not needed, from after its opening quote. -/
def skipString : Nat → Bytes → Except Problem Bytes
  | 0, _ => .error .endInString
  | _ + 1, [] => .error .endInString
  | fuel + 1, b :: rest =>
    if b = byte '"' then .ok rest
    else if b = byte '\\' then
      match rest with
      | [] => .error .endInString
      | c :: rest =>
        if c = byte 'u' then
          match hexQuad rest with
          | .error e => .error e
          | .ok (_, rest) => skipString fuel rest
        else match shortEscape? c with
          | some _ => skipString fuel rest
          | none => .error .invalidEscape
    else if b < 0x20 then .error .controlCharacter
    else skipString fuel rest

end AssetServer.Json
