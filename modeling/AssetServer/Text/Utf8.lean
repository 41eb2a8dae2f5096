/-!
# UTF-8

File contents are bytes and names are text, so the two meet at every file that is read as text.

- `Utf8.encode` writes text as bytes.
- `Utf8.pieces` cuts bytes into characters and broken sequences. A broken sequence is the longest
  start of a character that the bytes hold at that place, and at least one byte.
- `Utf8.decode?` accepts bytes without a broken sequence, `Utf8.decodeLossy` puts U+FFFD in place of
  each one.
-/

namespace AssetServer

/-- Raw data: what files, pipes and response bodies hold. -/
abbrev Bytes := List UInt8

namespace Utf8

/-! ## §1 Encoding -/

/-- The bytes of a text. -/
def encode (text : String) : Bytes :=
  text.toList.flatMap String.utf8EncodeChar

/-! ## §2 Decoding -/

/-- For the first byte of a longer character: how many bytes follow it, and the least and greatest
    second byte. The bounds keep out overlong forms, surrogates and values past U+10FFFF. -/
def lead? (b : UInt8) : Option (Nat × UInt8 × UInt8) :=
  if 0xC2 ≤ b ∧ b ≤ 0xDF then some (1, 0x80, 0xBF)
  else if b = 0xE0 then some (2, 0xA0, 0xBF)
  else if b = 0xED then some (2, 0x80, 0x9F)
  else if 0xE1 ≤ b ∧ b ≤ 0xEF then some (2, 0x80, 0xBF)
  else if b = 0xF0 then some (3, 0x90, 0xBF)
  else if 0xF1 ≤ b ∧ b ≤ 0xF3 then some (3, 0x80, 0xBF)
  else if b = 0xF4 then some (3, 0x80, 0x8F)
  else none

/-- The bytes that continue a character: at most `n`, the first within `low` and `high`. -/
def following (low high : UInt8) : Nat → Bytes → Bytes
  | n + 1, b :: rest =>
    if low ≤ b ∧ b ≤ high then b :: following 0x80 0xBF n rest else []
  | _, _ => []

/-- The number that a first byte and the bytes after it spell. -/
def codePoint (first : UInt8) (after : Bytes) : Nat :=
  let top := match after.length with
    | 0 => first.toNat
    | 1 => first.toNat % 0x20
    | 2 => first.toNat % 0x10
    | _ => first.toNat % 0x08
  after.foldl (fun n b => n * 0x40 + b.toNat % 0x40) top

/-- The piece at the front of `first :: rest`: its character, if it is whole, and how many bytes of
    `rest` belong to it. -/
def piece (first : UInt8) (rest : Bytes) : Option Char × Nat :=
  if first < 0x80 then (some (Char.ofNat first.toNat), 0)
  else match lead? first with
    | none => (none, 0)
    | some (n, low, high) =>
      let after := following low high n rest
      if after.length = n then (some (Char.ofNat (codePoint first after)), n)
      else (none, after.length)

/-- Cuts bytes into characters and broken sequences (`none`), put behind those in `done`, which is
    in reverse. -/
def piecesOnto (done : List (Option Char)) : Bytes → List (Option Char)
  | [] => done.reverse
  | first :: rest =>
    let (c, n) := piece first rest
    piecesOnto (c :: done) (rest.drop n)
termination_by bytes => bytes.length
decreasing_by simp only [List.length_drop, List.length_cons]; omega

/-- The characters and broken sequences of some bytes, in order. -/
def pieces (bytes : Bytes) : List (Option Char) :=
  piecesOnto [] bytes

/-- The text that some bytes encode, if they are UTF-8. -/
def decode? (bytes : Bytes) : Option String :=
  let cut := pieces bytes
  if cut.all Option.isSome then some (String.ofList (cut.filterMap id)) else none

/-- The text of some bytes, with U+FFFD for each broken sequence. -/
def decodeLossy (bytes : Bytes) : String :=
  String.ofList ((pieces bytes).map (·.getD '\uFFFD'))

end Utf8

end AssetServer
