import AssetServer.Json.Text
import AssetServer.Text.Shortest

/-!
# Numbers in JSON texts

A number is an integer without leading zeros, with an optional fraction and an optional exponent.
Numbers that stand where another type is expected are named in messages by their value, integers of
64 bits exactly and all others as doubles.
-/

namespace AssetServer.Json

/-- Whether a byte is a decimal digit. -/
def isDigit (b : UInt8) : Bool :=
  byte '0' ≤ b && b ≤ byte '9'

/-- The value of a decimal digit. -/
def digit (b : UInt8) : Nat :=
  (b - byte '0').toNat

/-- Splits off the digits in front. -/
def digits (bytes : Bytes) : Bytes × Bytes :=
  bytes.span isDigit

/-! ## §1 Grammar -/

/-- What follows an exponent, from after its letter. -/
def skipExponent (bytes : Bytes) : Except Problem Bytes :=
  let unsigned := match bytes with
    | b :: rest => if b = byte '+' ∨ b = byte '-' then rest else bytes
    | [] => []
  match unsigned with
  | b :: rest => if isDigit b then .ok (digits rest).2 else .error .invalidNumber
  | [] => .error .invalidNumber

/-- What follows a number whose value is not needed, from after its sign. -/
def skipNumber (bytes : Bytes) : Except Problem Bytes := do
  let afterInteger ← match bytes with
    | [] => .error .invalidNumber
    | b :: rest =>
      if b = byte '0' then
        match rest with
        | c :: _ => if isDigit c then .error .invalidNumber else .ok rest
        | [] => .ok rest
      else if isDigit b then .ok (digits rest).2
      else .error .invalidNumber
  match afterInteger with
  | [] => .ok []
  | b :: rest =>
    if b = byte '.' then
      match digits rest with
      | ([], _) => .error .invalidNumber
      | (_, after) =>
        match after with
        | [] => .ok []
        | e :: more => if e = byte 'e' ∨ e = byte 'E' then skipExponent more else .ok after
    else if b = byte 'e' ∨ b = byte 'E' then skipExponent rest
    else .ok afterInteger

/-! ## §2 Values -/

/-- The greatest significand that is kept exactly. -/
def maxSignificand : Nat := 18446744073709551615

/-- The greatest size of an exponent. -/
def maxExponent : Nat := 2147483647

/-- The size of the least integer of 64 bits. -/
def minIntegerSize : Nat := 9223372036854775808

/-- A power of ten as a double. -/
def powerOfTen (n : Nat) : Float :=
  Float.ofScientific 1 false n

/-- The double for `significand * 10 ^ exponent`, scaled by at most `fuel` powers of ten; none if it
    is too large. -/
def scale? : Nat → Float → Int → Option Float
  | 0, f, _ => some f
  | fuel + 1, f, exponent =>
    if exponent.natAbs ≤ 308 then
      if 0 ≤ exponent then
        let scaled := f * powerOfTen exponent.natAbs
        if scaled.isInf then none else some scaled
      else some (f / powerOfTen exponent.natAbs)
    else if f == 0.0 then some f
    else if 0 ≤ exponent then none
    else scale? fuel (f / powerOfTen 308) (exponent + 308)

/-- The number with a sign, a significand and an exponent, as messages name it. -/
def double (positive : Bool) (significand : Nat) (exponent : Int) : Except Problem Found :=
  let fuel := exponent.natAbs / 308 + 2
  match scale? fuel significand.toFloat exponent with
  | some f => .ok (.float (Text.showBits Text.compact (if positive then f else -f).toBits.toNat))
  | none => .error .numberOutOfRange

/-- The exponent after its letter, and what follows. -/
def exponent (bytes : Bytes) : Except Problem (Int × Bytes) :=
  let (negative, unsigned) := match bytes with
    | b :: rest =>
      if b = byte '+' then (false, rest) else if b = byte '-' then (true, rest) else (false, bytes)
    | [] => (false, [])
  match unsigned with
  | [] => .error .endInValue
  | b :: _ =>
    if isDigit b then
      let (ds, rest) := digits unsigned
      let n := ds.foldl (fun n d => n * 10 + digit d) 0
      .ok (if negative then -(n : Int) else n, rest)
    else .error .invalidNumber

/-- The exponent that ends a number, if one is there, applied to its significand. -/
def finish (positive : Bool) (significand : Nat) (shift : Int) (bytes : Bytes) :
    Except Problem (Found × Bytes) :=
  match bytes with
  | b :: rest =>
    if b = byte 'e' ∨ b = byte 'E' then do
      let (e, rest) ← exponent rest
      if (maxExponent : Int) < e ∧ significand ≠ 0 then .error .numberOutOfRange
      else if e.natAbs ≤ maxExponent then return (← double positive significand (shift + e), rest)
      else return (← double positive 0 0, rest)
    else return (← double positive significand shift, bytes)
  | [] => return (← double positive significand shift, [])

/-- Takes digits into a significand as long as it is kept exactly: the significand, how many digits
    it took, and those left over. -/
def takeDigits (significand count : Nat) : Bytes → Nat × Nat × Bytes
  | [] => (significand, count, [])
  | d :: rest =>
    if maxSignificand < significand * 10 + digit d then (significand, count, d :: rest)
    else takeDigits (significand * 10 + digit d) (count + 1) rest

/-- A number, from after its sign, and what follows. -/
def number (positive : Bool) (bytes : Bytes) : Except Problem (Found × Bytes) :=
  match bytes with
  | [] => .error .endInValue
  | first :: rest =>
    if !isDigit first then .error .invalidNumber
    else
      let leadingZero := first = byte '0'
      if leadingZero ∧ rest.head?.any isDigit then .error .invalidNumber
      else
        let (whole, after) := digits bytes
        let (significand, _, left) := takeDigits 0 0 whole
        let shift : Int := left.length
        match after with
        | b :: more =>
          if b = byte '.' then
            let (places, after) := digits more
            if places = [] then
              .error (if after = [] then .endInValue else .invalidNumber)
            else
              let (significand, taken, _) := takeDigits significand 0 places
              finish positive significand (shift - taken) after
          else if b = byte 'e' ∨ b = byte 'E' ∨ left ≠ [] then
            finish positive significand shift after
          else integer significand after
        | [] => if left = [] then integer significand [] else finish positive significand shift []
where
  /-- An integer of 64 bits; beyond them, and for a negative zero, a double. -/
  integer (significand : Nat) (after : Bytes) : Except Problem (Found × Bytes) :=
    if positive then .ok (.integer significand, after)
    else if significand = 0 ∨ minIntegerSize < significand then
      match double false significand 0 with
      | .ok found => .ok (found, after)
      | .error e => .error e
    else .ok (.integer (-(significand : Int)), after)

end AssetServer.Json
