import AssetServer.Text.Hex
import AssetServer.Text.Nearest

/-!
# Numbers in TOML texts

Integers have 64 bits; in another base than ten they have no sign. Between two digits there may be
one underscore. A number with a fraction or an exponent is a double, and so are the words `inf` and
`nan`.
-/

namespace AssetServer.Toml

/-- A number. -/
inductive Number where
  | integer (n : Int)
  /-- A double, by its bits. -/
  | float (bits : Nat)
  deriving DecidableEq, Repr

/-! ## §1 Digits -/

/-- More digits, from after a digit: single underscores between them are left out. -/
def moreDigits? (isDigit : Char → Bool) : List Char → Option (List Char × List Char)
  | [] => some ([], [])
  | [c] => if c = '_' then none else if isDigit c then some ([c], []) else some ([], [c])
  | c :: d :: rest =>
    if c = '_' then
      if isDigit d then (moreDigits? isDigit (d :: rest)) else none
    else if isDigit c then (moreDigits? isDigit (d :: rest)).map fun (ds, r) => (c :: ds, r)
    else some ([], c :: d :: rest)

/-- At least one digit. -/
def digits? (isDigit : Char → Bool) : List Char → Option (List Char × List Char)
  | c :: rest => if isDigit c then moreDigits? isDigit (c :: rest) else none
  | [] => none

/-- The whole part of a decimal: no zeros in front. -/
def whole? : List Char → Option (List Char × List Char)
  | '0' :: rest => some (['0'], rest)
  | cs => digits? Char.isDigit cs

/-- The number that digits write in a base. -/
def valueOf (base : Nat) (digits : List Char) : Nat :=
  digits.foldl (fun n c => n * base + (Text.hexValue? c).getD 0) 0

/-- Whether a character is a digit in a base. -/
def isDigitIn (base : Nat) (c : Char) : Bool :=
  (Text.hexValue? c).any (· < base)

/-! ## §2 Numbers -/

/-- A sign, if there is one: whether it is a minus. -/
def sign? : List Char → Option Bool × List Char
  | '+' :: rest => (some false, rest)
  | '-' :: rest => (some true, rest)
  | cs => (none, cs)

/-- The least integer of 64 bits. -/
def minInteger : Int := -9223372036854775808

/-- The greatest integer of 64 bits. -/
def maxInteger : Int := 9223372036854775807

/-- An integer, if it has 64 bits. -/
def integer? (negative : Bool) (n : Nat) : Option Number :=
  let value : Int := if negative then -(n : Int) else n
  if minInteger ≤ value ∧ value ≤ maxInteger then some (.integer value) else none

/-- An integer in another base than ten, from after the letter that tells it. -/
def integerIn? (base : Nat) (cs : List Char) : Option (Number × List Char) := do
  let (ds, rest) ← digits? (isDigitIn base) cs
  return (← integer? false (valueOf base ds), rest)

/-- The exponent of a number, from after its letter. -/
def exponent? (cs : List Char) : Option (Int × List Char) := do
  let (sign, rest) := sign? cs
  let (ds, rest) ← digits? Char.isDigit rest
  let e : Int := valueOf 10 ds
  return (if sign = some true then -e else e, rest)

/-- The exponent that ends a number, if there is one. -/
def optionalExponent? : List Char → Option (Int × List Char)
  | c :: rest => if c = 'e' ∨ c = 'E' then exponent? rest else some (0, c :: rest)
  | [] => some (0, [])

/-- The double with a sign and the bits of its absolute value. A positive decimal must not be beyond
    the greatest double. -/
def decimal? (negative : Bool) (digits : List Char) (exponent : Int) : Option Number :=
  let bits := Text.nearestBits (valueOf 10 digits) exponent
  if negative then some (.float (Text.signBit + bits))
  else if bits = Text.infinityBits then none
  else some (.float bits)

/-- A number in base ten, from after its sign. -/
def unsigned? (negative : Bool) (cs : List Char) : Option (Number × List Char) := do
  let (whole, rest) ← whole? cs
  match rest with
  | '.' :: more =>
    let (places, more) ← digits? Char.isDigit more
    let (e, more) ← optionalExponent? more
    return (← decimal? negative (whole ++ places) (e - places.length), more)
  | c :: more =>
    if c = 'e' ∨ c = 'E' then
      let (e, more) ← exponent? more
      return (← decimal? negative whole e, more)
    else return (← integer? negative (valueOf 10 whole), rest)
  | [] => return (← integer? negative (valueOf 10 whole), [])

/-- A number. -/
def number? (cs : List Char) : Option (Number × List Char) :=
  let (sign, rest) := sign? cs
  let negative := sign = some true
  match sign, rest with
  | _, 'i' :: 'n' :: 'f' :: after =>
    some (.float ((if negative then Text.signBit else 0) + Text.infinityBits), after)
  | _, 'n' :: 'a' :: 'n' :: after => some (.float (Text.infinityBits + 1), after)
  | none, '0' :: 'x' :: digits => integerIn? 16 digits
  | none, '0' :: 'o' :: digits => integerIn? 8 digits
  | none, '0' :: 'b' :: digits => integerIn? 2 digits
  | _, _ => unsigned? negative rest

end AssetServer.Toml
