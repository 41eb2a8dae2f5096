import AssetServer.Text.Double

/-!
# Shortest decimals

The shortest decimal that reads back as a given binary floating-point number, and the nearest to it
of those. A number is taken as `m * 2 ^ q`; the decimals that read back as it fill the interval half
way to its neighbours, with the ends if `m` is even. For one digit, two digits and so on, the two
neighbours of the number on the grid of that many digits are tried.
-/

namespace AssetServer.Text

/-- A positive binary number `significand * 2 ^ exponent`. `edge` marks a power of two, whose lower
    neighbour is half as far away as its upper one. -/
structure Binary where
  significand : Nat
  exponent : Int
  edge : Bool
  deriving DecidableEq, Repr

namespace Binary

/-- The number that the bits of a double stand for, without its sign; none for zero, infinities and
    what is no number. -/
def ofBits? (bits : Nat) : Option Binary :=
  let fraction : Nat := bits % fractionCount
  let power : Nat := bits / fractionCount % exponentCount
  if power = 0x7FF ∨ (power = 0 ∧ fraction = 0) then none
  else if power = 0 then some ⟨fraction, -1074, false⟩
  else some ⟨fraction + fractionCount, (power : Int) - 1075, fraction == 0 && 1 < power⟩

/-- Numerator over the common denominator for `n * 2 ^ exponent / 4`. -/
def numerator (b : Binary) (n : Nat) : Nat :=
  n * Nat.pow 2 b.exponent.toNat

/-- The common denominator of the number and the ends of its interval. -/
def denominator (b : Binary) : Nat :=
  4 * Nat.pow 2 (-b.exponent).toNat

/-- The decimal exponent of the leading digit: the greatest `k` with `10 ^ k` at most the number. -/
def magnitude (b : Binary) : Int :=
  let n := b.numerator (4 * b.significand)
  let d := b.denominator
  if d ≤ n then ((toString (n / d)).length : Int) - 1
  else
    let places : Nat := ((List.range 400).find? (fun j => d ≤ n * Nat.pow 10 j)).getD 0
    0 - (places : Int)

/-- A decimal `digits * 10 ^ exponent` as a fraction. -/
def fraction (digits : Nat) (exponent : Int) : Nat × Nat :=
  (digits * Nat.pow 10 exponent.toNat, Nat.pow 10 (-exponent).toNat)

/-- Whether a decimal reads back as the number. -/
def readsBack (b : Binary) (digits : Nat) (exponent : Int) : Bool :=
  let (n, d) := fraction digits exponent
  let low := b.numerator (4 * b.significand - (if b.edge then 1 else 2))
  let high := b.numerator (4 * b.significand + 2)
  let x := n * b.denominator
  if b.significand % 2 = 0 then low * d ≤ x && x ≤ high * d else low * d < x && x < high * d

/-- The grid neighbour with `count` digits that reads back, the nearer if both do; a tie goes to the
    even one. -/
def onGrid? (b : Binary) (count : Nat) : Option (Nat × Int) :=
  let exponent := b.magnitude - (count : Int) + 1
  let (unit, per) := fraction 1 exponent
  let n := b.numerator (4 * b.significand) * per
  let d := b.denominator * unit
  let low := n / d
  let twice := 2 * (n % d)
  let nearer := if twice < d ∨ (twice = d ∧ low % 2 = 0) then low else low + 1
  let farther := if nearer = low then low + 1 else low
  if b.readsBack nearer exponent then some (nearer, exponent)
  else if b.readsBack farther exponent then some (farther, exponent)
  else none

/-- Digits and exponent of the shortest decimal, without zeros at its end. -/
def shortest (b : Binary) : Nat × Int :=
  match (List.range 17).findSome? (fun i => b.onGrid? (i + 1)) with
  | some (digits, exponent) =>
    let zeros := ((toString digits).toList.reverse.takeWhile (· == '0')).length
    (digits / Nat.pow 10 zeros, exponent + zeros)
  | none => (0, 0)

end Binary

/-- A decimal in positional notation, with at least one digit on either side of the point. -/
def positional (digits : Nat) (exponent : Int) : String :=
  let text := (toString digits).toList
  let point := (text.length : Int) + exponent
  if 0 ≤ exponent then String.ofList (text ++ List.replicate exponent.toNat '0') ++ ".0"
  else if 0 < point then
    String.ofList (text.take point.toNat) ++ "." ++ String.ofList (text.drop point.toNat)
  else "0." ++ String.ofList (List.replicate (-point).toNat '0' ++ text)

/-- A decimal with one digit before the point and an exponent. -/
def scientific (digits : Nat) (exponent : Int) : String :=
  let text := (toString digits).toList
  let rest := text.drop 1
  String.ofList (text.take 1) ++ (if rest.isEmpty then "" else "." ++ String.ofList rest) ++
    "e" ++ toString ((text.length : Int) + exponent - 1)

/-- A decimal in positional notation from `10 ^ -5` up to sixteen digits before the point, otherwise
    with an exponent. -/
def compact (digits : Nat) (exponent : Int) : String :=
  let point := ((toString digits).length : Int) + exponent
  if -5 < point ∧ point ≤ 16 then positional digits exponent else scientific digits exponent

/-- The text of the double with given bits, its digits laid out by `layout`. -/
def showBits (layout : Nat → Int → String) (bits : Nat) : String :=
  let sign := if signBit ≤ bits then "-" else ""
  match Binary.ofBits? (bits % signBit) with
  | some b => let (digits, exponent) := b.shortest; sign ++ layout digits exponent
  | none =>
    if bits % signBit = 0 then sign ++ "0.0"
    else if bits % fractionCount = 0 then sign ++ "inf"
    else "NaN"

end AssetServer.Text
