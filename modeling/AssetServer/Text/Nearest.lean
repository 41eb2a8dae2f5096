import AssetServer.Text.Double

/-!
# Nearest doubles

The double that a decimal is read as: the nearest one, and of two equally near ones the one whose
last bit is zero.
-/

namespace AssetServer.Text

/-- The quotient `n / d` rounded to the nearest whole number, a half to the even neighbour. -/
def roundedQuotient (n d : Nat) : Nat :=
  let q := n / d
  let twice := 2 * (n % d)
  if twice < d ∨ (twice = d ∧ q % 2 = 0) then q else q + 1

/-- The bits of the double nearest to the fraction `n / d`, both positive. The spacing of doubles at
    that place is `2 ^ power`; a significand rounded up to the next power of two carries into the
    exponent by itself. -/
def nearestToFraction (n d : Nat) : Nat :=
  let guess := (Nat.log2 n : Int) - Nat.log2 d
  let atLeast : Bool := n * Nat.pow 2 (-guess).toNat ≥ d * Nat.pow 2 guess.toNat
  let magnitude := if atLeast then guess else guess - 1
  let power := max (magnitude - 52) (-1074)
  let significand := roundedQuotient (n * Nat.pow 2 (-power).toNat) (d * Nat.pow 2 power.toNat)
  min infinityBits ((power + 1074).toNat * fractionCount + significand)

/-- The bits of the double nearest to `digits * 10 ^ exponent`. Decimals far beyond the range of
    doubles are told by their length. -/
def nearestBits (digits : Nat) (exponent : Int) : Nat :=
  let length : Int := (toString digits).length
  if digits = 0 ∨ length + exponent < -330 then 0
  else if 310 < length + exponent then infinityBits
  else nearestToFraction (digits * Nat.pow 10 exponent.toNat) (Nat.pow 10 (-exponent).toNat)

end AssetServer.Text
