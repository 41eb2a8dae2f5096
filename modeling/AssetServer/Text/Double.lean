/-!
# The bits of doubles

From the lowest: 52 bits of a fraction, 11 bits of an exponent, and the sign.
-/

namespace AssetServer.Text

/-- How many fractions there are. -/
def fractionCount : Nat := 0x10000000000000

/-- How many exponents there are. -/
def exponentCount : Nat := 0x800

/-- The bit of the sign. -/
def signBit : Nat := 0x8000000000000000

/-- The bits of positive infinity: the last exponent with no fraction. -/
def infinityBits : Nat := 0x7FF0000000000000

end AssetServer.Text
