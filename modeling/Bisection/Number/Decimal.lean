namespace Bisection

/-- The number `digits * 10 ^ exponent`. -/
structure Decimal where
  digits : Nat
  exponent : Int
  deriving DecidableEq, Repr

namespace Decimal

/-- The nearest double, a tie going to the even mantissa; infinity beyond the largest double. -/
def toFloat (d : Decimal) : Float :=
  Float.ofModel (Float.Model.ofScientific d.digits d.exponent)

end Decimal

/-- The number `mantissa * 2 ^ exponent`. -/
structure Binary where
  mantissa : Nat
  exponent : Int
  deriving DecidableEq, Repr

namespace Binary

def ofFloat (x : Float) : Binary :=
  let bits := x.toBits.toNat
  let fraction := bits % 0x10000000000000
  let biased := bits / 0x10000000000000 % 0x800
  if biased = 0 then ⟨fraction, -1074⟩ else ⟨fraction + 0x10000000000000, biased - 1075⟩

def numerator (b : Binary) : Nat := b.mantissa * Nat.pow 2 b.exponent.toNat

def denominator (b : Binary) : Nat := Nat.pow 2 (-b.exponent).toNat

def toDecimal (b : Binary) : Decimal :=
  ⟨b.numerator * Nat.pow 5 (-b.exponent).toNat, min b.exponent 0⟩

end Binary

def isNegative (x : Float) : Bool := 0x8000000000000000 ≤ x.toBits

end Bisection
