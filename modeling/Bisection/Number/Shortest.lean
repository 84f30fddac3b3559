import Bisection.Number.Decimal

namespace Bisection.Decimal

structure Neighbours where
  lower : Decimal
  upper : Decimal
  upperWins : Bool

def neighbours (b : Binary) (e : Int) : Neighbours :=
  let n := b.numerator * Nat.pow 10 (-e).toNat
  let d := b.denominator * Nat.pow 10 e.toNat
  ⟨⟨n / d, e⟩, ⟨n / d + 1, e⟩, d ≤ 2 * (n % d)⟩

def Neighbours.pick? (g : Neighbours) (x : Float) : Option Decimal :=
  let near := if g.upperWins then g.upper else g.lower
  let far := if g.upperWins then g.lower else g.upper
  if near.toFloat == x then some near else if far.toFloat == x then some far else none

/-- Refines the grid `10 ^ e` until one of its points next to `b` reads back as `x`. -/
def search (b : Binary) (x : Float) : Nat → Int → Decimal
  | 0, _ => b.toDecimal
  | fuel + 1, e =>
    match (neighbours b e).pick? x with
    | some d => d
    | none => search b x fuel (e - 1)

def topExponent (b : Binary) : Int :=
  if b.denominator ≤ b.numerator then
    (Nat.toDigits 10 (b.numerator / b.denominator)).length
  else
    1 - ((Nat.toDigits 10 (b.denominator / b.numerator)).length : Int)

/-- The magnitude of a finite double in the fewest digits that read back, the nearest such decimal and
the larger of two equally near. Seventeen digits always suffice. -/
def shortest (x : Float) : Decimal :=
  let b := Binary.ofFloat x
  if b.mantissa = 0 then ⟨0, 0⟩ else search b x.abs 18 (topExponent b)

end Bisection.Decimal
