import Bisection.Number.Shortest

namespace Bisection

namespace Decimal

def positional (d : Decimal) : List Char :=
  let s := Nat.toDigits 10 d.digits
  if 0 ≤ d.exponent then
    if d.digits = 0 then s else s ++ List.replicate d.exponent.toNat '0'
  else
    let places := (-d.exponent).toNat
    if places < s.length then s.take (s.length - places) ++ '.' :: s.drop (s.length - places)
    else '0' :: '.' :: (List.replicate (places - s.length) '0' ++ s)

def scientific (d : Decimal) : List Char :=
  let s := Nat.toDigits 10 d.digits
  let point := d.exponent + (s.length : Int) - 1
  let fraction := if s.length ≤ 1 then [] else '.' :: s.drop 1
  s.take 1 ++ fraction ++ 'e' :: (toString point).toList

end Decimal

def signed (finite : Float → List Char) (x : Float) : String :=
  if x.isNaN then "NaN"
  else
    let magnitude := if x.isFinite then finite x else ['i', 'n', 'f']
    String.ofList (if isNegative x then '-' :: magnitude else magnitude)

/-- The shortest text that reads back as `x`, in positional notation. -/
def numberText (x : Float) : String := signed (fun x => (Decimal.shortest x).positional) x

/-- As `numberText`, but a whole number keeps `.0`, and magnitudes from `10 ^ 16` or below `10 ^ (-4)` have an
exponent. -/
def listingText (x : Float) : String :=
  signed (fun x =>
    let d := Decimal.shortest x
    if 1e16 ≤ x.abs || (x.abs < 1e-4 && x.abs != 0) then d.scientific
    else if 0 ≤ d.exponent then d.positional ++ ['.', '0'] else d.positional) x

def roundDiv (n d : Nat) : Nat :=
  let q := n / d
  let r := n % d
  if 2 * r < d || (2 * r == d && q % 2 == 0) then q else q + 1

/-- Three decimal places, a half going to the even digit. -/
def captionText (x : Float) : String :=
  signed (fun x =>
    let b := Binary.ofFloat x
    let thousandths := roundDiv (b.numerator * 1000) b.denominator
    let fraction := Nat.toDigits 10 (thousandths % 1000)
    Nat.toDigits 10 (thousandths / 1000) ++ '.' :: (List.replicate (3 - fraction.length) '0' ++ fraction)) x

end Bisection
