namespace Bisection

/-- The place of a double in the total order: negative before positive, `-0.0` before `0.0`. -/
def rank (x : Float) : Int :=
  let bits := x.toBits.toNat
  if bits < 0x8000000000000000 then bits else 0x7FFFFFFFFFFFFFFF - (bits : Int)

def larger (x y : Float) : Float :=
  if x < y || x.isNaN then y else x

def smaller (x y : Float) : Float :=
  if y < x || x.isNaN then y else x

end Bisection
