import Bisection.Number.Decimal

namespace Bisection

def digitsValue (cs : List Char) : Nat :=
  cs.foldl (fun n c => 10 * n + (c.toNat - '0'.toNat)) 0

def readNatural? (cs : List Char) : Option Nat :=
  let digits := match cs with
    | '+' :: rest => rest
    | _ => cs
  if digits.isEmpty || !digits.all Char.isDigit then none
  else if digitsValue digits < UInt64.size then some (digitsValue digits)
  else none

def readExponent? : List Char → Option Int
  | [] => some 0
  | c :: rest =>
    if c == 'e' || c == 'E' then
      let (sign, digits) : Int × List Char := match rest with
        | '-' :: r => (-1, r)
        | '+' :: r => (1, r)
        | _ => (1, rest)
      if digits.isEmpty || !digits.all Char.isDigit then none else some (sign * digitsValue digits)
    else none

/-- Digits with an optional point among or beside them, at least one digit, and an optional exponent. -/
def Decimal.read? (cs : List Char) : Option Decimal :=
  let whole := cs.takeWhile Char.isDigit
  let afterWhole := cs.dropWhile Char.isDigit
  let (fraction, rest) := match afterWhole with
    | '.' :: r => (r.takeWhile Char.isDigit, r.dropWhile Char.isDigit)
    | _ => ([], afterWhole)
  if whole.isEmpty && fraction.isEmpty then none
  else (readExponent? rest).map fun e => ⟨digitsValue (whole ++ fraction), e - fraction.length⟩

def infinity : Float := Float.ofBits 0x7FF0000000000000

def undefined : Float := Float.ofBits 0x7FF8000000000000

/-- A number without a sign; `inf`, `infinity` and `nan` count, in any case. -/
def readMagnitude? (cs : List Char) : Option Float :=
  match Decimal.read? cs with
  | some d => some d.toFloat
  | none =>
    let word := String.ofList (cs.map Char.toLower)
    if word == "inf" || word == "infinity" then some infinity
    else if word == "nan" then some undefined
    else none

def readFloat? (cs : List Char) : Option Float :=
  match cs with
  | '-' :: rest => (readMagnitude? rest).map (- ·)
  | '+' :: rest => readMagnitude? rest
  | _ => readMagnitude? cs

end Bisection
