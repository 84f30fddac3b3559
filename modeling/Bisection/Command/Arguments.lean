import Bisection.Number.Reading
import Bisection.Partition.Config

namespace Bisection

structure Switch where
  name : String
  letter : Option Char
  takesValue : Bool
  repeatable : Bool := false

inductive Halt where
  | refused
  | help
  deriving DecidableEq, Repr

structure Given where
  switches : List (String × String) := []
  operands : List String := []

namespace Given

def has (g : Given) (name : String) : Bool := g.switches.any (·.1 == name)

def value? (g : Given) (name : String) : Option String := g.switches.lookup name

def add (g : Given) (s : Switch) (value : String) : Except Halt Given :=
  if s.name == "help" then .error .help
  else if g.has s.name && !s.repeatable then .error .refused
  else .ok { g with switches := g.switches ++ [(s.name, value)] }

def addOperand (g : Given) (operand : String) : Given := { g with operands := g.operands ++ [operand] }

end Given

/-- The rest of a dash argument that is a number: digits with one point and one exponent letter at most, neither
in front, no point in the exponent, and digits at the end of it. -/
def isNumeral (cs : List Char) : Bool :=
  let mantissa := cs.takeWhile fun c => c != 'e' && c != 'E'
  let tail := cs.dropWhile fun c => c != 'e' && c != 'E'
  let whole := mantissa.takeWhile (· != '.')
  let fraction := (mantissa.dropWhile (· != '.')).drop 1
  whole.all Char.isDigit && fraction.all Char.isDigit && (cs.isEmpty || !whole.isEmpty) &&
    (tail.isEmpty || (tail.length ≠ 1 && (tail.drop 1).all Char.isDigit))

def looseValue (args : List String) : Except Halt (String × List String) :=
  match args with
  | value :: rest => if value.startsWith "-" && value != "-" then .error .refused else .ok (value, rest)
  | [] => .error .refused

/-- The letters of one argument. The first one that takes a value has the remaining letters for it, or the next
argument. -/
def addLetters (table : List Switch) (g : Given) : List Char → List String → Except Halt (Given × List String)
  | [], args => .ok (g, args)
  | c :: cs, args =>
    match table.find? (·.letter == some c) with
    | none => .error .refused
    | some s =>
      if s.takesValue then
        match cs with
        | [] => do
          let (value, args) ← looseValue args
          return (← g.add s value, args)
        | '=' :: value => return (← g.add s (String.ofList value), args)
        | value => return (← g.add s (String.ofList value), args)
      else do
        addLetters table (← g.add s "") cs args

def addName (table : List Switch) (g : Given) (cs : List Char) (args : List String) :
    Except Halt (Given × List String) :=
  let name := String.ofList (cs.takeWhile (· != '='))
  match table.find? (·.name == name) with
  | none => .error .refused
  | some s =>
    match cs.dropWhile (· != '='), s.takesValue with
    | _ :: value, true => return (← g.add s (String.ofList value), args)
    | _ :: _, false => .error .refused
    | [], true => do
      let (value, args) ← looseValue args
      return (← g.add s value, args)
    | [], false => return (← g.add s "", args)

theorem length_looseValue {args rest : List String} {v : String} (h : looseValue args = .ok (v, rest)) :
    rest.length ≤ args.length := by
  unfold looseValue at h
  grind

theorem length_addLetters {table : List Switch} {g g' : Given} {cs : List Char} {args rest : List String}
    (h : addLetters table g cs args = .ok (g', rest)) : rest.length ≤ args.length := by
  induction cs generalizing g with
  | nil => simp [addLetters] at h; simp [h]
  | cons c cs ih =>
    unfold addLetters at h
    simp only [bind, Except.bind, pure, Except.pure] at h
    split at h
    · simp at h
    · split at h
      · split at h
        · split at h
          · simp at h
          · rename_i v hv
            have := length_looseValue hv
            split at h <;> grind
        · split at h <;> grind
        · split at h <;> grind
      · split at h
        · simp at h
        · exact ih h

theorem length_addName {table : List Switch} {g g' : Given} {cs : List Char} {args rest : List String}
    (h : addName table g cs args = .ok (g', rest)) : rest.length ≤ args.length := by
  unfold addName at h
  simp only [bind, Except.bind, pure, Except.pure] at h
  split at h
  · simp at h
  · split at h
    · split at h <;> grind
    · simp at h
    · split at h
      · simp at h
      · rename_i v hv
        have := length_looseValue hv
        split at h <;> grind
    · split at h <;> grind

/-- Sorts arguments into switches and operands. From operand `numeralsFrom` on, a negative number is an operand;
after `--` everything is. -/
def scanArguments (table : List Switch) (numeralsFrom : Option Nat) (g : Given) (args : List String) :
    Except Halt Given :=
  match args with
  | [] => .ok g
  | arg :: args =>
    match arg.toList with
    | ['-', '-'] => .ok { g with operands := g.operands ++ args }
    | '-' :: '-' :: cs =>
      match h : addName table g cs args with
      | .error e => .error e
      | .ok (g, rest) =>
        have := length_addName h
        scanArguments table numeralsFrom g rest
    | '-' :: c :: cs =>
      if numeralsFrom.any (· ≤ g.operands.length) && isNumeral (c :: cs) then
        scanArguments table numeralsFrom (g.addOperand arg) args
      else
        match h : addLetters table g (c :: cs) args with
        | .error e => .error e
        | .ok (g, rest) =>
          have := length_addLetters h
          scanArguments table numeralsFrom g rest
    | _ => scanArguments table numeralsFrom (g.addOperand arg) args
termination_by args.length

end Bisection
