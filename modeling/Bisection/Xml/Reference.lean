import Bisection.Xml.Token

namespace Bisection.Xml

/-- A character as it stands, a character or an entity referred to, or an ampersand that begins no reference. -/
inductive Piece where
  | literal (c : Char)
  | character (c : Char)
  | entity (name : String)
  | broken
  deriving DecidableEq, Repr

def isHexDigit (c : Char) : Bool := c.isDigit || ('a' ≤ c && c ≤ 'f') || ('A' ≤ c && c ≤ 'F')

def hexDigitValue (c : Char) : Nat :=
  if c.isDigit then c.toNat - '0'.toNat else c.toLower.toNat - 'a'.toNat + 10

def charOfNumber? (n : Nat) : Option Char :=
  if n < UInt32.size then
    let c := if n.isValidChar then Char.ofNat n else '\uFFFD'
    if isChar c then some c else none
  else none

def numbered? (base : Nat) (digits : List Char) : Option Piece :=
  if digits.isEmpty then none
  else (charOfNumber? (digits.foldl (fun n c => base * n + hexDigitValue c) 0)).map .character

def named (name : String) : Piece :=
  match name with
  | "quot" => .character '"'
  | "amp" => .character '&'
  | "apos" => .character '\''
  | "lt" => .character '<'
  | "gt" => .character '>'
  | _ => .entity name

def referenceBody? : List Char → Option (Piece × List Char)
  | '#' :: 'x' :: cs => (numbered? 16 (cs.takeWhile isHexDigit)).map (·, cs.dropWhile isHexDigit)
  | '#' :: cs => (numbered? 10 (cs.takeWhile Char.isDigit)).map (·, cs.dropWhile Char.isDigit)
  | cs => (name? cs).map fun (name, rest) => (named name, rest)

def reference? (cs : List Char) : Option (Piece × List Char) :=
  match referenceBody? cs with
  | some (piece, ';' :: rest) => some (piece, rest)
  | _ => none

theorem length_referenceBody? {cs rest : List Char} {p : Piece} (h : referenceBody? cs = some (p, rest)) :
    rest.length ≤ cs.length := by
  unfold referenceBody? at h
  split at h
  · rename_i cs
    simp only [Option.map_eq_some_iff, Prod.mk.injEq] at h
    obtain ⟨_, -, -, rfl⟩ := h
    have := (List.dropWhile_suffix (l := cs) isHexDigit).length_le
    simp only [List.length_cons]
    omega
  · rename_i cs _
    simp only [Option.map_eq_some_iff, Prod.mk.injEq] at h
    obtain ⟨_, -, -, rfl⟩ := h
    have := (List.dropWhile_suffix (l := cs) Char.isDigit).length_le
    simp only [List.length_cons]
    omega
  · simp only [Option.map_eq_some_iff, Prod.exists, Prod.mk.injEq] at h
    obtain ⟨n, r, hn, -, rfl⟩ := h
    exact Nat.le_of_lt (length_name? hn)

theorem length_reference? {cs rest : List Char} {p : Piece} (h : reference? cs = some (p, rest)) :
    rest.length < cs.length := by
  unfold reference? at h
  split at h
  · rename_i hb
    have := length_referenceBody? hb
    grind
  · simp at h

/-- Text with its references told apart from the rest, up to the first broken one. -/
def pieces : List Char → List Piece
  | [] => []
  | '&' :: cs =>
    match h : reference? cs with
    | some (p, rest) =>
      have := length_reference? h
      p :: pieces rest
    | none => [.broken]
  | c :: cs => .literal c :: pieces cs
termination_by cs => cs.length

end Bisection.Xml
