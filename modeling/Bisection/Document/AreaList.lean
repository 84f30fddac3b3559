import Bisection.Area
import Bisection.Document.Dimensions

namespace Bisection.Document

open Xml (Element)

inductive Bound where
  | low
  | high
  deriving DecidableEq, Repr

namespace Bound

def tag : Bound → String
  | .low => "min"
  | .high => "max"

def ofTag? : String → Option Bound
  | "min" => some .low
  | "max" => some .high
  | _ => none

def place (index : Nat) : Bound → NumberPlace
  | .low => .lowBound index
  | .high => .highBound index

def missing (dimension : Nat) : Bound → AreaFault
  | .low => .missingLow dimension
  | .high => .missingHigh dimension

end Bound

/-- What the children of an area have given so far, the latest in front: it replaces what came before. -/
structure Draft where
  low : List (Nat × Float) := []
  high : List (Nat × Float) := []
  label : Option String := none

def Draft.give (d : Draft) (b : Bound) (dimension : Nat) (v : Float) : Draft :=
  match b with
  | .low => { d with low := (dimension, v) :: d.low }
  | .high => { d with high := (dimension, v) :: d.high }

def boundDimension (dimensions index : Nat) (b : Bound) (e : Element) : Except Error Nat :=
  match e.attribute? "dimension" with
  | none => .error (.malformedArea index (.noDimension b.tag))
  | some text =>
    match readNatural? (trimmed text) with
    | none => .error (.malformedArea index (.badDimension text))
    | some d =>
      if d < dimensions then .ok d else .error (.malformedArea index (.dimensionRange d dimensions))

def Draft.add (dimensions index : Nat) (d : Draft) (e : Element) : Except Error Draft :=
  if e.name == "prefix" then .ok { d with label := some (String.ofList (trimmed e.leadingText)) }
  else
    match Bound.ofTag? e.name with
    | none => .ok d
    | some b => do
      let dimension ← boundDimension dimensions index b e
      return d.give b dimension (← number (b.place index) e)

def complete (index : Nat) (b : Bound) (given : List (Nat × Float)) (first : Nat) : Nat → Except Error Point
  | 0 => .ok []
  | count + 1 =>
    match given.lookup first with
    | none => .error (.malformedArea index (b.missing first))
    | some v => return v :: (← complete index b given (first + 1) count)

def Draft.finish (dimensions index : Nat) (d : Draft) : Except Error Area := do
  let low ← complete index .low d.low 0 dimensions
  let high ← complete index .high d.high 0 dimensions
  match d.label with
  | some label => return ⟨⟨low, high⟩, label⟩
  | none => throw (.malformedArea index .missingLabel)

def describedArea (dimensions index : Nat) (e : Element) : Except Error Area := do
  let d ← (e.children.filterMap Xml.Node.element?).foldlM (Draft.add dimensions index) {}
  d.finish dimensions index

/-- The area that an element describes. Bounds under way take sixteen bytes each. Where that is too much, no document
is long enough for all bounds of an area, and it is the room for them that is missing. -/
def readArea (dimensions index : Nat) (e : Element) : Except Error Area :=
  (describedArea dimensions index e).mapError fun error =>
    if addressable 16 dimensions then error else .beyondMemory dimensions

def readAreasFrom (dimensions index : Nat) : List Element → Except Error (List Area)
  | [] => .ok []
  | e :: rest => return (← readArea dimensions index e) :: (← readAreasFrom dimensions (index + 1) rest)

def areasOf (root : Element) : Except Error AreaList := do
  let dimensions ← dimensions root
  return ⟨dimensions, ← readAreasFrom dimensions 0 (root.childrenNamed "area")⟩

/-- The areas of an area list, which may have a document type. -/
def readAreas (text : String) : Except Error AreaList := do
  areasOf (← parse true text)

def writeBounds (b : Bound) (values : Point) : String :=
  String.join (values.zipIdx.map fun (v, d) =>
    s!"\t\t<{b.tag} dimension=\"{d}\">{numberText v}</{b.tag}>\n")

def writeArea (a : Area) : String :=
  "\t<area>\n" ++ writeBounds .low a.bounds.low ++ writeBounds .high a.bounds.high ++
    s!"\t\t<prefix>{a.label}</prefix>\n" ++ "\t</area>\n"

def writeAreas (l : AreaList) : String :=
  "<!DOCTYPE arealist SYSTEM \"areas.dtd\">\n" ++ s!"<arealist dimensions=\"{l.dimensions}\">\n" ++
    String.join (l.areas.map writeArea) ++ "</arealist>\n"

end Bisection.Document
