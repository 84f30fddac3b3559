import Bisection.Area
import Bisection.Number.Layout

namespace Bisection.Document

/-- One line for every leaf: number, bounds, label, and how many points it kept. -/
def writeLeaf (n : Node) : String :=
  s!"id: {n.id}, " ++
    String.join (n.bounds.low.zipIdx.map fun (v, d) => s!"bottom[{d}]: {numberText v}, ") ++
    String.join (n.bounds.high.zipIdx.map fun (v, d) => s!"top[{d}]: {numberText v}, ") ++
    s!"prefix: {n.label}, nodes left: {n.pointCount}\n"

def writeLeaves (p : Partition) : String := String.join (p.leaves.map writeLeaf)

def squareWalk : List (List Side) :=
  let l := Side.lower
  let u := Side.upper
  [[l, l], [l, u], [u, u], [u, l], [l, l]]

/-- A walk along all edges of a block: the three faces at its lowest corner, then the three others. -/
def cubeWalk : List (List Side) :=
  let l := Side.lower
  let u := Side.upper
  [[l, l, l], [l, u, l], [u, u, l], [u, l, l], [l, l, l],
    [l, l, l], [l, l, u], [u, l, u], [u, l, l], [l, l, l],
    [l, l, l], [l, l, u], [l, u, u], [l, u, l], [l, l, l],
    [l, l, u], [l, u, u], [u, u, u], [u, l, u], [l, l, u], [l, u, u],
    [l, u, l], [l, u, u], [u, u, u], [u, u, l], [l, u, l], [u, u, l],
    [u, l, l], [u, l, u], [u, u, u], [u, u, l], [u, l, l]]

def corner (b : Box) (sides : List Side) : Point :=
  List.zipWith (fun side (lo, hi) => if side = .lower then lo else hi) sides (b.low.zip b.high)

def writePoint (p : Point) : String := " ".intercalate (p.map numberText) ++ "\n"

def writeOutline (walk : List (List Side)) (gap : String) (n : Node) : String :=
  String.join (walk.map fun sides => writePoint (corner n.bounds sides)) ++ gap

def plottable (p : Partition) : Except Error Unit :=
  if p.dimensions = 2 ∨ p.dimensions = 3 then .ok () else .error (.unsupportedPlotDimensions p.dimensions)

def writeOutlines (p : Partition) : Except Error String := do
  plottable p
  if p.dimensions = 2 then
    return String.join (p.leaves.map (writeOutline squareWalk "\n"))
  else
    return String.join (p.leaves.map (writeOutline cubeWalk "\n\n"))

def writePoints (p : Partition) : Except Error String := do
  plottable p
  return String.join (p.input.points.map writePoint)

def deliver (limit : Option Nat) (text : String) : Except Error String :=
  if limit.all (text.utf8ByteSize ≤ ·) then .ok text else .error (.io .sinkFull)

end Bisection.Document
