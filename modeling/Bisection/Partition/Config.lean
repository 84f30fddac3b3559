import Bisection.Geometry.PointSet

namespace Bisection

/-- No area lies deeper than `maxDepth`, a half of at most `minPoints` points is not kept, and the field reaches
from `-fieldSize` to `fieldSize` in every dimension. -/
structure Config where
  maxDepth : Nat := 32
  minPoints : Nat := 1
  fieldSize : Float := 1000

namespace Config

def validate (c : Config) : Except Error Unit :=
  if c.fieldSize.isFinite && 0 < c.fieldSize then .ok () else .error (.invalidFieldSize c.fieldSize)

def field (c : Config) (dimensions : Nat) : Box := Box.cube dimensions c.fieldSize

def field? (c : Config) (dimensions : Nat) : Option Box := Box.cube? dimensions c.fieldSize

end Config

/-- The dimension to cut at a depth, given the number of dimensions. -/
abbrev AxisRule := Nat → Nat → Nat

def roundRobin : AxisRule := fun depth dimensions => depth % dimensions

def roundRobin? (depth dimensions : Nat) : Option Nat :=
  if dimensions = 0 then none else some (roundRobin depth dimensions)

def cycle (axes : List Nat) : AxisRule := fun depth _ => axes.getD (depth % axes.length) 0

end Bisection
