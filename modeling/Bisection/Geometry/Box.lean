import Bisection.Number.Order

namespace Bisection

abbrev Point := List Float

structure Box where
  low : Point
  high : Point

def addressable (bytes count : Nat) : Bool := bytes * count < 0x8000000000000000

namespace Box

def cube (dimensions : Nat) (half : Float) : Box :=
  ⟨List.replicate dimensions (-half), List.replicate dimensions half⟩

def cube? (dimensions : Nat) (half : Float) : Option Box :=
  if addressable 8 dimensions then some (cube dimensions half) else none

def dimensions (b : Box) : Nat := b.low.length

/-- The closed box: a point on a face is inside, a point of another dimension is not. -/
def contains (b : Box) (p : Point) : Bool :=
  p.length == b.dimensions && (p.zip (b.low.zip b.high)).all fun (v, lo, hi) => lo ≤ v && v ≤ hi

def below (b : Box) (axis : Nat) (coord : Float) : Box := { b with high := b.high.set axis coord }

def above (b : Box) (axis : Nat) (coord : Float) : Box := { b with low := b.low.set axis coord }

def below? (b : Box) (axis : Nat) (coord : Float) : Option Box :=
  if axis < b.high.length then some (b.below axis coord) else none

def above? (b : Box) (axis : Nat) (coord : Float) : Option Box :=
  if axis < b.low.length then some (b.above axis coord) else none

def volume (b : Box) : Float :=
  (b.low.zip b.high).foldl (fun v (lo, hi) => v * (hi - lo)) 1

def sharedExtent (a b : Float × Float) : Float :=
  let extent := smaller a.2 b.2 - larger a.1 b.1
  if 0 < extent then extent else 0

/-- The volume of the intersection, over the dimensions that both boxes have. -/
def overlap (a b : Box) : Float :=
  (List.zipWith sharedExtent (a.low.zip a.high) (b.low.zip b.high)).foldl (· * ·) 1

/-- Equal bounds as numbers, so that `-0.0` and `0.0` are the same bound. -/
def same (a b : Box) : Bool :=
  a.low.length == b.low.length && (a.low.zip b.low).all (fun (x, y) => x == y) &&
    a.high.length == b.high.length && (a.high.zip b.high).all fun (x, y) => x == y

end Box

end Bisection
