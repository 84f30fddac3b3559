import Bisection.Partition.Query
import Bisection.View.Draw

namespace Bisection.View

structure Rect where
  x : Float32
  y : Float32
  w : Float32
  h : Float32

/-- A map from the plane to the screen, whose second axis points down. -/
structure Viewport where
  fieldMin : Vec2
  scale : Float32
  origin : Vec2

def epsilon : Float32 := Float32.ofBits 0x34000000

namespace Viewport

/-- Fits a field into a screen with a margin, without distortion and in the middle. -/
def fit? (field : Box) (width height margin : Float32) : Option Viewport := do
  let low ← Vec2.ofPoint? field.low
  let high ← Vec2.ofPoint? field.high
  let extent : Vec2 := ⟨high.x - low.x, high.y - low.y⟩
  let free : Vec2 := ⟨larger (width - 2 * margin) 1, larger (height - 2 * margin) 1⟩
  let scale := smaller (free.x / larger extent.x epsilon) (free.y / larger extent.y epsilon)
  let used : Vec2 := ⟨extent.x * scale, extent.y * scale⟩
  return ⟨low, scale, ⟨margin + (free.x - used.x) / 2, margin + (free.y - used.y) / 2 + used.y⟩⟩

def toScreen (v : Viewport) (p : Vec2) : Vec2 :=
  ⟨v.origin.x + (p.x - v.fieldMin.x) * v.scale, v.origin.y - (p.y - v.fieldMin.y) * v.scale⟩

def rect? (v : Viewport) (b : Box) : Option Rect := do
  let low := v.toScreen (← Vec2.ofPoint? b.low)
  let high := v.toScreen (← Vec2.ofPoint? b.high)
  return ⟨smaller low.x high.x, smaller low.y high.y, (high.x - low.x).abs, (high.y - low.y).abs⟩

end Viewport

def drawLeafPlane? (n : Node) (v : Viewport) (highlighted : Bool) : Option (List Draw) := do
  let r ← v.rect? n.bounds
  if highlighted then
    let color := Color.ofLabel n.label
    return [.rect r.x r.y r.w r.h { color with a := 0.35 }, .rectLines r.x r.y r.w r.h 1.5 color]
  else return [.rectLines r.x r.y r.w r.h 1 .darkGray]

def drawLeafSpace? (n : Node) (highlighted : Bool) : Option (List Draw) := do
  let (center, size) ← blockOf? n.bounds
  return [.cubeWires center size (if highlighted then Color.ofLabel n.label else Color.ofBytes 60 60 60 255)]

def drawPointsPlane? (p : Partition) (v : Viewport) : Option (List Draw) :=
  p.input.points.mapM fun q => do
    let s := v.toScreen (← Vec2.ofPoint? q)
    return .circle s.x s.y 2.5 .white

def drawPointsSpace? (p : Partition) (size : Float32) : Option (List Draw) :=
  p.input.points.mapM fun q => do
    return .cube (← Vec3.ofPoint? q) ⟨size, size, size⟩ .white

end Bisection.View
