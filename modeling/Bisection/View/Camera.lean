import Bisection.View.Draw
import Bisection.View.Input

namespace Bisection.View

structure Camera where
  distance : Float32
  yaw : Float32
  pitch : Float32
  target : Vec3 := ⟨0, 0, 0⟩
  zoomSpeed : Float32 := 5
  minDistance : Float32 := 10
  maxDistance : Float32 := 200

/-- The nearest number between two limits; an undefined one stays. There is none if the limits are not in order. -/
def clamp? (x lo hi : Float32) : Option Float32 :=
  if lo ≤ hi then some (if x < lo then lo else if hi < x then hi else x) else none

namespace Camera

def orbit (distance yaw pitch : Float32) : Camera := { distance, yaw, pitch }

def withZoom (c : Camera) (speed nearest farthest : Float32) : Camera :=
  { c with zoomSpeed := speed, minDistance := nearest, maxDistance := farthest }

def withTarget (c : Camera) (target : Vec3) : Camera := { c with target }

def framing? (field : Box) : Option Camera := do
  let (center, size) ← blockOf? field
  let diagonal := size.length
  return ((orbit (diagonal * 1.2) 0.6 0.4).withZoom (diagonal * 0.05) (diagonal * 0.2) (diagonal * 4)).withTarget center

/-- Turns by the mouse, within the limits, zooms by the wheel, within the limits, and then turns by the keys. -/
def update? (c : Camera) (input : Input) : Option Camera := do
  let yaw := if input.dragging then c.yaw - input.delta.x * 2 else c.yaw
  let pitch := if input.dragging then c.pitch - input.delta.y * 2 else c.pitch
  let pitch ← clamp? pitch (-1.5) 1.5
  let distance ← clamp? (c.distance - input.wheel.y * c.zoomSpeed) c.minDistance c.maxDistance
  let yaw := if input.held.contains .left then yaw + 0.02 else yaw
  let yaw := if input.held.contains .right then yaw - 0.02 else yaw
  let pitch := if input.held.contains .up then pitch + 0.02 else pitch
  let pitch := if input.held.contains .down then pitch - 0.02 else pitch
  return { c with distance, yaw, pitch }

def position (c : Camera) : Vec3 :=
  c.target.add ⟨c.distance * cosine c.pitch * sine c.yaw, c.distance * sine c.pitch,
    c.distance * cosine c.pitch * cosine c.yaw⟩

def up : Vec3 := ⟨0, 1, 0⟩

def draw (c : Camera) : Draw := .camera c.position c.target up

end Camera

end Bisection.View
