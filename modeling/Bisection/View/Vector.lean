import Bisection.Geometry.Box

namespace Bisection.View

def larger (x y : Float32) : Float32 :=
  if x < y || x.isNaN then y else x

def smaller (x y : Float32) : Float32 :=
  if y < x || x.isNaN then y else x

def sine (x : Float32) : Float32 := x.toFloat.sin.toFloat32

def cosine (x : Float32) : Float32 := x.toFloat.cos.toFloat32

structure Vec2 where
  x : Float32
  y : Float32

structure Vec3 where
  x : Float32
  y : Float32
  z : Float32

def Vec2.ofPoint? : Point → Option Vec2
  | x :: y :: _ => some ⟨x.toFloat32, y.toFloat32⟩
  | _ => none

def Vec3.ofPoint? : Point → Option Vec3
  | x :: y :: z :: _ => some ⟨x.toFloat32, y.toFloat32, z.toFloat32⟩
  | _ => none

namespace Vec3

def add (v w : Vec3) : Vec3 := ⟨v.x + w.x, v.y + w.y, v.z + w.z⟩

def sub (v w : Vec3) : Vec3 := ⟨v.x - w.x, v.y - w.y, v.z - w.z⟩

def halve (v : Vec3) : Vec3 := ⟨v.x / 2, v.y / 2, v.z / 2⟩

def length (v : Vec3) : Float32 := (v.x * v.x + v.y * v.y + v.z * v.z).sqrt

end Vec3

def blockOf? (b : Box) : Option (Vec3 × Vec3) :=
  match Vec3.ofPoint? b.low, Vec3.ofPoint? b.high with
  | some low, some high => some ((low.add high).halve, high.sub low)
  | _, _ => none

end Bisection.View
