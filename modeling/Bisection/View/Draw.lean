import Bisection.View.Hash
import Bisection.View.Vector

namespace Bisection.View

structure Color where
  r : Float32
  g : Float32
  b : Float32
  a : Float32

namespace Color

def ofBytes (r g b a : Nat) : Color :=
  let channel (n : Nat) : Float32 := Float32.ofNat n / 255
  ⟨channel r, channel g, channel b, channel a⟩

def white : Color := ⟨1, 1, 1, 1⟩

def darkGray : Color := ⟨0.31, 0.31, 0.31, 1⟩

def yellow : Color := ⟨0.99, 0.98, 0, 1⟩

def green : Color := ⟨0, 0.89, 0.19, 1⟩

def orange : Color := ⟨1, 0.63, 0, 1⟩

/-- The color of an area: three bytes of the hash of its label, none of them too dark. -/
def ofLabel (label : String) : Color :=
  let hash := hashText label
  let channel (shift : UInt64) : Nat := max ((hash >>> shift) &&& 0xff).toNat 60
  ofBytes (channel 16) (channel 8) (channel 0) 255

end Color

inductive Draw where
  | clear (color : Color)
  | rect (x y w h : Float32) (color : Color)
  | rectLines (x y w h thickness : Float32) (color : Color)
  | circle (x y r : Float32) (color : Color)
  | cube (center size : Vec3) (color : Color)
  | cubeWires (center size : Vec3) (color : Color)
  | text (content : String) (x y size : Float32) (color : Color)
  | camera (position target up : Vec3)
  | defaultCamera

end Bisection.View
