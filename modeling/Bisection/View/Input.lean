import Bisection.View.Vector

namespace Bisection.View

inductive Key where
  | l
  | u
  | p
  | r
  | left
  | right
  | up
  | down
  deriving DecidableEq, Repr

structure Input where
  pressed : List Key := []
  held : List Key := []
  dragging : Bool := false
  delta : Vec2 := ⟨0, 0⟩
  wheel : Vec2 := ⟨0, 0⟩
  size : Vec2 := ⟨800, 600⟩
  framesPerSecond : Int := 60

end Bisection.View
