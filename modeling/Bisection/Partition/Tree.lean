import Bisection.Partition.Region
import Bisection.Partition.Table

namespace Bisection

inductive Tree where
  | leaf (region : Region)
  | fork (region : Region) (cut : Cut) (lower upper : Tree)

namespace Tree

def grow (config : Config) (rule : AxisRule) (r : Region) : Except Error Tree :=
  match h : r.split config rule with
  | .error e => .error e
  | .ok none => .ok (.leaf r)
  | .ok (some (cut, lower, upper)) =>
    have := Region.split_weight h
    return .fork r cut (← grow config rule lower) (← grow config rule upper)
termination_by r.weight

def region : Tree → Region
  | .leaf r => r
  | .fork r .. => r

def sizeBelow : Tree → Nat
  | .leaf _ => 0
  | .fork _ _ lower upper => 2 + lower.sizeBelow + upper.sizeBelow

def node (id : Nat) (parent : Option Nat) (first : Nat) (t : Tree) : Node where
  id := id
  parent := parent
  path := t.region.path
  bounds := t.region.bounds
  content := match t with
    | .leaf r => .leaf r.points
    | .fork _ cut .. => .split cut first (first + 1)

/-- The nodes below the root in the order of their numbers: the two parts, then all of the lower subtree, then
all of the upper one. -/
def nodesBelow (id first : Nat) : Tree → List Node
  | .leaf _ => []
  | .fork _ _ lower upper =>
    lower.node first (some id) (first + 2) :: upper.node (first + 1) (some id) (first + 2 + lower.sizeBelow) ::
      (lower.nodesBelow first (first + 2) ++ upper.nodesBelow (first + 1) (first + 2 + lower.sizeBelow))

def nodes (t : Tree) : List Node := t.node 0 none 1 :: t.nodesBelow 0 1

end Tree

end Bisection
