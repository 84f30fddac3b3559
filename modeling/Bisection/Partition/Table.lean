import Bisection.Partition.Region

namespace Bisection

/-- A leaf with the points it kept, or a cut with the numbers of the two parts. -/
inductive Content where
  | leaf (points : Option PointSet)
  | split (cut : Cut) (lower upper : Nat)

structure Node where
  id : Nat
  parent : Option Nat
  path : Path
  bounds : Box
  content : Content

namespace Node

def depth (n : Node) : Nat := n.path.length

def label (n : Node) : String := n.path.label

def points (n : Node) : Option PointSet :=
  match n.content with
  | .leaf points => points
  | .split .. => none

def pointCount (n : Node) : Nat := (n.points.map PointSet.size).getD 0

def isLeaf (n : Node) : Bool :=
  match n.content with
  | .leaf _ => true
  | .split .. => false

def ofRegion (id : Nat) (parent : Option Nat) (r : Region) : Node :=
  ⟨id, parent, r.path, r.bounds, .leaf r.points⟩

end Node

structure Table where
  nodes : Array Node
  nonempty : 0 < nodes.size
  down : ∀ (i : Nat) (h : i < nodes.size) (c : Cut) (l u : Nat), nodes[i].content = .split c l u →
    (i < l ∧ l < nodes.size) ∧ i < u ∧ u < nodes.size
  up : ∀ (i : Nat) (h : i < nodes.size) (p : Nat), nodes[i].parent = some p → p < i

namespace Table

abbrev size (t : Table) : Nat := t.nodes.size

def single (r : Region) : Table where
  nodes := #[Node.ofRegion 0 none r]
  nonempty := by simp
  down := by
    intro i h c l u
    obtain rfl : i = 0 := by simpa using h
    simp [Node.ofRegion]
  up := by
    intro i h p
    obtain rfl : i = 0 := by simpa using h
    simp [Node.ofRegion]

/-- Turns node `id` into a cut and appends its two parts. -/
def cutNode (t : Table) (id : Nat) (hid : id < t.size) (cut : Cut) (lower upper : Region) : Table where
  nodes := ((t.nodes.modify id fun n => { n with content := .split cut t.size (t.size + 1) }).push
    (Node.ofRegion t.size (some id) lower)).push (Node.ofRegion (t.size + 1) (some id) upper)
  nonempty := by simp
  down := by
    intro i h c l u
    simp only [Array.getElem_push, Array.size_push, Array.size_modify, Array.getElem_modify, size] at *
    have := t.down i
    split
    · split
      · split <;> grind
      · simp [Node.ofRegion]
    · simp [Node.ofRegion]
  up := by
    intro i h p
    simp only [Array.getElem_push, Array.size_push, Array.size_modify, Array.getElem_modify, size] at *
    have := t.up i
    split
    · split
      · split <;> grind
      · simp [Node.ofRegion]; omega
    · simp [Node.ofRegion]; omega

@[simp] theorem size_cutNode (t : Table) (id : Nat) (hid : id < t.size) (cut : Cut) (lower upper : Region) :
    (t.cutNode id hid cut lower upper).size = t.size + 2 := by
  simp [cutNode, size]

def node (t : Table) (i : Fin t.size) : Node := t.nodes[i]

def root (t : Table) : Fin t.size := ⟨0, t.nonempty⟩

end Table

end Bisection
