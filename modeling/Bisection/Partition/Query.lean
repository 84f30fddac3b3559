import Bisection.Partition.Build

namespace Bisection

namespace Table

def waitingWeight (t : Table) : List (Fin t.size) → Nat
  | [] => 0
  | i :: rest => Nat.pow 3 (t.size - i) + t.waitingWeight rest

/-- The leaves at or below the nodes that wait, from the first one on. The parts of a cut wait in front of all other
nodes, the lower one first. -/
def leavesFrom (t : Table) (pending : List (Fin t.size)) : List Node :=
  match pending with
  | [] => []
  | i :: rest =>
    match h : (t.node i).content with
    | .leaf _ => t.node i :: t.leavesFrom rest
    | .split cut l u =>
      have links := t.down i i.isLt cut l u h
      t.leavesFrom (⟨l, links.1.2⟩ :: ⟨u, links.2.2⟩ :: rest)
termination_by t.waitingWeight pending
decreasing_by
  · have : 0 < Nat.pow 3 (t.size - i) := Nat.pow_pos (by decide)
    simp only [waitingWeight]
    omega
  · have later (j : Nat) (hj : i < j) : 3 * Nat.pow 3 (t.size - j) ≤ Nat.pow 3 (t.size - i) := by
      have hexp : t.size - j + 1 ≤ t.size - i := by omega
      have hle : Nat.pow 3 (t.size - j) * 3 ≤ Nat.pow 3 (t.size - i) :=
        Nat.pow_le_pow_right (by decide : 0 < 3) hexp
      omega
    have hl := later l links.1.1
    have hu := later u links.2.1
    have : 0 < Nat.pow 3 (t.size - l) := Nat.pow_pos (by decide)
    simp only [waitingWeight]
    omega

def leavesUnder (t : Table) (i : Fin t.size) : List Node := t.leavesFrom [i]

/-- The leaf reached from a node by going to the side of each cut on which the point lies; a point on the cut
goes to the lower side. -/
def descend (t : Table) (p : Point) (i : Fin t.size) : Node :=
  match h : (t.node i).content with
  | .leaf _ => t.node i
  | .split cut l u =>
    have links := t.down i i.isLt cut l u h
    if p.getD cut.axis 0 ≤ cut.coord then t.descend p ⟨l, links.1.2⟩ else t.descend p ⟨u, links.2.2⟩
termination_by t.size - i

def pathTo (t : Table) (i : Fin t.size) : List Node :=
  match h : (t.node i).parent with
  | none => [t.node i]
  | some p =>
    have above := t.up i i.isLt p h
    t.pathTo ⟨p, Nat.lt_trans above i.isLt⟩ ++ [t.node i]
termination_by i.val

def find? (t : Table) (id : Nat) : Option (Fin t.size) := if h : id < t.size then some ⟨id, h⟩ else none

def part? (t : Table) (i : Fin t.size) (side : Side) : Option (Fin t.size) :=
  match h : (t.node i).content with
  | .leaf _ => none
  | .split cut l u =>
    have links := t.down i i.isLt cut l u h
    match side with
    | .lower => some ⟨l, links.1.2⟩
    | .upper => some ⟨u, links.2.2⟩

end Table

structure Stats where
  nodes : Nat
  leaves : Nat
  emptyLeaves : Nat
  maxDepth : Nat
  maxLeafPoints : Nat
  deriving DecidableEq, Repr

namespace Partition

def nodes (p : Partition) : List Node := p.table.nodes.toList

def dimensions (p : Partition) : Nat := p.input.dimensions

def root (p : Partition) : Node := p.table.node p.table.root

def bounds (p : Partition) : Box := p.root.bounds

def leaves (p : Partition) : List Node := p.table.leavesUnder p.table.root

def node? (p : Partition) (id : Nat) : Option Node := (p.table.find? id).map p.table.node

def leavesUnder? (p : Partition) (id : Nat) : Option (List Node) := (p.table.find? id).map p.table.leavesUnder

def pathTo (p : Partition) (id : Nat) : List Node :=
  match p.table.find? id with
  | some i => p.table.pathTo i
  | none => []

/-- The leaf that a point of the field belongs to. -/
def locate? (p : Partition) (q : Point) : Option Node :=
  if p.bounds.contains q then some (p.table.descend q p.table.root) else none

def stats (p : Partition) : Stats where
  nodes := p.nodes.length
  leaves := p.leaves.length
  emptyLeaves := (p.leaves.filter fun n => n.pointCount == 0).length
  maxDepth := (p.leaves.map Node.depth).foldl max 0
  maxLeafPoints := (p.leaves.map Node.pointCount).foldl max 0

end Partition

end Bisection
