import Bisection.Number.Layout
import Bisection.View.Input
import Bisection.View.Viewport

namespace Bisection

def Table.walk (t : Table) (i : Fin t.size) : Path → Fin t.size
  | [] => i
  | side :: rest =>
    match t.part? i side with
    | some j => t.walk j rest
    | none => i

namespace View

structure Navigator where
  path : Path := []

namespace Navigator

variable (nav : Navigator) (p : Partition)

def currentIndex : Fin p.table.size := p.table.walk p.table.root nav.path

def current : Node := p.table.node (nav.currentIndex p)

def leaves : List Node := p.table.leavesUnder (nav.currentIndex p)

/-- Goes to one side of the current cut; a leaf has none. Also says whether it moved. -/
def descend (side : Side) : Navigator × Bool :=
  if (nav.current p).isLeaf then (nav, false) else (⟨nav.path ++ [side]⟩, true)

def ascend : Navigator × Bool := (⟨nav.path.dropLast⟩, !nav.path.isEmpty)

def home (_ : Navigator) : Navigator := ⟨[]⟩

/-- Follows the keys in a fixed order. Each of the first three says for itself whether it moved; the last one
speaks only if it did. -/
def update (pressed : List Key) : Navigator × Bool :=
  let (nav, moved) := if pressed.contains .l then nav.descend p .lower else (nav, false)
  let (nav, moved) := if pressed.contains .u then nav.descend p .upper else (nav, moved)
  let (nav, moved) := if pressed.contains .p then nav.ascend else (nav, moved)
  if pressed.contains .r && !nav.path.isEmpty then (nav.home, true) else (nav, moved)

def drawPlane? (v : Viewport) : Option (List Draw) := do
  let all ← p.leaves.mapM fun n => drawLeafPlane? n v false
  let below ← (nav.leaves p).mapM fun n => drawLeafPlane? n v true
  return (all ++ below).flatten

def drawSpace? : Option (List Draw) := do
  let whole ← if nav.path.isEmpty then some [] else drawLeafSpace? p.root false
  let below ← (nav.leaves p).mapM fun n => drawLeafSpace? n true
  return whole ++ below.flatten

def caption (x y : Float32) : List Draw :=
  let n := nav.current p
  let name := if n.path.isEmpty then "root" else n.label
  let detail := match n.content with
    | .split cut .. => (s!"Split: dim {cut.axis} at {captionText cut.coord} | [L]ower [U]pper", Color.green)
    | .leaf _ => (s!"Leaf: {n.pointCount} nodes left", Color.orange)
  [.text s!"Subtree: {(nav.leaves p).length} areas" (x + 10) y 18 .white,
    .text s!"Prefix: {name} (depth {n.depth})" (x + 10) (y + 20) 18 .yellow,
    .text detail.1 (x + 10) (y + 40) 18 detail.2,
    .text "[P]arent | [R]oot" (x + 10) (y + 60) 16 .darkGray]

end Navigator

end View

end Bisection
