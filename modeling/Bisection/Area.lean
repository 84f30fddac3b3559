import Bisection.Partition.Query

namespace Bisection

structure Area where
  bounds : Box
  label : String

structure AreaList where
  dimensions : Nat
  areas : List Area

namespace AreaList

def labelAt? (l : AreaList) (p : Point) : Option String :=
  if p.length = l.dimensions then (l.areas.find? fun a => a.bounds.contains p).map Area.label else none

def same (l m : AreaList) : Bool :=
  l.dimensions == m.dimensions && l.areas.length == m.areas.length &&
    (l.areas.zip m.areas).all fun (a, b) => a.label == b.label && a.bounds.same b.bounds

end AreaList

namespace Partition

def areas (p : Partition) : AreaList :=
  ⟨p.dimensions, p.leaves.map fun n => ⟨n.bounds, n.label⟩⟩

end Partition

end Bisection
