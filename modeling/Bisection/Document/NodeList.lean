import Bisection.Document.Dimensions
import Bisection.Geometry.PointSet

namespace Bisection.Document

open Xml (Element)

mutual

def listedNodes (parent : String) : Xml.Node → List Element
  | .element name attributes children =>
    (if name == "node" && parent == "nodelist" then [⟨name, attributes, children⟩] else []) ++
      listedNodesIn name children
  | _ => []

def listedNodesIn (parent : String) : List Xml.Node → List Element
  | [] => []
  | n :: rest => listedNodes parent n ++ listedNodesIn parent rest

end

def coordinates (index : Nat) (e : Element) : Except Error Point :=
  (e.childrenNamed "coord").mapM (number (.coordinate index))

/-- Adds the points of the nodes from a given index on. A node with another number of coordinates is refused before it
becomes a point. -/
def addNodes (s : PointSet) (index : Nat) : List Element → Except Error PointSet
  | [] => .ok s
  | e :: rest => do
    let p ← coordinates index e
    if p.length = s.dimensions then addNodes (← s.push p) (index + 1) rest
    else throw (.dimensionMismatch index s.dimensions p.length)

def nodesOf (root : Element) : List Element := listedNodesIn root.name root.children

def pointsOf (root : Element) : Except Error PointSet := do
  let s ← PointSet.empty (← dimensions root)
  addNodes s 0 (nodesOf root)

/-- The points of a node list. A document type is refused. -/
def readPoints (text : String) : Except Error PointSet := do
  pointsOf (← parse false text)

end Bisection.Document
