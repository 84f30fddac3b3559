import Bisection.Xml.Content

namespace Bisection.Xml

/-- The namespace of an attribute: none without a prefix, a fixed one for the prefix `xml`, or a declared one. -/
inductive Space where
  | none
  | xml
  | declared (uri : String)
  deriving DecidableEq, Repr

structure Attribute where
  space : Space
  name : String
  value : String
  deriving DecidableEq, Repr

inductive Node where
  | element (name : String) (attributes : List Attribute) (children : List Node)
  | text (content : String)
  | comment (content : String)
  | instruction (target content : String)

structure Element where
  name : String
  attributes : List Attribute
  children : List Node

namespace Node

def element? : Node → Option Element
  | .element name attributes children => some ⟨name, attributes, children⟩
  | _ => none

end Node

namespace Element

def attribute? (e : Element) (name : String) : Option String :=
  (e.attributes.find? fun a => a.space == .none && a.name == name).map Attribute.value

/-- The first child if it is text; nothing after a comment, an instruction or an element counts. -/
def leadingText (e : Element) : String :=
  match e.children with
  | .text content :: _ => content
  | _ => ""

def childrenNamed (e : Element) (name : String) : List Element :=
  (e.children.filterMap Node.element?).filter fun c => c.name == name

end Element

def xmlSpace : String := "http://www.w3.org/XML/1998/namespace"

def xmlnsSpace : String := "http://www.w3.org/2000/xmlns/"

abbrev Scope := List (String × String)

/-- The namespace declarations among the attributes of one tag. The prefix `xml` has its own namespace and may be
declared with it any number of times, no other prefix may have it, none may have that of `xmlns`, and any other
prefix is declared at most once. -/
def declarations? : List (QName × String) → Option Scope
  | [] => some []
  | (q, uri) :: rest => do
    let more ← declarations? rest
    if q.space == "xmlns" then
      if uri == xmlnsSpace || (q.name == "xml") != (uri == xmlSpace) || more.any (·.1 == q.name) then none
      else if uri == xmlSpace then some more
      else some ((q.name, uri) :: more)
    else if q.name == "xmlns" && (uri == xmlSpace || uri == xmlnsSpace) then none
    else some more

def isDeclaration (q : QName) : Bool := q.space == "xmlns" || q.name == "xmlns"

def resolve? (scope : Scope) : List (QName × String) → Option (List Attribute)
  | [] => some []
  | (q, value) :: rest => do
    let more ← resolve? scope rest
    if isDeclaration q then some more
    else
      let space ← if q.space == "" then some Space.none
        else if q.space == "xml" then some .xml
        else (scope.lookup q.space).map .declared
      if more.any fun a => a.space == space && a.name == q.name then none
      else some (⟨space, q.name, value⟩ :: more)

structure Frame where
  name : QName
  scope : Scope
  attributes : List Attribute
  reversed : List Node

namespace Frame

def add (f : Frame) (n : Node) : Frame := { f with reversed := n :: f.reversed }

def extend (f : Frame) (s : String) : Frame :=
  match f.reversed with
  | .text t :: before => { f with reversed := .text (t ++ s) :: before }
  | _ => f.add (.text s)

def node (f : Frame) : Node := .element f.name.name f.attributes f.reversed.reverse

end Frame

def enter? (scope : Scope) (attributes : List (QName × String)) : Option (Scope × List Attribute) := do
  let scope := (← declarations? attributes) ++ scope
  return (scope, ← resolve? scope attributes)

def openFrame? (scope : Scope) (name : QName) (attributes : List (QName × String)) : Option Frame := do
  let (scope, attributes) ← enter? scope attributes
  if name.space != "" && (scope.lookup name.space).isNone then none
  else some ⟨name, scope, attributes, []⟩

/-- Why a document has no element tree: it is not well formed, or an entity closed so much that an end tag found no
element open. -/
inductive Fault where
  | malformed
  | unmatchedEnd
  deriving DecidableEq, Repr

/-- Where a document stands: the open elements, innermost first; the first element outside of all others, once it
is complete; whether the last node is text that more text extends; and the attributes of tags that had no end, which
go to the next tag. -/
structure Progress where
  frames : List Frame := []
  root : Option Element := none
  joining : Bool := false
  pending : List (QName × String) := []

namespace Progress

def scope (p : Progress) : Scope := (p.frames.head?.map Frame.scope).getD []

def add (p : Progress) (n : Node) : Progress :=
  match p.frames with
  | f :: rest => { p with frames := f.add n :: rest, joining := false }
  | [] => { p with root := p.root.or n.element?, joining := false }

def addText (p : Progress) (s : String) : Progress :=
  match p.frames with
  | f :: rest => { p with frames := (if p.joining then f.extend s else f.add (.text s)) :: rest, joining := true }
  | [] => { p with joining := true }

/-- A start tag. One without an end only leaves its attributes behind. -/
def start? (p : Progress) (name : QName) (attributes : List (QName × String)) (ending : TagEnd) : Option Progress :=
  let attributes := p.pending ++ attributes
  if name.space == "xmlns" then none
  else
    match ending with
    | .missing => (declarations? attributes).map fun _ => { p with pending := attributes, joining := false }
    | .opened =>
      (openFrame? p.scope name attributes).map fun f =>
        { p with frames := f :: p.frames, pending := [], joining := false }
    | .closed => (openFrame? p.scope name attributes).map fun f => { p.add f.node with pending := [] }

def stop (p : Progress) (name : QName) : Except Fault Progress :=
  match enter? p.scope p.pending, p.frames with
  | none, _ => .error .malformed
  | some _, [] => .error .unmatchedEnd
  | some _, f :: rest =>
    if name == f.name then .ok ({ p with frames := rest, pending := [] }.add f.node) else .error .malformed

def step (p : Progress) : Event → Except Fault Progress
  | .start name attributes ending =>
    match p.start? name attributes ending with
    | some p => .ok p
    | none => .error .malformed
  | .stop name => p.stop name
  | .text s => .ok (p.addText s)
  | .comment s => .ok (p.add (.comment s))
  | .instruction target s => .ok (p.add (.instruction target s))
  | .fault => .error .malformed

def finish (p : Progress) : Except Fault Element :=
  match p.frames, p.root with
  | [], some root => .ok root
  | _, _ => .error .malformed

end Progress

end Bisection.Xml
