import Bisection.Xml.Doctype
import Bisection.Xml.Reference

namespace Bisection.Xml

/-- What the content of a document tells in order; nothing counts after a fault. -/
inductive Event where
  | start (name : QName) (attributes : List (QName × String)) (ending : TagEnd)
  | stop (name : QName)
  | text (content : String)
  | comment (content : String)
  | instruction (target content : String)
  | fault
  deriving DecidableEq, Repr

def maxNesting : Nat := 10

def maxReferences : Nat := 255

/-- The value of an entity, and the count of references with which it is read. References are counted inside an
entity only, from zero for each outermost one. -/
def entityAt? (entities : List Entity) (outermost : Bool) (name : String) (count : Nat) : Option (List Char × Nat) :=
  match entities.find? (·.name == name) with
  | none => none
  | some e =>
    if outermost then some (e.value, 0)
    else if count < maxReferences then some (e.value, count + 1)
    else none

/-- Literal blanks in an attribute value are spaces, and a carriage return before a newline is dropped. -/
def attributeBlank (c : Char) (next : Option Piece) : List Char :=
  if c == '\r' && next == some (.literal '\n') then []
  else if c == '\n' || c == '\r' || c == '\t' then [' ']
  else [c]

abbrev ValueReader := List Char → Nat → Option (List Char × Nat)

def attributePieces (entities : List Entity) (outermost : Bool) (inner : ValueReader) :
    List Piece → Nat → Option (List Char × Nat)
  | [], count => some ([], count)
  | piece :: rest, count => do
    let (out, count) ← match piece with
      | .literal c => some (attributeBlank c rest.head?, count)
      | .character c =>
        if outermost then some ([c], count)
        else if c == '<' then none
        else some (attributeBlank c none, count)
      | .entity name => (entityAt? entities outermost name count).bind fun (value, count) => inner value count
      | .broken => none
    let (more, count) ← attributePieces entities outermost inner rest count
    some (out ++ more, count)

def attributeValue (entities : List Entity) : Nat → ValueReader
  | 0 => fun raw count => attributePieces entities false (fun _ _ => none) (pieces raw) count
  | level + 1 => fun raw count =>
    attributePieces entities (level + 1 == maxNesting) (attributeValue entities level) (pieces raw) count

/-- Text under way, last character first. A literal character right behind a character reference is kept as it
stands. -/
structure Run where
  reversed : List Char := []
  verbatim : Bool := false

namespace Run

/-- Adds a character of a line: a carriage return becomes a newline once the next character, or the end, shows
that it is not followed by one. -/
def push (r : Run) (c : Char) (last : Bool) : Run :=
  let closing := last && c == '\r'
  match r.reversed with
  | '\r' :: before =>
    ⟨if closing then '\n' :: '\n' :: before else if c == '\n' then '\n' :: before else c :: '\n' :: before, false⟩
  | before => ⟨(if closing then '\n' else c) :: before, false⟩

def pushVerbatim (r : Run) (c : Char) (verbatim : Bool) : Run := ⟨c :: r.reversed, verbatim⟩

def events (r : Run) : List Event :=
  if r.reversed.isEmpty then [] else [.text (String.ofList r.reversed.reverse)]

end Run

abbrev ContentReader := List Char → Nat → List Event × Nat

def textPieces (entities : List Entity) (outermost : Bool) (inner : ContentReader) :
    Run → List Piece → Nat → List Event × Nat
  | run, [], count => (run.events, count)
  | _, .broken :: _, count => ([.fault], count)
  | run, .literal c :: rest, count =>
    let run := if run.verbatim then run.pushVerbatim c false else run.push c rest.isEmpty
    textPieces entities outermost inner run rest count
  | run, .character c :: rest, count =>
    let run := if outermost then run.pushVerbatim c true else run.push c rest.isEmpty
    textPieces entities outermost inner run rest count
  | run, .entity name :: rest, count =>
    match entityAt? entities outermost name count with
    | none => ([.fault], count)
    | some (value, count) =>
      let (inside, count) := inner value count
      let (more, count) := textPieces entities outermost inner {} rest count
      (run.events ++ inside ++ more, count)

def cdataText : Run → List Char → String
  | run, [] => String.ofList run.reversed.reverse
  | run, c :: rest => cdataText (run.push c rest.isEmpty) rest

def attributeValues (value : ValueReader) : List RawAttribute → Nat → Option (List (QName × String) × Nat)
  | [], count => some ([], count)
  | a :: rest, count => do
    let (v, count) ← value a.value count
    let (more, count) ← attributeValues value rest count
    some ((a.name, String.ofList v) :: more, count)

/-- The events of tokens. An end tag needs a start tag before it, in the same entity or anywhere in the document:
`started` says whether there was one. -/
def tokenEvents (entities : List Entity) (outermost : Bool) (value : ValueReader) (inner : ContentReader) :
    Bool → List Token → Nat → List Event × Nat
  | _, [], count => ([], count)
  | started, t :: rest, count =>
    let (out, started, count) : List Event × Bool × Nat := match t with
      | .start name as ending =>
        match attributeValues value as count with
        | some (as, count) => ([.start name as ending], true, count)
        | none => ([.fault], true, count)
      | .stop name => ([if started then .stop name else .fault], started, count)
      | .text raw =>
        let (events, count) := textPieces entities outermost inner {} (pieces raw) count
        (events, started, count)
      | .cdata raw => ([.text (cdataText {} raw)], started, count)
      | .comment raw => ([.comment (String.ofList raw)], started, count)
      | .instruction target raw => ([.instruction target (String.ofList raw)], started, count)
      | .broken => ([.fault], started, count)
    let (more, count) := tokenEvents entities outermost value inner started rest count
    (out ++ more, count)

/-- The content of an entity at a level of nesting; what follows the end tag of an element that the entity did
not open is dropped. -/
def entityEvents (entities : List Entity) : Nat → ContentReader
  | 0 => fun _ count => ([.fault], count)
  | level + 1 => fun raw count =>
    tokenEvents entities false (attributeValue entities level) (entityEvents entities level) false
      (tokens 1 raw).1 count

def documentEvents (entities : List Entity) (ts : List Token) : List Event :=
  (tokenEvents entities true (attributeValue entities maxNesting) (entityEvents entities maxNesting) true ts 0).1

end Bisection.Xml
