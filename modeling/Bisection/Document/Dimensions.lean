import Bisection.Error
import Bisection.Number.Reading
import Bisection.Text.Blank
import Bisection.Xml.Document

namespace Bisection.Document

open Xml (Element)

def trimmed (s : String) : List Char := Text.trim s.toList

def parse (allowDoctype : Bool) (text : String) : Except Error Element :=
  match Xml.parse allowDoctype text with
  | .ok root => .ok root
  | .error .malformed => .error .markup
  | .error .unmatchedEnd => .error .unmatchedEnd

def dimensions (root : Element) : Except Error Nat :=
  match root.attribute? "dimensions" with
  | none => .error (.missingDimensions root.name)
  | some text =>
    match readNatural? (trimmed text) with
    | none => .error (.invalidNumber .dimensions text)
    | some 0 => .error .zeroDimensions
    | some n => .ok n

/-- The finite number that the text of an element begins with; blanks around it are ignored. -/
def number (place : NumberPlace) (e : Element) : Except Error Float :=
  match readFloat? (trimmed e.leadingText) with
  | some x =>
    if x.isFinite then .ok x else .error (.invalidNumber place (String.ofList (trimmed e.leadingText)))
  | none => .error (.invalidNumber place (String.ofList (trimmed e.leadingText)))

end Bisection.Document
