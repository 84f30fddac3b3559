import Bisection.Xml.Node

namespace Bisection.Xml

def skipMark : List Char → List Char
  | '\uFEFF' :: cs => cs
  | cs => cs

def declared? (name : String) (cs : List Char) : Option (List Char) :=
  if name.toList.isPrefixOf cs then do
    let (_, rest) ← attribute? cs
    if rest.head?.any isSpace then some (skipSpaces rest)
    else if rest.isEmpty || "?>".toList.isPrefixOf rest then some rest
    else none
  else some cs

def declaration (cs : List Char) : Option (List Char) :=
  match after? "<?xml ".toList cs with
  | none => some cs
  | some cs => do
    let cs := skipSpaces cs
    if "version".toList.isPrefixOf cs then
      let cs ← declared? "version" cs
      let cs ← declared? "encoding" cs
      let cs ← declared? "standalone" cs
      after? "?>".toList (skipSpaces cs)
    else none

def misc? (cs : List Char) : Option (List Char) :=
  if "<!--".toList.isPrefixOf (skipSpaces cs) || "<?".toList.isPrefixOf (skipSpaces cs) then
    match h : Token.next? (skipSpaces cs) with
    | none => none
    | some (_, rest) =>
      have : rest.length < cs.length := Nat.lt_of_lt_of_le (Token.length_next? h) (length_skipSpaces cs)
      misc? rest
  else some (skipSpaces cs)
termination_by cs.length

def prolog? (allowDoctype : Bool) (cs : List Char) : Option (List Entity × List Char) := do
  let cs ← misc? cs
  match after? "<!DOCTYPE".toList cs with
  | none => some ([], cs)
  | some cs =>
    if allowDoctype then
      let (entities, cs) ← doctype? cs
      some (entities, ← misc? cs)
    else none

def opening? (allowDoctype : Bool) (text : String) : Option (List Entity × List Char) := do
  prolog? allowDoctype (← declaration (skipMark text.toList))

def parseTokens (entities : List Entity) (ts : List Token) (rest : List Char) : Except Fault Element := do
  let p ← (documentEvents entities ts).foldlM Progress.step {}
  if misc? rest = some [] then p.finish else throw .malformed

/-- The root element of a document. -/
def parse (allowDoctype : Bool) (text : String) : Except Fault Element :=
  match opening? allowDoctype text with
  | none => .error .malformed
  | some (entities, cs) =>
    match tokens 0 cs with
    | (.start name as ending :: ts, rest) => parseTokens entities (.start name as ending :: ts) rest
    | _ => .error .malformed

end Bisection.Xml
