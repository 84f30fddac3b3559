import Bisection.Error

namespace Bisection

structure Report where
  message : String
  causes : List String

namespace Report

def ofError (message : String) (e : Error) : Report := ⟨message, e.message :: e.cause?.toList⟩

def plain (e : Error) : Report := ⟨e.message, e.cause?.toList⟩

def indent (first rest text : String) : String :=
  first ++ ("\n" ++ rest).intercalate (text.splitOn "\n")

def numbered (cause : String × Nat) : String :=
  let number := toString cause.2
  "\n" ++ indent ("".pushn ' ' (5 - number.length) ++ number ++ ": ") "       " cause.1

/-- The report over several lines; two or more causes are numbered. -/
def lines (r : Report) : String :=
  "Error: " ++ r.message ++
    match r.causes with
    | [] => ""
    | [cause] => "\n\nCaused by:\n" ++ indent "    " "    " cause
    | causes => "\n\nCaused by:" ++ String.join (causes.zipIdx.map numbered)

def line (r : Report) : String := ": ".intercalate (r.message :: r.causes)

end Report

end Bisection
