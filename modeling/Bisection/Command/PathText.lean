namespace Bisection.PathText

def names (path : String) : List String := path.splitToList (· == '/')

def isIdle (name : String) : Bool := name == "" || name == "."

/-- Drops idle names at the end, but never the very first name. -/
def dropIdleEnd (names : List String) : List String :=
  match names with
  | [] => []
  | first :: rest => first :: (rest.reverse.dropWhile isIdle).reverse

def fileName? (path : String) : Option String :=
  match (dropIdleEnd (names path)).getLast? with
  | some name => if isIdle name || name == ".." then none else some name
  | none => none

def directory (path : String) : String :=
  match dropIdleEnd (dropIdleEnd (names path)).dropLast with
  | [""] => "/"
  | names => "/".intercalate names

def join (directory name : String) : String :=
  if directory == "" || directory.endsWith "/" then directory ++ name else directory ++ "/" ++ name

end Bisection.PathText
