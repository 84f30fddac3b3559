import Bisection.Command.PathText
import Bisection.Error

namespace Bisection

structure FileTree where
  files : List (List String × ByteArray)
  directories : List (List String)

namespace FileTree

inductive Spot where
  | file (place : List String) (bytes : ByteArray)
  | directory
  | free (place : List String)
  | outside

def isDirectory (t : FileTree) (place : List String) : Bool :=
  place.isEmpty || t.directories.any place.isPrefixOf ||
    t.files.any fun f => place.length < f.1.length && place.isPrefixOf f.1

/-- Follows names from a directory of the tree, or from one outside of it, where every name is free. -/
def follow (t : FileTree) : Option (List String) → List String → Except IoFault Spot
  | _, [] => .ok .directory
  | none, name :: rest =>
    if PathText.isIdle name || name == ".." then t.follow none rest
    else if rest.isEmpty then .ok .outside
    else .error .notFound
  | some place, name :: rest =>
    if PathText.isIdle name then t.follow (some place) rest
    else if name == ".." then t.follow (if place.isEmpty then none else some place.dropLast) rest
    else
      let place := place ++ [name]
      match t.files.lookup place with
      | some bytes => if rest.isEmpty then .ok (.file place bytes) else .error .notDirectory
      | none =>
        if t.isDirectory place then t.follow (some place) rest
        else if rest.isEmpty then .ok (.free place)
        else .error .notFound

def find (t : FileTree) (path : String) : Except IoFault Spot :=
  if path.isEmpty then .error .notFound
  else t.follow (if path.startsWith "/" then none else some []) (PathText.names path)

def read (t : FileTree) (path : String) : Except IoFault String := do
  match ← t.find path with
  | .file _ bytes =>
    match String.fromUTF8? bytes with
    | some text => return text
    | none => throw .notText
  | .directory => throw .isDirectory
  | .free _ | .outside => throw .notFound

/-- Makes a file or replaces what it held. A file outside the tree leaves no trace in it. -/
def write (t : FileTree) (path text : String) : Except IoFault FileTree := do
  match ← t.find path with
  | .file place _ => return { t with files := t.files.map fun f => if f.1 == place then (place, text.toUTF8) else f }
  | .directory => throw .isDirectory
  | .free place => return { t with files := t.files ++ [(place, text.toUTF8)] }
  | .outside => return t

end FileTree

end Bisection
