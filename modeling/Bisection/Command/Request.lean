import Bisection.Command.Arguments

namespace Bisection

structure PartitionOptions where
  nodeFile : String
  config : Config := {}
  listLeaves : Bool := false
  writeAreas : Bool := true
  plot : Bool := false
  outDirectory : Option String := none

inductive Command where
  | partition (options : PartitionOptions)
  | lookup (areaFile : String) (point : Point)

namespace Command

def helpSwitch : Switch := { name := "help", letter := some 'h', takesValue := false }

def verboseSwitch : Switch := { name := "verbose", letter := some 'v', takesValue := false, repeatable := true }

def partitionSwitches : List Switch :=
  [{ name := "minnodes", letter := some 'n', takesValue := true },
    { name := "maxprefix", letter := some 'p', takesValue := true },
    { name := "fieldsize", letter := some 'f', takesValue := true },
    { name := "debug", letter := some 'd', takesValue := false },
    { name := "noxml", letter := some 'X', takesValue := false },
    { name := "plot", letter := some 'P', takesValue := false },
    { name := "out-dir", letter := none, takesValue := true }, verboseSwitch, helpSwitch]

def valueOr {α : Type} (g : Given) (name : String) (read : List Char → Option α) (default : α) : Except Halt α :=
  match g.value? name with
  | none => .ok default
  | some text =>
    match read text.toList with
    | some value => .ok value
    | none => .error .refused

def readName? (cs : List Char) : Option (Option String) :=
  if cs.isEmpty then none else some (some (String.ofList cs))

def readPartition (args : List String) : Except Halt Command := do
  let g ← scanArguments partitionSwitches none {} args
  match g.operands with
  | [nodeFile] =>
    if nodeFile.isEmpty then throw .refused
    let maxDepth ← valueOr g "maxprefix" readNatural? 32
    let minPoints ← valueOr g "minnodes" readNatural? 1
    let fieldSize ← valueOr g "fieldsize" readFloat? 1000
    let outDirectory ← valueOr g "out-dir" readName? none
    return .partition
      { nodeFile, config := ⟨maxDepth, minPoints, fieldSize⟩, listLeaves := g.has "debug",
        writeAreas := !g.has "noxml", plot := g.has "plot", outDirectory }
  | _ => throw .refused

def readLookup (args : List String) : Except Halt Command := do
  let g ← scanArguments [verboseSwitch, helpSwitch] (some 1) {} args
  match g.operands with
  | areaFile :: coordinates =>
    if areaFile.isEmpty || coordinates.isEmpty then throw .refused
    match coordinates.mapM fun c => readFloat? c.toList with
    | some point => return .lookup areaFile point
    | none => throw .refused
  | [] => throw .refused

def readHelp (args : List String) : Halt :=
  match args with
  | [] | ["partition"] | ["lookup"] | ["help"] => .help
  | _ => .refused

/-- Switches before the name of the command, then the command with its own arguments. -/
def read (args : List String) : Except Halt Command :=
  match args with
  | [] => .error .refused
  | arg :: args =>
    match arg.toList with
    | '-' :: '-' :: cs =>
      if cs.isEmpty then .error .refused
      else
        match h : addName [verboseSwitch, helpSwitch] {} cs args with
        | .error e => .error e
        | .ok (_, rest) =>
          have := length_addName h
          read rest
    | '-' :: c :: cs =>
      match h : addLetters [verboseSwitch, helpSwitch] {} (c :: cs) args with
      | .error e => .error e
      | .ok (_, rest) =>
        have := length_addLetters h
        read rest
    | _ =>
      if arg == "partition" then readPartition args
      else if arg == "lookup" then readLookup args
      else if arg == "help" then .error (readHelp args)
      else .error .refused
termination_by args.length

end Command

end Bisection
