import Bisection.Command.Run

namespace Bisection

def IoFault.ofFailure (e : IO.Error) : IoFault :=
  match e with
  | .noFileOrDirectory .. => .notFound
  | .inappropriateType _ code _ =>
    -- some operations give the code with the opposite sign
    match min code (0 - code) with
    | 20 => .notDirectory
    | 21 => .isDirectory
    | _ => .other (toString e)
  | e => .other (toString e)

def readSource (path : String) : IO (Except IoFault String) := do
  try
    match String.fromUTF8? (← IO.FS.readBinFile path) with
    | some text => return .ok text
    | none => return .error .notText
  catch e => return .error (.ofFailure e)

def writeFiles : List (String × String) → IO (Option Report)
  | [] => return none
  | (path, text) :: rest => do
    try
      IO.FS.writeFile path text
    catch e =>
      return some (.notCreated path (.ofFailure e))
    writeFiles rest

def runProgram (args : List String) : IO UInt32 := do
  match Command.read args with
  | .error .refused =>
    IO.eprint usage
    return 2
  | .error .help =>
    IO.print usage
    return 0
  | .ok command =>
    let response := command.respond (← readSource command.source)
    IO.print response.printed
    let stopped ← writeFiles response.writes
    match (stopped.map Failure.report).or response.failure with
    | none => return 0
    | some (.report report) =>
      IO.eprintln report.lines
      return 1
    | some .crash => return crashCode.toUInt32

end Bisection

def main (args : List String) : IO UInt32 := Bisection.runProgram args
