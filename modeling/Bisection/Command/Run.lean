import Bisection.Command.FileTree
import Bisection.Command.Report
import Bisection.Command.Request
import Bisection.Document.AreaList
import Bisection.Document.Listing
import Bisection.Document.NodeList

namespace Bisection

inductive Failure where
  | report (r : Report)
  | crash

def Failure.ofError (message : String) (e : Error) : Failure :=
  if e.isCrash then .crash else .report (.ofError message e)

/-- The effects of a command, in order: text for standard output, files, and a failure at the end. -/
structure Response where
  printed : String := ""
  writes : List (String × String) := []
  failure : Option Failure := none

def Response.also (r : Response) (wanted : Bool) (files : Except Report (List (String × String))) : Response :=
  match r.failure, wanted, files with
  | none, true, .ok files => { r with writes := r.writes ++ files }
  | none, true, .error report => { r with failure := some (.report report) }
  | _, _, _ => r

namespace Command

def source : Command → String
  | .partition options => options.nodeFile
  | .lookup areaFile _ => areaFile

def load {α : Type} (context : String) (read : String → Except Error α) (content : Except IoFault String) :
    Except Failure α :=
  match content with
  | .error fault => .error (.ofError context (.io fault))
  | .ok text => (read text).mapError (.ofError context)

/-- The name of an output file: next to the node file, or in the given directory. -/
def outputPath (options : PartitionOptions) (start : String) : Except Report String :=
  match PathText.fileName? options.nodeFile with
  | none => .error ⟨options.nodeFile ++ " has no file name", []⟩
  | some name =>
    let directory := options.outDirectory.getD (PathText.directory options.nodeFile)
    .ok (PathText.join directory (start ++ name))

def plotFiles (options : PartitionOptions) (p : Partition) : Except Report (List (String × String)) :=
  match Document.writeOutlines p, Document.writePoints p with
  | .ok outlines, .ok points => do
    let outlineFile ← outputPath options "plot_areas_"
    let pointFile ← outputPath options "plot_coords_"
    return [(outlineFile, outlines), (pointFile, points)]
  | _, _ => .ok []

def areaFiles (options : PartitionOptions) (p : Partition) : Except Report (List (String × String)) := do
  let file ← outputPath options "areas_"
  return [(file, Document.writeAreas p.areas)]

def runPartition (options : PartitionOptions) (content : Except IoFault String) : Response :=
  let built := do
    let points ← load ("failed to load node list " ++ options.nodeFile) Document.readPoints content
    (Partition.build options.config points).mapError (Failure.ofError "failed to build partition")
  match built with
  | .error failure => { failure := some failure }
  | .ok p =>
    let listing : Response := { printed := if options.listLeaves then Document.writeLeaves p else "" }
    (listing.also options.plot (plotFiles options p)).also options.writeAreas (areaFiles options p)

def pointText (p : Point) : String := "[" ++ ", ".intercalate (p.map listingText) ++ "]"

def runLookup (areaFile : String) (point : Point) (content : Except IoFault String) : Response :=
  match load ("failed to read area list " ++ areaFile) Document.readAreas content with
  | .error failure => { failure := some failure }
  | .ok areas =>
    if point.length = areas.dimensions then
      match areas.labelAt? point with
      | some label => { printed := label ++ "\n" }
      | none => { failure := some (.report ⟨"no area contains " ++ pointText point, []⟩) }
    else
      { failure := some (.report ⟨s!"expected {areas.dimensions} coordinates, got {point.length}", []⟩) }

/-- What a command does, given what reading its file gave. -/
def respond (c : Command) (content : Except IoFault String) : Response :=
  match c with
  | .partition options => runPartition options content
  | .lookup areaFile point => runLookup areaFile point content

end Command

structure Outcome where
  exit : Nat
  printed : String := ""
  report : Option Report := none

def Report.notCreated (path : String) (fault : IoFault) : Report := ⟨"failed to create " ++ path, [fault.message]⟩

def FileTree.writeAll (t : FileTree) : List (String × String) → FileTree × Option Report
  | [] => (t, none)
  | (path, text) :: rest =>
    match t.write path text with
    | .ok t => t.writeAll rest
    | .error fault => (t, some (.notCreated path fault))

def usage : String :=
  "Partition node coordinates into prefix-labelled areas\n\n" ++
    "Usage: bisection [-v] partition [-n N] [-p N] [-f SIZE] [-d] [-X] [-P] [--out-dir DIR] NODEFILE\n" ++
    "       bisection [-v] lookup AREAFILE COORD...\n"

def crashCode : Nat := 101

/-- Runs the program with arguments in a working directory, and gives its outcome and the files afterwards. -/
def run (t : FileTree) (args : List String) : Outcome × FileTree :=
  match Command.read args with
  | .error .refused => ({ exit := 2 }, t)
  | .error .help => ({ exit := 0, printed := usage }, t)
  | .ok command =>
    let response := command.respond (t.read command.source)
    let (t, stopped) := t.writeAll response.writes
    match (stopped.map Failure.report).or response.failure with
    | none => ({ exit := 0, printed := response.printed }, t)
    | some (.report report) => ({ exit := 1, printed := response.printed, report := some report }, t)
    | some .crash => ({ exit := crashCode, printed := response.printed }, t)

end Bisection
