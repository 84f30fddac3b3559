import Bisection.Command.Run
import Bisection.View.Camera
import Bisection.View.Navigator

namespace Bisection.View

/-- How a run of the viewer ends: with a message in place of a window, with a crash, or with the frames shown. -/
inductive Showing where
  | failed (report : Report)
  | crashed (printed : String)
  | shown (printed : String) (frames : List (List Draw))

def fieldSize (arg : Option String) : Except Report Float :=
  match arg with
  | none => .ok ({} : Config).fieldSize
  | some text =>
    if text.isEmpty then .error ⟨"cannot parse float from empty string", []⟩
    else
      match readFloat? text.toList with
      | some x => .ok x
      | none => .error ⟨"invalid float literal", []⟩

def loadNodes (t : FileTree) (path : String) : Except Report PointSet :=
  match t.read path with
  | .error fault => .error (.plain (.io fault))
  | .ok text => (Document.readPoints text).mapError .plain

def load (t : FileTree) (args : List String) : Except Report Partition :=
  match args with
  | [] => .error ⟨"usage: area-viz <nodefile> [fieldsize]", []⟩
  | path :: rest => do
    let size ← fieldSize rest.head?
    let points ← loadNodes t path
    if points.dimensions = 2 ∨ points.dimensions = 3 then
      (Partition.build { ({} : Config) with fieldSize := size } points).mapError .plain
    else .error ⟨s!"only 2D and 3D node files can be shown, got {points.dimensions}D", []⟩

def panelWidth : Float32 := 300

def drawPanel (p : Partition) (nav : Navigator) (input : Input) : List Draw :=
  let left := input.size.x - panelWidth
  [.rect left 0 panelWidth input.size.y (Color.ofBytes 0 0 0 200),
    .text s!"{p.input.size} nodes | {p.leaves.length} areas" (left + 10) 25 20 .white] ++
    nav.caption p left 50 ++
    [.text "Drag mouse to rotate, scroll to zoom" (left + 10) 135 16 .darkGray,
      .text s!"FPS: {input.framesPerSecond}" (left + 10) 155 16 .darkGray]

/-- One frame: the navigator and the camera follow the input, then the block and the panel are drawn. -/
def frame? (p : Partition) (nav : Navigator) (camera : Camera) (input : Input) :
    Option (Navigator × Camera × List Draw) := do
  let nav := (nav.update p input.pressed).1
  let camera ← camera.update? input
  let areas ← nav.drawSpace? p
  let points ← drawPointsSpace? p (camera.distance * 0.004)
  return (nav, camera, [.clear (Color.ofBytes 15 15 25 255), camera.draw] ++ areas ++ points ++ [.defaultCamera] ++
    drawPanel p nav input)

def frames? (p : Partition) (nav : Navigator) (camera : Camera) : List Input → Option (List (List Draw))
  | [] => some []
  | input :: rest => do
    let (nav, camera, draws) ← frame? p nav camera input
    return draws :: (← frames? p nav camera rest)

/-- Runs the viewer for as many frames as there are inputs. The camera can frame a block only, so a plane
partition ends in a crash. -/
def view (t : FileTree) (args : List String) (inputs : List Input) : Showing :=
  match load t args with
  | .error report => .failed report
  | .ok p =>
    let stats := p.stats
    let printed := s!"Partition built: {stats.leaves} areas ({stats.emptyLeaves} empty), depth {stats.maxDepth}\n"
    match (Camera.framing? p.bounds).bind fun camera => frames? p {} camera inputs with
    | some frames => .shown printed frames
    | none => .crashed printed

end Bisection.View
