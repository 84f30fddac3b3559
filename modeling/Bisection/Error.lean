import Bisection.Number.Layout

namespace Bisection

inductive NumberPlace where
  | dimensions
  | coordinate (node : Nat)
  | lowBound (area : Nat)
  | highBound (area : Nat)
  deriving DecidableEq, Repr

def NumberPlace.describe : NumberPlace → String
  | .dimensions => "dimensions attribute"
  | .coordinate node => s!"coordinate of node {node}"
  | .lowBound area => s!"<min> of area {area}"
  | .highBound area => s!"<max> of area {area}"

inductive AreaFault where
  | noDimension (tag : String)
  | badDimension (text : String)
  | dimensionRange (dimension dimensions : Nat)
  | missingLow (dimension : Nat)
  | missingHigh (dimension : Nat)
  | missingLabel
  deriving DecidableEq, Repr

def AreaFault.describe : AreaFault → String
  | .noDimension tag => s!"<{tag}> without dimension attribute"
  | .badDimension text => s!"invalid dimension '{text}'"
  | .dimensionRange dimension dimensions => s!"dimension {dimension} out of range for {dimensions} dimensions"
  | .missingLow dimension => s!"missing <min> for dimension {dimension}"
  | .missingHigh dimension => s!"missing <max> for dimension {dimension}"
  | .missingLabel => "missing <prefix>"

inductive IoFault where
  | notFound
  | notDirectory
  | isDirectory
  | notText
  | sinkFull
  | other (text : String)
  deriving DecidableEq, Repr

def IoFault.message : IoFault → String
  | .notFound => "No such file or directory (os error 2)"
  | .notDirectory => "Not a directory (os error 20)"
  | .isDirectory => "Is a directory (os error 21)"
  | .notText => "stream did not contain valid UTF-8"
  | .sinkFull => "sink full"
  | .other text => text

inductive Error where
  | markup
  | missingDimensions (element : String)
  | zeroDimensions
  | dimensionMismatch (index expected found : Nat)
  | nonFiniteCoordinate (index dimension : Nat)
  | pointOutsideField (index : Nat) (fieldSize : Float)
  | invalidNumber (place : NumberPlace) (text : String)
  | malformedArea (index : Nat) (fault : AreaFault)
  | invalidFieldSize (fieldSize : Float)
  | unsupportedPlotDimensions (dimensions : Nat)
  | axisOutOfRange (axis dimensions : Nat)
  | noAxis
  | beyondMemory (dimensions : Nat)
  | unmatchedEnd
  | io (fault : IoFault)

namespace Error

/-- The errors that end the program at once, without a report. -/
def isCrash : Error → Bool
  | .axisOutOfRange .. | .noAxis | .beyondMemory _ | .unmatchedEnd => true
  | _ => false

def cause? : Error → Option String
  | .markup => some "the document is not well formed"
  | .io fault => some fault.message
  | _ => none

def message : Error → String
  | .markup => "xml syntax error: the document is not well formed"
  | .missingDimensions element => s!"root element <{element}> has no dimensions attribute"
  | .zeroDimensions => "dimension count must be greater than zero"
  | .dimensionMismatch index expected found => s!"node {index} has {found} coordinates, expected {expected}"
  | .nonFiniteCoordinate index dimension => s!"node {index} has a non-finite coordinate in dimension {dimension}"
  | .pointOutsideField index fieldSize =>
    s!"node {index} lies outside the field of half extent {numberText fieldSize}"
  | .invalidNumber place text => s!"invalid number '{text}' in {place.describe}"
  | .malformedArea index fault => s!"area {index} is malformed: {fault.describe}"
  | .invalidFieldSize fieldSize =>
    s!"invalid configuration: field size must be a positive finite number, got {numberText fieldSize}"
  | .unsupportedPlotDimensions dimensions =>
    s!"plot output is only available for 2 or 3 dimensions, got {dimensions}"
  | .axisOutOfRange axis dimensions => s!"axis {axis} is out of range for {dimensions} dimensions"
  | .noAxis => "there is no axis to cut along"
  | .beyondMemory dimensions => s!"the bounds of {dimensions} dimensions cannot be kept"
  | .unmatchedEnd => "an end tag stands where no element is open"
  | .io fault => s!"i/o error: {fault.message}"

end Error

end Bisection
