import Bisection.Partition.Table

namespace Bisection

def pendingWeight : List (Nat × Region) → Nat
  | [] => 0
  | (_, r) :: rest => r.weight + pendingWeight rest

/-- Cuts the waiting regions, the first one and all that comes of it before the next. -/
def grow (config : Config) (rule : AxisRule) (t : Table) (pending : List (Nat × Region))
    (inTable : ∀ w ∈ pending, w.1 < t.size) : Except Error Table :=
  match pending, inTable with
  | [], _ => .ok t
  | (id, r) :: rest, inTable =>
    match h : r.split config rule with
    | .error e => .error e
    | .ok none => grow config rule t rest fun w hw => inTable w (List.mem_cons_of_mem _ hw)
    | .ok (some (cut, lower, upper)) =>
      grow config rule (t.cutNode id (inTable (id, r) List.mem_cons_self) cut lower upper)
        ((t.size, lower) :: (t.size + 1, upper) :: rest) (by
          intro w hw
          rw [Table.size_cutNode]
          rcases List.mem_cons.1 hw with rfl | hw
          · simp
          rcases List.mem_cons.1 hw with rfl | hw
          · simp
          · have := inTable w (List.mem_cons_of_mem _ hw)
            omega)
termination_by pendingWeight pending
decreasing_by
  · simp only [pendingWeight]
    have : 0 < r.weight := by unfold Region.weight; split <;> omega
    omega
  · have := Region.split_weight h
    simp only [pendingWeight]
    omega

/-- A partition: its settings, its points in their given order, and its nodes. -/
structure Partition where
  config : Config
  input : PointSet
  table : Table

namespace Partition

/-- What must hold before anything is cut: a proper field, which can be kept, and all points inside it. -/
def checkInput (config : Config) (points : PointSet) : Except Error Unit := do
  config.validate
  match config.field? points.dimensions with
  | none => throw (.beyondMemory points.dimensions)
  | some field =>
    match points.firstOutside? field with
    | some index => throw (.pointOutsideField index config.fieldSize)
    | none => return ()

def rootRegion (config : Config) (rule : AxisRule) (points : PointSet) : Except Error Region := do
  let sorted ← points.sortBy (rule 0 points.dimensions)
  return ⟨[], config.field points.dimensions, some sorted⟩

def buildWith (rule : AxisRule) (config : Config) (points : PointSet) : Except Error Partition := do
  checkInput config points
  let root ← rootRegion config rule points
  let table ← grow config rule (Table.single root) [(0, root)] (by simp [Table.nonempty])
  return ⟨config, points, table⟩

def buildAlong (axes : List Nat) (config : Config) (points : PointSet) : Except Error Partition := do
  if axes.isEmpty then
    checkInput config points
    throw .noAxis
  else buildWith (cycle axes) config points

def build (config : Config) (points : PointSet) : Except Error Partition := buildWith roundRobin config points

end Partition

end Bisection
