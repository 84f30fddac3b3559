import Bisection.Partition.Config

namespace Bisection

inductive Side where
  | lower
  | upper
  deriving DecidableEq, Repr

abbrev Path := List Side

def Side.bit : Side → Char
  | .lower => '0'
  | .upper => '1'

def Path.label (path : Path) : String := String.ofList (path.map Side.bit)

structure Cut where
  axis : Nat
  coord : Float

/-- A box with its path and, if they were kept, its points. -/
structure Region where
  path : Path
  bounds : Box
  points : Option PointSet

namespace Region

def depth (r : Region) : Nat := r.path.length

/-- A half is kept, sorted along the next axis, if it has more than `minPoints` points. -/
def keep (config : Config) (axis : Nat) (half : PointSet) : Except Error (Option PointSet) :=
  if config.minPoints < half.size then (half.sortBy axis).map some else .ok none

def child (r : Region) (side : Side) (cut : Cut) (points : Option PointSet) : Region where
  path := r.path ++ [side]
  bounds := match side with
    | .lower => r.bounds.below cut.axis cut.coord
    | .upper => r.bounds.above cut.axis cut.coord
  points := points

/-- Cuts a region at the median of its points, unless it is too deep or has fewer than two points. -/
def split (config : Config) (rule : AxisRule) (r : Region) : Except Error (Option (Cut × Region × Region)) :=
  match r.points with
  | none => .ok none
  | some s =>
    if config.maxDepth ≤ r.depth ∨ s.size < 2 then .ok none
    else do
      let axis := rule r.depth s.dimensions
      match ← s.medianSplit axis with
      | none => return none
      | some halves =>
        let next := rule (r.depth + 1) s.dimensions
        let cut : Cut := ⟨axis, halves.coord⟩
        let lower ← keep config next halves.lower
        let upper ← keep config next halves.upper
        return some (cut, r.child .lower cut lower, r.child .upper cut upper)

/-- The number of nodes that the points of a region can lead to. -/
def weight (r : Region) : Nat :=
  match r.points with
  | none => 1
  | some s => max 1 (2 * s.size - 1)

variable {config : Config} {rule : AxisRule}

theorem keep_weight {axis : Nat} {half : PointSet} {r : Region} (e : keep config axis half = .ok r.points) :
    r.weight ≤ max 1 (2 * half.size - 1) := by
  unfold keep at e
  split at e
  · cases hs : half.sortBy axis with
    | error => simp [hs, Except.map] at e
    | ok t =>
      have := PointSet.size_sortBy hs
      simp only [hs, Except.map, Except.ok.injEq] at e
      simp only [weight, ← e, this]
      omega
  · simp only [Except.ok.injEq] at e
    simp only [weight, ← e]
    omega

theorem split_weight {r lower upper : Region} {cut : Cut}
    (e : r.split config rule = .ok (some (cut, lower, upper))) : lower.weight + upper.weight < r.weight := by
  unfold split at e
  split at e
  · simp at e
  rename_i s hs
  split at e
  · simp at e
  simp only [bind, Except.bind, pure, Except.pure] at e
  split at e
  · simp at e
  split at e
  · simp at e
  rename_i halves hm
  split at e
  · simp at e
  rename_i lo hlo
  split at e
  · simp at e
  rename_i up hup
  simp only [Except.ok.injEq, Option.some.injEq, Prod.mk.injEq] at e
  obtain ⟨rfl, rfl, rfl⟩ := e
  have h := PointSet.medianSplit_eq_some hm
  have hl := keep_weight (r := r.child .lower ⟨rule r.depth s.dimensions, halves.coord⟩ lo) hlo
  have hu := keep_weight (r := r.child .upper ⟨rule r.depth s.dimensions, halves.coord⟩ up) hup
  have hr : r.weight = max 1 (2 * s.size - 1) := by simp only [weight, hs]
  omega

end Region

end Bisection
