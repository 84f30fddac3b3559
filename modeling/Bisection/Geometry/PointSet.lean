import Bisection.Error
import Bisection.Geometry.Box

namespace Bisection

structure PointSet where
  dimensions : Nat
  points : List Point

structure Halves where
  coord : Float
  lower : PointSet
  upper : PointSet

namespace PointSet

/-- Positive dimension, and every point has that many finite coordinates. -/
def Valid (s : PointSet) : Prop :=
  0 < s.dimensions ∧ ∀ p ∈ s.points, p.length = s.dimensions ∧ ∀ v ∈ p, v.isFinite = true

def size (s : PointSet) : Nat := s.points.length

def empty (dimensions : Nat) : Except Error PointSet :=
  if dimensions = 0 then .error .zeroDimensions else .ok ⟨dimensions, []⟩

/-- Takes a point at the end, or refuses it and says why. -/
def offer (s : PointSet) (p : Point) : PointSet × Except Error Unit :=
  if p.length ≠ s.dimensions then (s, .error (.dimensionMismatch s.size s.dimensions p.length))
  else
    match p.findIdx? (fun v => !v.isFinite) with
    | some d => (s, .error (.nonFiniteCoordinate s.size d))
    | none => ({ s with points := s.points ++ [p] }, .ok ())

def push (s : PointSet) (p : Point) : Except Error PointSet :=
  match s.offer p with
  | (t, .ok ()) => .ok t
  | (_, .error e) => .error e

def ofRows (dimensions : Nat) (rows : List Point) : Except Error PointSet := do
  rows.foldlM push (← empty dimensions)

/-- Stable ascending sort by one coordinate, in the total order of doubles. Fewer than two points are never
compared, so the axis matters only from two points on. -/
def sortBy (s : PointSet) (axis : Nat) : Except Error PointSet :=
  if s.size < 2 then .ok s
  else if s.dimensions ≤ axis then .error (.axisOutOfRange axis s.dimensions)
  else .ok { s with points := s.points.mergeSort fun p q => rank (p.getD axis 0) ≤ rank (q.getD axis 0) }

/-- Halves the points in their present order; the cut is midway between the two points in the middle. -/
def medianSplit (s : PointSet) (axis : Nat) : Except Error (Option Halves) :=
  if s.size < 2 then .ok none
  else if s.dimensions ≤ axis then .error (.axisOutOfRange axis s.dimensions)
  else
    let half := s.size / 2
    let at' (i : Nat) : Float := (s.points.getD i []).getD axis 0
    .ok (some ⟨(at' (half - 1) + at' half) / 2,
      { s with points := s.points.take half }, { s with points := s.points.drop half }⟩)

theorem medianSplit_eq_some {s : PointSet} {axis : Nat} {h : Halves} (e : s.medianSplit axis = .ok (some h)) :
    2 ≤ s.size ∧ h.lower.size = s.size / 2 ∧ h.upper.size = s.size - s.size / 2 := by
  unfold medianSplit at e
  split at e
  · simp at e
  split at e
  · simp at e
  · simp only [Except.ok.injEq, Option.some.injEq] at e
    subst e
    refine ⟨by omega, ?_, ?_⟩ <;> simp only [size, List.length_take, List.length_drop]
    omega

theorem size_sortBy {s t : PointSet} {axis : Nat} (e : s.sortBy axis = .ok t) : t.size = s.size := by
  unfold sortBy at e
  split at e
  · simp only [Except.ok.injEq] at e
    rw [e]
  split at e
  · simp at e
  · simp only [Except.ok.injEq] at e
    subst e
    simp [size]

def firstOutside? (s : PointSet) (b : Box) : Option Nat :=
  s.points.findIdx? fun p => !b.contains p

end PointSet

end Bisection
