import Mathlib
import Bisection.Partition.Tree
import Bisection.Proofs.Boxes

namespace Bisection

theorem bind_eq_ok {ε α β : Type} {x : Except ε α} {f : α → Except ε β} {b : β} :
    x.bind f = .ok b ↔ ∃ a, x = .ok a ∧ f a = .ok b := by
  cases x <;> simp [Except.bind]

section Keys

variable {α : Type} (f : α → Int)

theorem decide_le_trans (a b c : α) (hab : decide (f a ≤ f b) = true) (hbc : decide (f b ≤ f c) = true) :
    decide (f a ≤ f c) = true := by
  rw [decide_eq_true_eq] at *
  exact hab.trans hbc

theorem decide_le_total (a b : α) : (decide (f a ≤ f b) || decide (f b ≤ f a)) = true := by
  simpa using Int.le_total (f a) (f b)

end Keys

namespace PointSet

variable {s t : PointSet} {axis : Nat}

instance (s : PointSet) : Decidable s.Valid :=
  inferInstanceAs (Decidable (0 < s.dimensions ∧
    ∀ p ∈ s.points, p.length = s.dimensions ∧ ∀ v ∈ p, v.isFinite = true))

def Sorted (axis : Nat) (points : List Point) : Prop :=
  points.Pairwise fun p q => rank (p.getD axis 0) ≤ rank (q.getD axis 0)

theorem sorted_of_length_lt {points : List Point} (h : points.length < 2) : Sorted axis points := by
  match points, h with
  | [], _ => exact .nil
  | [p], _ => exact List.pairwise_singleton _ p

theorem sortBy_ok (h : axis < s.dimensions) : ∃ t, s.sortBy axis = .ok t := by
  unfold sortBy
  split
  · exact ⟨s, rfl⟩
  · exact ⟨_, if_neg (by omega)⟩

theorem sortBy_spec (e : s.sortBy axis = .ok t) :
    t.dimensions = s.dimensions ∧ t.points.Perm s.points ∧ Sorted axis t.points := by
  unfold sortBy at e
  split at e
  · cases e
    exact ⟨rfl, .refl _, sorted_of_length_lt ‹_›⟩
  split at e
  · cases e
  · cases e
    refine ⟨rfl, List.mergeSort_perm _ _, ?_⟩
    exact (List.pairwise_mergeSort (decide_le_trans _) (decide_le_total _) s.points).imp fun h => by simpa using h

def middle (s : PointSet) (axis : Nat) : Float :=
  Double.midpoint ((s.points.getD (s.size / 2 - 1) []).getD axis 0) ((s.points.getD (s.size / 2) []).getD axis 0)

theorem medianSplit_eq_none : s.medianSplit axis = .ok none ↔ s.size < 2 := by
  unfold medianSplit
  split
  · simp [*]
  split <;> simp [*]

theorem medianSplit_eq_halves {h : Halves} : s.medianSplit axis = .ok (some h) ↔
    2 ≤ s.size ∧ axis < s.dimensions ∧ h = ⟨s.middle axis, { s with points := s.points.take (s.size / 2) },
      { s with points := s.points.drop (s.size / 2) }⟩ := by
  unfold medianSplit
  split
  · simp
    omega
  split
  · simp
    omega
  · simp only [Except.ok.injEq, Option.some.injEq]
    constructor
    · rintro rfl
      exact ⟨by omega, by omega, rfl⟩
    · rintro ⟨-, -, rfl⟩
      rfl

end PointSet

namespace Region

variable {config : Config} {rule : AxisRule} {r lower upper : Region} {cut : Cut}

/-- Nothing is cut: no points were kept, the region is at the greatest depth, or there are fewer than two points. -/
def Stops (config : Config) (r : Region) : Prop :=
  r.points = none ∨ config.maxDepth ≤ r.depth ∨ ∃ s, r.points = some s ∧ s.size < 2

/-- What is kept of a half: nothing of one with too few points, and all of any other, sorted. -/
def Keeps (config : Config) (axis : Nat) (half : PointSet) (kept : Option PointSet) : Prop :=
  half.size ≤ config.minPoints ∧ kept = none ∨
    config.minPoints < half.size ∧ ∃ t, half.sortBy axis = .ok t ∧ kept = some t

theorem keep_eq_ok {axis : Nat} {half : PointSet} {kept : Option PointSet} :
    keep config axis half = .ok kept ↔ Keeps config axis half kept := by
  unfold keep Keeps
  split
  · have hn : ¬half.size ≤ config.minPoints := by omega
    cases half.sortBy axis <;> simp [Except.map, eq_comm, *]
  · have hn : half.size ≤ config.minPoints := by omega
    simp [eq_comm, *]

/-- How a region with the points `s` is cut into halves, of which `lo` and `up` are kept. -/
structure Halved (config : Config) (rule : AxisRule) (r : Region) (s : PointSet) (h : Halves)
    (lo up : Option PointSet) : Prop where
  points : r.points = some s
  shallow : r.depth < config.maxDepth
  size_ge : 2 ≤ s.size
  axis_lt : rule r.depth s.dimensions < s.dimensions
  coord_eq : h.coord = s.middle (rule r.depth s.dimensions)
  lower_eq : h.lower = { s with points := s.points.take (s.size / 2) }
  upper_eq : h.upper = { s with points := s.points.drop (s.size / 2) }
  lower : Keeps config (rule (r.depth + 1) s.dimensions) h.lower lo
  upper : Keeps config (rule (r.depth + 1) s.dimensions) h.upper up

theorem Halved.halves {s : PointSet} {h : Halves} {lo up : Option PointSet} (hh : Halved config rule r s h lo up) :
    s.medianSplit (rule r.depth s.dimensions) = .ok (some h) := by
  refine PointSet.medianSplit_eq_halves.2 ⟨hh.size_ge, hh.axis_lt, ?_⟩
  rw [← hh.coord_eq, ← hh.lower_eq, ← hh.upper_eq]

theorem split_of_points {s : PointSet} (hp : r.points = some s) (hd : r.depth < config.maxDepth) (hs : 2 ≤ s.size) :
    r.split config rule = (s.medianSplit (rule r.depth s.dimensions)).bind fun
      | none => .ok none
      | some h => (keep config (rule (r.depth + 1) s.dimensions) h.lower).bind fun lo =>
          (keep config (rule (r.depth + 1) s.dimensions) h.upper).bind fun up =>
            .ok (some (⟨rule r.depth s.dimensions, h.coord⟩,
              r.child .lower ⟨rule r.depth s.dimensions, h.coord⟩ lo,
              r.child .upper ⟨rule r.depth s.dimensions, h.coord⟩ up)) := by
  have hguard : ¬(config.maxDepth ≤ r.depth ∨ s.size < 2) := by omega
  rw [split, hp]
  simp only [hguard, if_false]
  rfl

theorem split_of_stops (h : Stops config r) : r.split config rule = .ok none := by
  cases hp : r.points with
  | none => simp [split, hp]
  | some s =>
      have hguard : config.maxDepth ≤ r.depth ∨ s.size < 2 := by simpa [Stops, hp] using h
      rw [split, hp]
      exact if_pos hguard

theorem not_stops (h : ¬Stops config r) : ∃ s, r.points = some s ∧ r.depth < config.maxDepth ∧ 2 ≤ s.size := by
  simp only [Stops, not_or, not_exists, not_and, Nat.not_le, Nat.not_lt] at h
  obtain ⟨s, hs⟩ := Option.ne_none_iff_exists'.1 h.1
  exact ⟨s, hs, h.2.1, h.2.2 s hs⟩

theorem split_eq_none : r.split config rule = .ok none ↔ Stops config r := by
  refine ⟨fun he => ?_, split_of_stops⟩
  by_contra hgoes
  obtain ⟨s, hp, hd, hs⟩ := not_stops hgoes
  rw [split_of_points hp hd hs] at he
  obtain ⟨h | h, hm, he⟩ := bind_eq_ok.1 he
  · have hfew := PointSet.medianSplit_eq_none.1 hm
    omega
  · obtain ⟨lo, -, he⟩ := bind_eq_ok.1 he
    obtain ⟨up, -, he⟩ := bind_eq_ok.1 he
    cases he

theorem split_eq_some : r.split config rule = .ok (some (cut, lower, upper)) ↔
    ∃ s h lo up, Halved config rule r s h lo up ∧ cut = ⟨rule r.depth s.dimensions, h.coord⟩ ∧
      lower = r.child .lower cut lo ∧ upper = r.child .upper cut up := by
  constructor
  · intro e
    have hgoes : ¬Stops config r := fun hstop => by cases (split_of_stops hstop).symm.trans e
    obtain ⟨s, hp, hd, hs⟩ := not_stops hgoes
    rw [split_of_points hp hd hs] at e
    obtain ⟨h | h, hm, e⟩ := bind_eq_ok.1 e
    · cases e
    · obtain ⟨lo, hlo, e⟩ := bind_eq_ok.1 e
      obtain ⟨up, hup, e⟩ := bind_eq_ok.1 e
      obtain ⟨-, haxis, hh⟩ := PointSet.medianSplit_eq_halves.1 hm
      simp only [Except.ok.injEq, Option.some.injEq, Prod.mk.injEq] at e
      obtain ⟨rfl, rfl, rfl⟩ := e
      exact ⟨s, h, lo, up, ⟨hp, hd, hs, haxis, by rw [hh], by rw [hh], by rw [hh], keep_eq_ok.1 hlo, keep_eq_ok.1 hup⟩,
        rfl, rfl, rfl⟩
  · rintro ⟨s, h, lo, up, hh, rfl, rfl, rfl⟩
    rw [split_of_points hh.points hh.shallow hh.size_ge]
    refine bind_eq_ok.2 ⟨some h, hh.halves, ?_⟩
    refine bind_eq_ok.2 ⟨lo, keep_eq_ok.2 hh.lower, ?_⟩
    exact bind_eq_ok.2 ⟨up, keep_eq_ok.2 hh.upper, rfl⟩

def held (r : Region) : List Point := (r.points.map PointSet.points).getD []

/-- What a region needs to be cut: bounds in every dimension, and points sorted along the axis of its depth. -/
structure Ready (rule : AxisRule) (D : Nat) (r : Region) : Prop where
  spans : r.bounds.Spans D
  points : ∀ s, r.points = some s → s.Valid ∧ s.dimensions = D ∧ PointSet.Sorted (rule r.depth D) s.points

theorem held_of_points {s : PointSet} (h : r.points = some s) : r.held = s.points := by simp [held, h]

variable {D : Nat} {s : PointSet} {h : Halves} {lo up : Option PointSet}

theorem bounds_child (side : Side) (points : Option PointSet) :
    (r.child side cut points).bounds = r.bounds.part side cut.axis cut.coord := by
  cases side <;> rfl

@[simp] theorem depth_child (side : Side) (points : Option PointSet) :
    (r.child side cut points).depth = r.depth + 1 := by
  simp [child, depth]

theorem Keeps.ready {axis : Nat} {half : PointSet} {kept : Option PointSet} (hk : Keeps config axis half kept)
    (hv : half.Valid) : ∀ t, kept = some t →
      t.points.Perm half.points ∧ t.Valid ∧ t.dimensions = half.dimensions ∧ PointSet.Sorted axis t.points := by
  rintro t rfl
  obtain ⟨-, hn⟩ | ⟨-, u, hu, he⟩ := hk
  · cases hn
  · cases he
    obtain ⟨hd, hp, hs⟩ := PointSet.sortBy_spec hu
    exact ⟨hp, ⟨hd ▸ hv.1, fun p hm => hd ▸ hv.2 p (hp.mem_iff.1 hm)⟩, hd, hs⟩

namespace Halved

theorem half (hh : Halved config rule r s h lo up) (side : Side) :
    (side.choose h.lower h.upper).dimensions = s.dimensions ∧ (side.choose h.lower h.upper).points ⊆ s.points := by
  cases side with
  | lower =>
      rw [hh.lower_eq]
      exact ⟨rfl, List.take_subset _ _⟩
  | upper =>
      rw [hh.upper_eq]
      exact ⟨rfl, List.drop_subset _ _⟩

theorem keeps (hh : Halved config rule r s h lo up) (side : Side) :
    Keeps config (rule (r.depth + 1) s.dimensions) (side.choose h.lower h.upper) (side.choose lo up) := by
  cases side with
  | lower => exact hh.lower
  | upper => exact hh.upper

theorem subset (hh : Halved config rule r s h lo up) (side : Side) {p : Point}
    (hp : p ∈ (side.choose h.lower h.upper).points) : p ∈ r.held := by
  rw [held_of_points hh.points]
  exact (hh.half side).2 hp

theorem ready (hh : Halved config rule r s h lo up) (hr : Ready rule D r) (cut : Cut) (side : Side) :
    Ready rule D (r.child side cut (side.choose lo up)) := by
  obtain ⟨hv, rfl, -⟩ := hr.points s hh.points
  obtain ⟨hdim, hsub⟩ := hh.half side
  have hvalid : (side.choose h.lower h.upper).Valid := ⟨hdim ▸ hv.1, fun p hp => hdim ▸ hv.2 p (hsub hp)⟩
  constructor
  · rw [bounds_child]
    exact hr.spans.part side
  · intro t ht
    obtain ⟨-, hv', hd, hs⟩ := (hh.keeps side).ready hvalid t ht
    exact ⟨hv', hd.trans hdim, by rw [depth_child]; exact hs⟩

end Halved

/-- Where there are two points or more, they were sorted, so the axis of the region exists. -/
def Aligned (rule : AxisRule) (D : Nat) (r : Region) : Prop :=
  ∀ s, r.points = some s → s.dimensions = D ∧ (2 ≤ s.size → rule r.depth D < D)

theorem Aligned.stops_or_axis_lt (config : Config) (hr : r.Aligned rule D) : Stops config r ∨
    ∃ s, r.points = some s ∧ s.dimensions = D ∧ r.depth < config.maxDepth ∧ 2 ≤ s.size ∧ rule r.depth D < D := by
  by_cases hstop : Stops config r
  · exact Or.inl hstop
  · obtain ⟨s, hs, hdepth, hsize⟩ := not_stops hstop
    obtain ⟨hdim, haxis⟩ := hr s hs
    exact Or.inr ⟨s, hs, hdim, hdepth, hsize, haxis hsize⟩

theorem exists_keeps (config : Config) {axis : Nat} (half : PointSet) (h : axis < half.dimensions) :
    ∃ kept, Keeps config axis half kept := by
  obtain ⟨t, ht⟩ := PointSet.sortBy_ok h
  rcases Nat.lt_or_ge config.minPoints half.size with hc | hc
  · exact ⟨some t, Or.inr ⟨hc, t, ht, rfl⟩⟩
  · exact ⟨none, Or.inl ⟨hc, rfl⟩⟩

/-- A region that is ready is cut or left alone; there is no third outcome. -/
theorem Ready.stops_or_halved (hr : Ready rule D r) (hrule : ∀ depth, rule depth D < D) :
    Stops config r ∨ ∃ s h lo up, Halved config rule r s h lo up := by
  have haligned : r.Aligned rule D := fun s hs => ⟨(hr.points s hs).2.1, fun _ => hrule _⟩
  rcases haligned.stops_or_axis_lt config with hstop | ⟨s, hs, rfl, hdepth, hsize, haxis⟩
  · exact Or.inl hstop
  · obtain ⟨lo, hlo⟩ := exists_keeps config { s with points := s.points.take (s.size / 2) }
      (hrule (r.depth + 1))
    obtain ⟨up, hup⟩ := exists_keeps config { s with points := s.points.drop (s.size / 2) }
      (hrule (r.depth + 1))
    exact Or.inr ⟨s, ⟨_, _, _⟩, lo, up, hs, hdepth, hsize, haxis, rfl, rfl, rfl, hlo, hup⟩

end Region

end Bisection
