import Mathlib
import Bisection.Proofs.Nesting

namespace Bisection

open Floating Double

variable {config : Config} {rule : AxisRule} {D : Nat}

namespace Region

/-- The points that fall to a region: they are kept, in some order, at the root and where there are enough of them;
elsewhere they are dropped. -/
inductive Assigned (config : Config) (r : Region) (given : List Point) : Prop
  | kept (s : PointSet) (points : r.points = some s) (perm : s.points.Perm given)
      (many : r.depth = 0 ∨ config.minPoints < given.length)
  | dropped (points : r.points = none) (inner : r.depth ≠ 0) (few : given.length ≤ config.minPoints)
      (nonempty : 0 < given.length)

theorem Keeps.assigned {r : Region} {axis : Nat} {half : PointSet} {kept : Option PointSet} {side : Side} {cut : Cut}
    (hk : Keeps config axis half kept) (hpos : 0 < half.size) :
    (r.child side cut kept).Assigned config half.points := by
  obtain ⟨hfew, rfl⟩ | ⟨hmany, s, hs, rfl⟩ := hk
  · exact .dropped rfl (by simp) hfew hpos
  · exact .kept s rfl (PointSet.sortBy_spec hs).2.1 (Or.inr hmany)

namespace Halved

variable {r : Region} {s : PointSet} {h : Halves} {lo up : Option PointSet} {given : List Point}

theorem append_perm (hh : Halved config rule r s h lo up) (ha : r.Assigned config given) :
    (h.lower.points ++ h.upper.points).Perm given := by
  cases ha with
  | kept t points perm =>
      cases hh.points.symm.trans points
      rw [hh.lower_eq, hh.upper_eq, List.take_append_drop]
      exact perm
  | dropped points => cases hh.points.symm.trans points

theorem lower_size (hh : Halved config rule r s h lo up) : h.lower.size = s.size / 2 :=
  (PointSet.medianSplit_eq_some hh.halves).2.1

theorem upper_size (hh : Halved config rule r s h lo up) : h.upper.size = s.size - s.size / 2 :=
  (PointSet.medianSplit_eq_some hh.halves).2.2

theorem deals (hh : Halved config rule r s h lo up) (ha : r.Assigned config given) (cut : Cut) :
    (h.lower.points ++ h.upper.points).Perm given ∧ h.lower.points.length = given.length / 2 ∧
      h.upper.points.length = given.length - given.length / 2 ∧
      (r.child .lower cut lo).Assigned config h.lower.points ∧
        (r.child .upper cut up).Assigned config h.upper.points := by
  have hperm := hh.append_perm ha
  have hsize := hh.size_ge
  have hlen := hperm.length_eq
  have hlow : h.lower.points.length = s.size / 2 := hh.lower_size
  have hup : h.upper.points.length = s.size - s.size / 2 := hh.upper_size
  rw [List.length_append] at hlen
  refine ⟨hperm, by omega, by omega, ?_, ?_⟩
  · exact hh.lower.assigned (by rw [hh.lower_size]; omega)
  · exact hh.upper.assigned (by rw [hh.upper_size]; omega)

end Halved

end Region

namespace Node

def held (n : Node) : List Point := (n.points.map PointSet.points).getD []

theorem points_eq_none {n : Node} (h : n.isLeaf = false) : n.points = none := by
  unfold isLeaf at h
  unfold points
  cases hc : n.content with
  | leaf points => simp [hc] at h
  | split cut l u => rfl

end Node

namespace Tree

variable {t lower upper : Tree} {r : Region} {cut : Cut} {given : List Point}

theorem Regular.deals (h : Regular config rule D (.fork r cut lower upper)) (ha : r.Assigned config given) :
    ∃ low up : List Point, (low ++ up).Perm given ∧ low.length = given.length / 2 ∧
      up.length = given.length - given.length / 2 ∧
      lower.region.Assigned config low ∧ upper.region.Assigned config up ∧
      (cut.coord.isFinite = true → (∀ x ∈ low, x.getD cut.axis 0 ≤ cut.coord) ∧
        ∀ x ∈ up, cut.coord ≤ x.getD cut.axis 0) := by
  obtain ⟨s, hv, lo, up, hh, hcut, hrl, hru, -⟩ := h.parts
  obtain ⟨hperm, hlow, hup, hal, hau⟩ := hh.deals ha cut
  rw [← hrl] at hal
  rw [← hru] at hau
  exact ⟨hv.lower.points, hv.upper.points, hperm, hlow, hup, hal, hau, hh.cut_between_halves h.ready hcut⟩

/-- The leaves hold the points of the tree but for the halves that were dropped, each of which has at least one
point and at most `minPoints`. -/
theorem Regular.conserves (h : t.Regular config rule D) (ha : t.region.Assigned config given) (id : Nat)
    (parent : Option Nat) (first : Nat) :
    ∃ lost : List Point, ((t.leafNodes id parent first).flatMap Node.held ++ lost).Perm given ∧
      (t.leafNodes id parent first).countP (·.points.isNone) ≤ lost.length ∧
      lost.length ≤ config.minPoints * (t.leafNodes id parent first).countP (·.points.isNone) := by
  induction t generalizing id parent first given with
  | leaf r =>
      cases ha with
      | kept s points perm =>
          change r.points = some s at points
          exact ⟨[], by simp [leafNodes, node, Node.held, Node.points, points, perm],
            by simp [leafNodes, node, Node.points, points]⟩
      | dropped points inner few nonempty =>
          change r.points = none at points
          refine ⟨given, by simp [leafNodes, node, Node.held, Node.points, points], ?_⟩
          simp only [leafNodes, node, Node.points, points, List.countP_singleton, Option.isNone_none]
          simpa using ⟨nonempty, few⟩
  | fork r cut lower upper ihl ihu =>
      have hp := h.parted
      obtain ⟨low, up, hperm, -, -, hlow, hup, -⟩ := h.deals ha
      obtain ⟨lostLow, hl, hlmin, hlmax⟩ := ihl hp.lower_regular hlow first (some id) (first + 2)
      obtain ⟨lostUp, hu, humin, humax⟩ := ihu hp.upper_regular hup (first + 1) (some id) (first + 2 + lower.sizeBelow)
      refine ⟨lostLow ++ lostUp, ?_, ?_, ?_⟩
      · rw [leafNodes, List.flatMap_append]
        refine List.Perm.trans ?_ ((hl.append hu).trans hperm)
        simp only [List.append_assoc]
        exact (List.perm_append_comm_assoc _ lostLow lostUp).append_left _
      · rw [leafNodes, List.countP_append, List.length_append]
        exact Nat.add_le_add hlmin humin
      · rw [leafNodes, List.countP_append, List.length_append, Nat.mul_add]
        exact Nat.add_le_add hlmax humax

end Tree

namespace Partition

variable {points : PointSet} {P : Partition} {root : Region} {tree : Tree}

theorem Holds.assigned (h : Holds rule config points P root tree) : tree.region.Assigned config points.points := by
  obtain ⟨s, hs, hr⟩ := h.region_eq
  rw [hr]
  exact .kept s rfl (PointSet.sortBy_spec hs).2.1 (Or.inl rfl)

/-- The leaves hold the input but for what was dropped: at least one point and at most `minPoints` for every leaf
that holds none. If every half is kept, the leaves hold all of the input. -/
theorem leaves_conserve_points (hv : points.Valid) (hrule : ∀ depth, rule depth points.dimensions < points.dimensions)
    (hin : checkInput config points = .ok ()) :
    ∃ P, buildWith rule config points = .ok P ∧
      (∃ lost : List Point, (P.leaves.flatMap Node.held ++ lost).Perm points.points ∧
        P.leaves.countP (·.points.isNone) ≤ lost.length ∧
        lost.length ≤ config.minPoints * P.leaves.countP (·.points.isNone)) ∧
      (∀ n ∈ P.nodes, n.isLeaf = false → n.points = none) ∧
      (config.minPoints = 0 → (P.leaves.flatMap Node.held).Perm points.points) := by
  obtain ⟨P, root, tree, hb, h⟩ := exists_holds hv hrule hin
  obtain ⟨lost, hperm, hmin, hmax⟩ := h.regular.conserves h.assigned 0 none 1
  rw [← h.leaves_eq] at hperm hmin hmax
  refine ⟨P, hb, ⟨lost, hperm, hmin, hmax⟩, ?_, ?_⟩
  · exact fun n _ hn => Node.points_eq_none hn
  · intro hzero
    rw [hzero, Nat.zero_mul, Nat.le_zero, List.length_eq_zero_iff] at hmax
    rwa [hmax, List.append_nil] at hperm

theorem leaves_conserve_points_plane :
    ∃ P, buildWith roundRobin {} ⟨2, [[3, 4], [1, 2], [1, 2]]⟩ = .ok P ∧
      (∃ lost : List Point, (P.leaves.flatMap Node.held ++ lost).Perm [[3, 4], [1, 2], [1, 2]] ∧
        P.leaves.countP (·.points.isNone) ≤ lost.length ∧ lost.length ≤ 1 * P.leaves.countP (·.points.isNone)) ∧
      (∀ n ∈ P.nodes, n.isLeaf = false → n.points = none) ∧
      (1 = 0 → (P.leaves.flatMap Node.held).Perm [[3, 4], [1, 2], [1, 2]]) :=
  leaves_conserve_points (by decide) (roundRobin_lt (by decide)) rfl

end Partition

end Bisection
