import Mathlib
import Bisection.Proofs.Nesting
import Bisection.Proofs.Tiling

namespace Bisection.Partition

variable {config : Config} {rule : AxisRule} {points : PointSet} {P : Partition} {root : Region} {tree : Tree}
  {p : Point}

theorem labelAt?_areas (P : Partition) (p : Point) : P.areas.labelAt? p =
    if p.length = P.dimensions then (P.leaves.find? fun n => n.bounds.contains p).map Node.label else none := by
  rw [AreaList.labelAt?, areas, List.find?_map, Option.map_map]
  rfl

namespace Holds

theorem contains_iff (h : Holds rule config points P root tree) :
    P.bounds.contains p = true ↔ tree.region.bounds.contains p = true := by
  rw [h.bounds_eq, h.root_eq]

theorem length_of_contains (h : Holds rule config points P root tree) (hp : tree.region.bounds.contains p = true) :
    p.length = P.dimensions := by
  rw [dimensions, h.input]
  exact (h.regular.ready.spans.contains_iff.1 hp).1

theorem find?_leaves_eq_none (h : Holds rule config points P root tree) (hf : P.FiniteCuts)
    (hp : ¬tree.region.bounds.contains p = true) : P.leaves.find? (fun n => n.bounds.contains p) = none := by
  have hs := h.sound (h.finite_of_finiteCuts hf)
  rw [h.leaves_eq]
  apply List.find?_eq_none.2
  intro n hn hc
  apply hp
  exact (hs.leaf_within hn).contains (h.regular.spans_leaf hn) hs.proper.spans hc

/-- The leaf that the walk ends in is the first area that contains the point. -/
theorem exists_locate? (h : Holds rule config points P root tree) (hp : P.bounds.contains p = true) : ∃ leaf,
    P.locate? p = some leaf ∧ leaf.isLeaf = true ∧ leaf.bounds.contains p = true ∧
      P.leaves.find? (fun n => n.bounds.contains p) = some leaf ∧ P.areas.labelAt? p = some leaf.label := by
  rw [h.contains_iff] at hp
  have hfind : P.leaves.find? (fun n => n.bounds.contains p) = some (tree.leafOf p 0 none 1) := by
    rw [h.leaves_eq]
    exact h.regular.find?_leafNodes hp
  refine ⟨tree.leafOf p 0 none 1, ?_, tree.isLeaf_leafOf .., h.regular.contains_leafOf hp, hfind, ?_⟩
  · rw [h.locate?_eq, ← h.root_eq, if_pos hp]
  · rw [labelAt?_areas, if_pos (h.length_of_contains hp), hfind, Option.map_some]

theorem locate?_eq_none (h : Holds rule config points P root tree) (hp : ¬P.bounds.contains p = true) :
    P.locate? p = none := by
  rw [h.contains_iff] at hp
  rw [h.locate?_eq, ← h.root_eq, if_neg hp]

theorem labelAt?_eq_none (h : Holds rule config points P root tree) (hf : P.FiniteCuts)
    (hp : ¬P.bounds.contains p = true) : P.areas.labelAt? p = none := by
  rw [h.contains_iff] at hp
  rw [labelAt?_areas, h.find?_leaves_eq_none hf hp, Option.map_none, ite_self]

end Holds

/-- A point of the field is found in a leaf that contains it, the first such leaf in order, and the list of areas
has its label. Any other point is not found, nor is it in the list if all cuts are finite. -/
theorem locate_agrees_with_areas (hv : points.Valid) (hb : buildWith rule config points = .ok P) (p : Point) :
    (P.bounds.contains p = true → ∃ leaf, P.locate? p = some leaf ∧ leaf.isLeaf = true ∧
      leaf.bounds.contains p = true ∧ P.leaves.find? (fun n => n.bounds.contains p) = some leaf ∧
      P.areas.labelAt? p = some leaf.label) ∧
    (P.bounds.contains p = false → P.locate? p = none ∧ (P.FiniteCuts → P.areas.labelAt? p = none)) := by
  obtain ⟨root, tree, h⟩ := holds_of_ok hv hb
  rw [← Bool.not_eq_true]
  exact ⟨h.exists_locate?, fun hp => ⟨h.locate?_eq_none hp, fun hf => h.labelAt?_eq_none hf hp⟩⟩

theorem locate_agrees_with_areas_on_cut :
    ∃ P, buildWith roundRobin {} ⟨2, [[3, 4], [1, 2], [1, 6]]⟩ = .ok P ∧ ∃ leaf, P.locate? [1, 4] = some leaf ∧
      leaf.isLeaf = true ∧ leaf.bounds.contains [1, 4] = true ∧
      P.leaves.find? (fun n => n.bounds.contains [1, 4]) = some leaf ∧
      P.areas.labelAt? [1, 4] = some leaf.label := by
  obtain ⟨P, root, tree, hb, h⟩ :
      ∃ P root tree, buildWith roundRobin {} ⟨2, [[3, 4], [1, 2], [1, 6]]⟩ = .ok P ∧ _ :=
    exists_holds (by decide) (roundRobin_lt (by decide)) rfl
  have hp : P.bounds.contains [1, 4] = true := by
    rw [h.contains_iff, h.region_bounds]
    rfl
  exact ⟨P, hb, (locate_agrees_with_areas (by decide) hb [1, 4]).1 hp⟩

end Bisection.Partition
