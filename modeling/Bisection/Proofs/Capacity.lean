import Mathlib
import Bisection.Proofs.Shape
import Bisection.Proofs.Tiling

namespace Bisection

open Floating Double

variable {config : Config} {rule : AxisRule} {D id first : Nat} {parent : Option Nat} {t : Tree} {n : Node}
  {given : List Point}

instance (D : Nat) (b : Box) (p : Point) : Decidable (b.Inside D p) :=
  inferInstanceAs (Decidable (∀ d < D, b.low.getD d 0 < p.getD d 0 ∧ p.getD d 0 < b.high.getD d 0))

/-- A leaf above the greatest depth has few of the points strictly inside, for the points on the far side of a cut
are outside of its box. -/
theorem Tree.Regular.countP_inside_le (h : t.Regular config rule D) (hf : ∀ c ∈ t.cuts, c.coord.isFinite = true)
    (ha : t.region.Assigned config given) (hn : n ∈ t.leafNodes id parent first) (hd : n.depth < config.maxDepth) :
    given.countP (fun p => n.bounds.Inside D p) ≤ max 1 config.minPoints := by
  induction t generalizing id parent first given with
  | leaf r =>
      rw [List.mem_singleton.1 hn] at hd ⊢
      refine List.countP_le_length.trans ?_
      cases ha with
      | dropped _ _ few => omega
      | kept s points perm =>
          rw [← perm.length_eq]
          obtain hnone | hdeep | ⟨s', hs', hsmall⟩ := h.stops
          · cases hnone.symm.trans points
          · exact absurd hd (Nat.not_lt.2 hdeep)
          · cases hs'.symm.trans points
            exact (Nat.le_of_lt_succ hsmall).trans (le_max_left _ _)
  | fork r cut lower upper ihl ihu =>
      have hp := h.parted
      obtain ⟨low, up, hperm, -, -, hlow, hup, hsides⟩ := h.deals ha
      obtain ⟨hbelow, habove⟩ := hsides (hf cut List.mem_cons_self)
      rw [← hperm.countP_eq, List.countP_append]
      rcases List.mem_append.1 hn with hn | hn
      · have hzero : up.countP (fun p => n.bounds.Inside D p) = 0 := by
          simp only [List.countP_eq_zero, decide_eq_true_eq]
          intro x hx
          exact Box.not_inside_of_on .lower hp.axis_lt (le_trans (hp.leaf_on .lower hn) (habove x hx))
        rw [hzero, Nat.add_zero]
        exact ihl hp.lower_regular (fun c hc => hf c (List.mem_cons_of_mem _ (List.mem_append_left _ hc))) hlow hn
      · have hzero : low.countP (fun p => n.bounds.Inside D p) = 0 := by
          simp only [List.countP_eq_zero, decide_eq_true_eq]
          intro x hx
          exact Box.not_inside_of_on .upper hp.axis_lt (le_trans (hbelow x hx) (hp.leaf_on .upper hn))
        rw [hzero, Nat.zero_add]
        exact ihu hp.upper_regular (fun c hc => hf c (List.mem_cons_of_mem _ (List.mem_append_right _ hc))) hup hn

namespace Partition

variable {points : PointSet} {P : Partition} {leaf : Node}

/-- If all cuts are finite, at most `minPoints` points of the input, or one, lie strictly inside a leaf above the
greatest depth. -/
theorem countP_inside_leaf_le (hv : points.Valid) (hb : buildWith rule config points = .ok P)
    (hf : P.FiniteCuts) (hleaf : leaf ∈ P.leaves) (hd : leaf.depth < config.maxDepth) :
    points.points.countP (fun p => leaf.bounds.Inside P.dimensions p) ≤ max 1 config.minPoints := by
  obtain ⟨root, tree, h⟩ := holds_of_ok hv hb
  rw [h.leaves_eq] at hleaf
  rw [dimensions, h.input]
  exact h.regular.countP_inside_le (h.finite_of_finiteCuts hf) h.assigned hleaf hd

theorem countP_inside_leaf_le_plane :
    ∃ P leaf, buildWith roundRobin {} ⟨2, [[3, 4], [1, 2], [1, 6], [3, 4], [0, 0]]⟩ = .ok P ∧ P.FiniteCuts ∧
      P.locate? [1, 2] = some leaf ∧ leaf ∈ P.leaves ∧ leaf.depth < 32 ∧
      [[3, 4], [1, 2], [1, 6], [3, 4], [0, 0]].countP (fun p => leaf.bounds.Inside P.dimensions p) ≤ max 1 1 := by
  obtain ⟨P, root, tree, hb, h⟩ : ∃ P root tree,
      buildWith roundRobin {} ⟨2, [[3, 4], [1, 2], [1, 6], [3, 4], [0, 0]]⟩ = .ok P ∧ _ :=
    exists_holds (by decide) (roundRobin_lt (by decide)) rfl
  have hf : P.FiniteCuts := (h.wellFormed (h.sound (h.finite_of_fieldSize value_thousand_lt))).finiteCuts
  have hin : tree.region.bounds.contains [1, 2] = true := by
    rw [h.region_bounds]
    rfl
  have hleaf : tree.leafOf [1, 2] 0 none 1 ∈ P.leaves := by
    rw [h.leaves_eq]
    exact h.regular.leafOf_mem hin
  have hd : (tree.leafOf [1, 2] 0 none 1).depth < 32 :=
    (h.depth_le (h.mem_nodes_of_mem_leaves hleaf)).trans_lt (by decide)
  refine ⟨P, _, hb, hf, ?_, hleaf, hd, countP_inside_leaf_le (by decide) hb hf hleaf hd⟩
  rw [h.locate?_eq, ← h.root_eq, if_pos hin]

end Partition

end Bisection
