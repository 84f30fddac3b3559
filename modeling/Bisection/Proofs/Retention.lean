import Mathlib
import Bisection.Proofs.Lookup
import Bisection.Proofs.PrefixCode

namespace Bisection

open Floating Double

variable {config : Config} {rule : AxisRule} {D : Nat}

/-- The point lies on the cut where the ways to two leaves part, the first to the lower side. -/
def Node.Ties (nodes : List Node) (a b : Node) (q : Point) : Prop :=
  ∃ n ∈ nodes, ∃ cut l u, n.content = .split cut l u ∧ n.path ++ [.lower] <+: a.path ∧ n.path ++ [.upper] <+: b.path ∧
    (q.getD cut.axis 0 == cut.coord) = true

namespace Tree

variable {id first : Nat} {parent : Option Nat} {t : Tree} {n : Node} {q : Point} {nodes : List Node}

theorem Regular.held_of_leaf (h : t.Regular config rule D) (hn : n ∈ t.leafNodes id parent first) (hq : q ∈ n.held) :
    q ∈ t.region.held := by
  induction t generalizing id parent first with
  | leaf r =>
      rw [List.mem_singleton.1 hn] at hq
      exact hq
  | fork r cut lower upper ihl ihu =>
      obtain ⟨s, hv, lo, up, hh, -, hrl, hru, hl, hu⟩ := h.parts
      rcases List.mem_append.1 hn with hn | hn
      · have hmem := ihl hl hn
        rw [hrl] at hmem
        exact hh.subset .lower (hh.lower.mem hmem)
      · have hmem := ihu hu hn
        rw [hru] at hmem
        exact hh.subset .upper (hh.upper.mem hmem)

namespace Sound

theorem contains_held (h : t.Sound config rule D) (hn : n ∈ t.leafNodes id parent first) (hq : q ∈ n.held) :
    n.bounds.contains q = true := by
  induction t generalizing id parent first with
  | leaf r =>
      rw [List.mem_singleton.1 hn] at hq ⊢
      exact h.confined q hq
  | fork r cut lower upper ihl ihu =>
      rcases List.mem_append.1 hn with hn | hn
      · exact ihl h.parts.1.1 hn
      · exact ihu h.parts.2.1 hn

/-- A point that a leaf keeps leads to that leaf, or to an earlier one from the cut on which it lies. -/
theorem leafOf_held (h : t.Sound config rule D) (hlies : t.Lies nodes id parent first)
    (hn : n ∈ t.leafNodes id parent first) (hq : q ∈ n.held) :
    t.leafOf q id parent first = n ∨ [t.leafOf q id parent first, n].Sublist (t.leafNodes id parent first) ∧
      Node.Ties nodes (t.leafOf q id parent first) n q := by
  induction hlies with
  | leaf root => exact Or.inl (List.mem_singleton.1 hn).symm
  | @fork id first parent r cut lower upper root low up ihl ihu =>
      have hc := h.regular.parted
      obtain ⟨-, hbelow, habove⟩ := h.cut_between
      rw [leafNodes, leafOf]
      rcases List.mem_append.1 hn with hn | hn
      · rw [if_pos (hbelow q (hc.lower_regular.held_of_leaf hn hq)).2]
        rcases ihl h.parts.1.1 hn with heq | ⟨hbefore, hties⟩
        · exact Or.inl heq
        · exact Or.inr ⟨hbefore.trans (List.sublist_append_left _ _), hties⟩
      · obtain ⟨hin, hle⟩ := habove q (hc.upper_regular.held_of_leaf hn hq)
        by_cases hge : q.getD cut.axis 0 ≤ cut.coord
        · -- the point is on the cut: it was put above it by its position, and is found below
          have hlow : lower.region.bounds.contains q = true := (hc.contains_iff .lower hin).2 hge
          have hfound : lower.leafOf q first (some id) (first + 2) ∈ lower.leafNodes first (some id) (first + 2) :=
            hc.lower_regular.leafOf_mem hlow
          obtain ⟨⟨hpl, -⟩, hpu, -⟩ := h.regular.path_parts
          rw [if_pos hge]
          refine Or.inr ⟨(List.singleton_sublist.2 hfound).append (List.singleton_sublist.2 hn), ?_⟩
          refine ⟨_, List.mem_of_getElem? root, cut, _, _, rfl, ?_, ?_, beq_of_le_of_le hge hle⟩
          · have hpre := hc.lower_regular.prefix_of_mem_leafNodes hfound
            rwa [hpl] at hpre
          · have hpre := hc.upper_regular.prefix_of_mem_leafNodes hn
            rwa [hpu] at hpre
        · rw [if_neg hge]
          rcases ihu h.parts.2.1 hn with heq | ⟨hbefore, hties⟩
          · exact Or.inl heq
          · exact Or.inr ⟨hbefore.trans (List.sublist_append_right _ _), hties⟩

end Sound

end Tree

namespace Partition

variable {points : PointSet} {P : Partition} {leaf : Node} {q : Point}

/-- If all cuts are finite, a point that a leaf keeps lies in its box, and looking it up leads to that leaf or to one
before it; in the latter case the point is on the cut where the ways to the two leaves part. -/
theorem held_points_found (hv : points.Valid) (hb : buildWith rule config points = .ok P) (hf : P.FiniteCuts)
    (hleaf : leaf ∈ P.leaves) (hq : q ∈ leaf.held) :
    leaf.bounds.contains q = true ∧ ∃ found, P.locate? q = some found ∧
      (found = leaf ∨ [found, leaf].Sublist P.leaves ∧ Node.Ties P.nodes found leaf q) := by
  obtain ⟨root, tree, h⟩ := holds_of_ok hv hb
  have hs := h.sound (h.finite_of_finiteCuts hf)
  rw [h.leaves_eq] at hleaf ⊢
  have hin := hs.confined q (hs.regular.held_of_leaf hleaf hq)
  refine ⟨hs.contains_held hleaf hq, tree.leafOf q 0 none 1, ?_, hs.leafOf_held h.lies hleaf hq⟩
  rw [h.locate?_eq, ← h.root_eq, if_pos hin]

theorem held_points_found_coincident :
    ∃ P leaf, buildWith roundRobin { minPoints := 0 } ⟨2, [[1, 2], [1, 2], [1, 2]]⟩ = .ok P ∧ P.FiniteCuts ∧
      leaf ∈ P.leaves ∧ [1, 2] ∈ leaf.held ∧ leaf.bounds.contains [1, 2] = true ∧
      ∃ found, P.locate? [1, 2] = some found ∧
        (found = leaf ∨ [found, leaf].Sublist P.leaves ∧ Node.Ties P.nodes found leaf [1, 2]) := by
  obtain ⟨P, root, tree, hb, h⟩ : ∃ P root tree,
      buildWith roundRobin { minPoints := 0 } ⟨2, [[1, 2], [1, 2], [1, 2]]⟩ = .ok P ∧ _ :=
    exists_holds (by decide) (roundRobin_lt (by decide)) rfl
  have hf : P.FiniteCuts := (h.wellFormed (h.sound (h.finite_of_fieldSize value_thousand_lt))).finiteCuts
  obtain ⟨lost, hperm, -, hmax⟩ := h.regular.conserves h.assigned 0 none 1
  rw [← h.leaves_eq] at hperm hmax
  have hlost : lost = [] := by simpa using hmax
  rw [hlost, List.append_nil] at hperm
  obtain ⟨leaf, hleaf, hq⟩ := List.mem_flatMap.1 (hperm.mem_iff.2 List.mem_cons_self)
  exact ⟨P, leaf, hb, hf, hleaf, hq, held_points_found (by decide) hb hf hleaf hq⟩

end Partition

end Bisection
