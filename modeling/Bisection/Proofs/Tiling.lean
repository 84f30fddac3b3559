import Mathlib
import Bisection.Proofs.Placement
import Bisection.Proofs.Separation

namespace Bisection

open Floating Double

namespace Tree

variable {config : Config} {rule : AxisRule} {D id first d : Nat} {parent : Option Nat} {t : Tree} {n : Node}
  {x : Float} {p : Point}

theorem isLeaf_leafOf (t : Tree) (p : Point) (id : Nat) (parent : Option Nat) (first : Nat) :
    (t.leafOf p id parent first).isLeaf = true := by
  induction t generalizing id parent first with
  | leaf r => rfl
  | fork r cut lower upper ihl ihu =>
      rw [leafOf]
      split
      · exact ihl ..
      · exact ihu ..

namespace Regular

theorem spans_leaf (h : t.Regular config rule D) (hn : n ∈ t.leafNodes id parent first) : n.bounds.Spans D := by
  induction t generalizing id parent first with
  | leaf r =>
      rw [List.mem_singleton.1 hn]
      exact h.ready.spans
  | fork r cut lower upper ihl ihu =>
      rcases List.mem_append.1 hn with hn | hn
      · exact ihl h.parted.lower_regular hn
      · exact ihu h.parted.upper_regular hn

theorem bound_leaf {Q : Float → Prop} (h : t.Regular config rule D) (side : Side)
    (hbox : Q (t.region.bounds.bound side d)) (hcuts : ∀ c ∈ t.cuts, c.axis = d → Q c.coord)
    (hn : n ∈ t.leafNodes id parent first) : Q (n.bounds.bound side d) := by
  induction t generalizing id parent first with
  | leaf r =>
      rw [List.mem_singleton.1 hn]
      exact hbox
  | fork r cut lower upper ihl ihu =>
      have hp := h.parted
      simp only [cuts, List.mem_cons, List.mem_append] at hcuts
      have hpart (s : Side) : Q ((s.choose lower upper).region.bounds.bound side d) := by
        rw [hp.bounds, hp.spans.bound_part hp.axis_lt]
        split
        · rename_i he
          exact hcuts cut (Or.inl rfl) he.2
        · exact hbox
      rcases List.mem_append.1 hn with hn | hn
      · exact ihl hp.lower_regular (hpart .lower) (fun c hc => hcuts c (Or.inr (Or.inl hc))) hn
      · exact ihu hp.upper_regular (hpart .upper) (fun c hc => hcuts c (Or.inr (Or.inr hc))) hn

end Regular

theorem Parted.leaf_on {r : Region} {cut : Cut} {lower upper : Tree} (h : Parted config rule D r cut lower upper)
    (side : Side) (hn : n ∈ (side.choose lower upper).leafNodes id parent first) :
    side.On cut.coord (n.bounds.bound side cut.axis) := by
  have hregular : (side.choose lower upper).Regular config rule D := by
    cases side with
    | lower => exact h.lower_regular
    | upper => exact h.upper_regular
  refine hregular.bound_leaf side ?_ (h.cuts side) hn
  rw [h.bounds, h.spans.bound_part h.axis_lt, if_pos ⟨rfl, rfl⟩]
  exact side.on_refl h.number

namespace Regular

/-- Any two leaves lie apart, the earlier one on the lower side. -/
theorem leaves_apart (h : t.Regular config rule D) :
    (t.leafNodes id parent first).Pairwise fun x y => x.bounds.Apart D y.bounds := by
  induction t generalizing id parent first with
  | leaf r => exact List.pairwise_singleton _ _
  | fork r cut lower upper ihl ihu =>
      have hp := h.parted
      refine List.pairwise_append.2 ⟨ihl hp.lower_regular, ihu hp.upper_regular, ?_⟩
      intro x hx y hy
      exact ⟨cut.axis, hp.axis_lt, le_trans (hp.leaf_on .lower hx) (hp.leaf_on .upper hy)⟩

/-- A point of the box is led to the first leaf that contains it. -/
theorem find?_leafNodes (h : t.Regular config rule D) (hp : t.region.bounds.contains p = true) :
    (t.leafNodes id parent first).find? (fun n => n.bounds.contains p) = some (t.leafOf p id parent first) := by
  induction t generalizing id parent first with
  | leaf r => exact List.find?_cons_of_pos hp
  | fork r cut lower upper ihl ihu =>
      have hc := h.parted
      rw [leafNodes, leafOf, List.find?_append]
      by_cases hle : p.getD cut.axis 0 ≤ cut.coord
      · have hlow : lower.region.bounds.contains p = true := (hc.contains_iff .lower hp).2 hle
        rw [ihl hc.lower_regular hlow, Option.some_or, if_pos hle]
      · have hup : upper.region.bounds.contains p = true := by
          have hin := (hc.spans.contains_iff.1 hp).2 cut.axis hc.axis_lt
          exact (hc.contains_iff .upper hp).2 (le_of_not_le (isNaN_of_le hin.2).1 hc.number hle)
        -- No lower leaf reaches past the cut, so the first leaf that contains the point is an upper one.
        have hnone : (lower.leafNodes first (some id) (first + 2)).find? (fun n => n.bounds.contains p) = none := by
          apply List.find?_eq_none.2
          intro n hn hcontains
          apply hle
          have hin := ((hc.lower_regular.spans_leaf hn).contains_iff.1 hcontains).2 cut.axis hc.axis_lt
          exact le_trans hin.2 (hc.leaf_on .lower hn)
        rw [ihu hc.upper_regular hup, hnone, Option.none_or, if_neg hle]

theorem leafOf_mem (h : t.Regular config rule D) (hp : t.region.bounds.contains p = true) :
    t.leafOf p id parent first ∈ t.leafNodes id parent first :=
  List.mem_of_find?_eq_some (h.find?_leafNodes hp)

theorem contains_leafOf (h : t.Regular config rule D) (hp : t.region.bounds.contains p = true) :
    (t.leafOf p id parent first).bounds.contains p = true := by
  have hfind : (t.leafNodes id parent first).find? (fun n => n.bounds.contains p) = some _ := h.find?_leafNodes hp
  simpa only using List.find?_some hfind

end Regular

end Tree

namespace Partition

variable {config : Config} {rule : AxisRule} {points : PointSet} {P : Partition}

/-- The leaves of a partition lie apart from each other, in their order, so that no point is strictly inside two of
them; and the leaves below a node cover the closed box of that node. -/
theorem leaves_tile (hv : points.Valid) (hb : buildWith rule config points = .ok P) :
    (P.leaves.Pairwise fun x y => x.bounds.Apart P.dimensions y.bounds ∧
      ∀ p, ¬(x.bounds.Inside P.dimensions p ∧ y.bounds.Inside P.dimensions p)) ∧
    ∀ id n, P.node? id = some n → ∃ leaves, P.leavesUnder? id = some leaves ∧
      ∀ p, n.bounds.contains p = true → ∃ leaf ∈ leaves, leaf.isLeaf = true ∧ leaf.bounds.contains p = true := by
  obtain ⟨root, tree, h⟩ := holds_of_ok hv hb
  rw [dimensions, h.input, h.leaves_eq]
  constructor
  · exact h.regular.leaves_apart.imp fun hapart => ⟨hapart, hapart.not_inside⟩
  · intro id n hn
    have inherit (r : Region) (cut : Cut) (lower upper : Tree)
        (ht : Tree.Regular config rule points.dimensions (.fork r cut lower upper)) :=
      And.intro ht.parted.lower_regular ht.parted.upper_regular
    rw [node?_eq] at hn
    obtain ⟨parent, first, s, rfl, hs, hregular⟩ := h.exists_subtree _ inherit h.regular hn
    refine ⟨_, leavesUnder?_eq hs, ?_⟩
    intro p hp
    exact ⟨s.leafOf p id parent first, hregular.leafOf_mem hp, s.isLeaf_leafOf p .., hregular.contains_leafOf hp⟩

theorem leaves_tile_at_limit :
    ∃ P, buildWith roundRobin { fieldSize := .ofBits 0x7FE0000000000000 }
      ⟨1, [[.ofBits 0x7FE0000000000000], [.ofBits 0x7FE0000000000000]]⟩ = .ok P ∧
    (P.leaves.Pairwise fun x y => x.bounds.Apart P.dimensions y.bounds ∧
      ∀ p, ¬(x.bounds.Inside P.dimensions p ∧ y.bounds.Inside P.dimensions p)) ∧
    ∀ id n, P.node? id = some n → ∃ leaves, P.leavesUnder? id = some leaves ∧
      ∀ p, n.bounds.contains p = true → ∃ leaf ∈ leaves, leaf.isLeaf = true ∧ leaf.bounds.contains p = true := by
  obtain ⟨P, -, -, hb, -⟩ : ∃ P root tree, buildWith roundRobin { fieldSize := .ofBits 0x7FE0000000000000 }
      ⟨1, [[.ofBits 0x7FE0000000000000], [.ofBits 0x7FE0000000000000]]⟩ = .ok P ∧ _ :=
    exists_holds (by decide) (roundRobin_lt (by decide)) rfl
  exact ⟨P, hb, leaves_tile (by decide) hb⟩

end Partition

end Bisection
