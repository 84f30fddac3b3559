import Mathlib
import Bisection.Proofs.Placement
import Bisection.Proofs.Separation

namespace Bisection

open Floating Double

namespace Tree

variable {config : Config} {rule : AxisRule} {D id first : Nat} {parent : Option Nat} {t lower upper : Tree}
  {r : Region} {cut : Cut} {n : Node}

/-- A regular tree with finite cuts, whose points lie in its box. -/
structure Sound (config : Config) (rule : AxisRule) (D : Nat) (t : Tree) : Prop where
  regular : t.Regular config rule D
  proper : t.region.bounds.Proper D
  confined : ∀ x ∈ t.region.held, t.region.bounds.contains x = true
  finite : ∀ c ∈ t.cuts, c.coord.isFinite = true

namespace Sound

/-- A finite cut goes through the box, and leaves the points of both sides in their part. -/
theorem cut_between (h : Sound config rule D (.fork r cut lower upper)) :
    (r.bounds.low.getD cut.axis 0 ≤ cut.coord ∧ cut.coord ≤ r.bounds.high.getD cut.axis 0) ∧
      (∀ x ∈ lower.region.held, r.bounds.contains x = true ∧ x.getD cut.axis 0 ≤ cut.coord) ∧
      ∀ x ∈ upper.region.held, r.bounds.contains x = true ∧ cut.coord ≤ x.getD cut.axis 0 := by
  obtain ⟨s, hv, lo, up, hh, hcut, hrl, hru, -⟩ := h.regular.parts
  have haxis := h.regular.axis_lt
  obtain ⟨p, hp, q, hq, -⟩ := hh.exists_middle h.regular.ready hcut
  obtain ⟨hlo, hup⟩ := hh.cut_between_halves h.regular.ready hcut (h.finite cut List.mem_cons_self)
  have hin (x : Point) (hx : x ∈ r.held) := (h.proper.spans.contains_iff.1 (h.confined x hx)).2 cut.axis haxis
  refine ⟨⟨?_, ?_⟩, fun x hx => ?_, fun x hx => ?_⟩
  · exact le_trans (hin p (hh.subset .lower hp)).1 (hlo p hp)
  · exact le_trans (hup q hq) (hin q (hh.subset .upper hq)).2
  · have hx := hh.lower.mem (hrl ▸ hx)
    exact ⟨h.confined x (hh.subset .lower hx), hlo x hx⟩
  · have hx := hh.upper.mem (hru ▸ hx)
    exact ⟨h.confined x (hh.subset .upper hx), hup x hx⟩

theorem parts (h : Sound config rule D (.fork r cut lower upper)) :
    (Sound config rule D lower ∧ lower.region.bounds.Within D r.bounds) ∧
      Sound config rule D upper ∧ upper.region.bounds.Within D r.bounds := by
  have hp := h.regular.parted
  obtain ⟨⟨hlow, hhigh⟩, hl, hu⟩ := h.cut_between
  have hthrough (side : Side) : side.On (r.bounds.bound side cut.axis) cut.coord := by
    cases side with
    | lower => exact hhigh
    | upper => exact hlow
  have hbox (side : Side) := h.proper.part hp.axis_lt hthrough side
  simp only [region, ← hp.bounds] at hbox
  refine ⟨⟨⟨hp.lower_regular, (hbox .lower).1, fun x hx => ?_, fun c hc => ?_⟩, (hbox .lower).2⟩,
    ⟨hp.upper_regular, (hbox .upper).1, fun x hx => ?_, fun c hc => ?_⟩, (hbox .upper).2⟩
  · exact (hp.contains_iff .lower (hl x hx).1).2 (hl x hx).2
  · exact h.finite c (List.mem_cons_of_mem _ (List.mem_append_left _ hc))
  · exact (hp.contains_iff .upper (hu x hx).1).2 (hu x hx).2
  · exact h.finite c (List.mem_cons_of_mem _ (List.mem_append_right _ hc))

theorem leaf_within (h : t.Sound config rule D) (hn : n ∈ t.leafNodes id parent first) :
    n.bounds.Within D t.region.bounds := by
  induction t generalizing id parent first with
  | leaf r =>
      rw [List.mem_singleton.1 hn]
      exact h.proper.within_refl
  | fork r cut lower upper ihl ihu =>
      obtain ⟨⟨hl, hlower⟩, hu, hupper⟩ := h.parts
      rcases List.mem_append.1 hn with hn | hn
      · exact (ihl hl hn).trans hlower
      · exact (ihu hu hn).trans hupper

end Sound

theorem Lies.exists_of_mem_cuts {nodes : List Node} (h : t.Lies nodes id parent first) {c : Cut} (hc : c ∈ t.cuts) :
    ∃ n ∈ nodes, ∃ l u, n.content = .split c l u := by
  induction h with
  | leaf root => simp [cuts] at hc
  | fork root low up ihl ihu =>
      simp only [cuts, List.mem_cons, List.mem_append] at hc
      rcases hc with rfl | hc | hc
      · exact ⟨_, List.mem_of_getElem? root, _, _, rfl⟩
      · exact ihl hc
      · exact ihu hc

end Tree

namespace Partition

variable {config : Config} {rule : AxisRule} {points : PointSet} {P : Partition} {root : Region} {tree : Tree}

/-- Every recorded cut is at a finite coordinate. -/
def FiniteCuts (P : Partition) : Prop :=
  ∀ n ∈ P.nodes, ∀ cut l u, n.content = .split cut l u → cut.coord.isFinite = true

/-- Every box is proper, the parts of a node lie in its box, and its cut goes through it. -/
structure WellFormed (P : Partition) : Prop where
  proper : ∀ n ∈ P.nodes, n.bounds.Proper P.dimensions
  nested : ∀ n ∈ P.nodes, ∀ cut l u, n.content = .split cut l u → ∃ lower upper, P.node? l = some lower ∧
    P.node? u = some upper ∧ lower.bounds.Within P.dimensions n.bounds ∧ upper.bounds.Within P.dimensions n.bounds
  cut : ∀ n ∈ P.nodes, ∀ cut l u, n.content = .split cut l u → cut.axis < P.dimensions ∧
    n.bounds.low.getD cut.axis 0 ≤ cut.coord ∧ cut.coord ≤ n.bounds.high.getD cut.axis 0

theorem checkInput_spec (h : checkInput config points = .ok ()) : config.fieldSize.isFinite = true ∧
    0 < config.fieldSize ∧ addressable 8 points.dimensions = true ∧
      ∀ p ∈ points.points, (config.field points.dimensions).contains p = true := by
  obtain ⟨⟨⟩, hvalid, h⟩ := bind_eq_ok.1 h
  have hsize : config.fieldSize.isFinite = true ∧ 0 < config.fieldSize := by
    unfold Config.validate at hvalid
    split at hvalid
    · rename_i hc
      simpa using hc
    · cases hvalid
  rw [Config.field?, Box.cube?] at h
  split at h
  · cases h
  · rename_i field hfield
    obtain ⟨hkept, hfield⟩ := Option.ite_none_right_eq_some.1 hfield
    cases hfield
    split at h
    · cases h
    · rename_i hnone
      refine ⟨hsize.1, hsize.2, hkept, ?_⟩
      intro p hp
      simpa [Config.field] using List.findIdx?_eq_none_iff.1 hnone p hp

theorem proper_field (hf : config.fieldSize.isFinite = true) (hpos : 0 < config.fieldSize) (D : Nat) :
    (config.field D).Proper D := by
  have hle : -config.fieldSize ≤ config.fieldSize := by
    have hn := isNaN_of_isFinite hf
    rw [le_iff, (value_neg config.fieldSize).1, (value_neg config.fieldSize).2]
    exact ⟨hn, hn, by linarith [value_pos hpos]⟩
  refine ⟨⟨List.length_replicate, List.length_replicate⟩, ?_, ?_⟩
  · intro d hd
    simp [Config.field, Box.cube, hd, hf, isFinite_neg hf]
  · intro d hd
    simpa [Config.field, Box.cube, hd] using hle

namespace Holds

theorem region_eq (h : Holds rule config points P root tree) : ∃ s,
    points.sortBy (rule 0 points.dimensions) = .ok s ∧
      tree.region = ⟨[], config.field points.dimensions, some s⟩ := by
  obtain ⟨s, hs, e⟩ := bind_eq_ok.1 h.start
  cases e
  exact ⟨s, hs, h.root_eq⟩

theorem region_bounds (h : Holds rule config points P root tree) :
    tree.region.bounds = config.field points.dimensions := by
  obtain ⟨s, -, hr⟩ := h.region_eq
  rw [hr]

theorem held_iff (h : Holds rule config points P root tree) {x : Point} :
    x ∈ tree.region.held ↔ x ∈ points.points := by
  obtain ⟨s, hs, hr⟩ := h.region_eq
  rw [hr]
  exact (PointSet.sortBy_spec hs).2.1.mem_iff

theorem sound (h : Holds rule config points P root tree) (hf : ∀ c ∈ tree.cuts, c.coord.isFinite = true) :
    tree.Sound config rule points.dimensions := by
  obtain ⟨hfin, hpos, -, hin⟩ := checkInput_spec h.accepted
  refine ⟨h.regular, ?_, ?_, hf⟩
  · rw [h.region_bounds]
    exact proper_field hfin hpos _
  · intro x hx
    rw [h.region_bounds]
    exact hin x (h.held_iff.1 hx)

theorem wellFormed (h : Holds rule config points P root tree) (hs : tree.Sound config rule points.dimensions) :
    P.WellFormed := by
  have hdim : P.dimensions = points.dimensions := by rw [dimensions, h.input]
  have subtree (n : Node) (hn : n ∈ P.nodes) : ∃ id parent first s, n = Tree.node id parent first s ∧
      s.Lies P.nodes id parent first ∧ s.Sound config rule points.dimensions := by
    obtain ⟨id, hid⟩ := List.getElem?_of_mem hn
    exact ⟨id, h.exists_subtree _ (fun _ _ _ _ ht => ⟨ht.parts.1.1, ht.parts.2.1⟩) hs hid⟩
  rw [← hdim] at subtree
  constructor
  · intro n hn
    obtain ⟨id, parent, first, s, rfl, -, hs⟩ := subtree n hn
    exact hs.proper
  · intro n hn cut l u hc
    obtain ⟨id, parent, first, s, rfl, hlies, hs⟩ := subtree n hn
    cases hlies with
    | leaf => cases hc
    | fork root low up =>
        cases hc
        exact ⟨_, _, (P.node?_eq _).trans low.root_eq, (P.node?_eq _).trans up.root_eq, hs.parts.1.2, hs.parts.2.2⟩
  · intro n hn cut l u hc
    obtain ⟨id, parent, first, s, rfl, hlies, hs⟩ := subtree n hn
    cases hlies with
    | leaf => cases hc
    | fork root low up =>
        cases hc
        exact ⟨hs.regular.axis_lt, hs.cut_between.1⟩

theorem finite_of_fieldSize (h : Holds rule config points P root tree) (hsize : value config.fieldSize < 2 ^ 1023) :
    ∀ c ∈ tree.cuts, c.coord.isFinite = true := by
  intro c hc
  obtain ⟨hfin, hpos, -, hin⟩ := checkInput_spec h.accepted
  obtain ⟨haxis, -⟩ := h.regular.exists_of_mem_cuts hc
  have hwithin (x : Point) (hx : x ∈ tree.region.held) :
      -config.fieldSize ≤ x.getD c.axis 0 ∧ x.getD c.axis 0 ≤ config.fieldSize := by
    have hx := ((proper_field hfin hpos _).spans.contains_iff.1 (hin x (h.held_iff.1 hx))).2 c.axis haxis
    simpa [Config.field, Box.cube, haxis] using hx
  have hlimit : 2 * |value config.fieldSize| < Unpacked.top .binary64 := by
    rw [abs_of_pos (value_pos hpos), top_eq, pow_succ']
    exact mul_lt_mul_of_pos_left hsize two_pos
  have hlow := isFinite_midpoint_self (isFinite_neg hfin) (by rwa [(value_neg config.fieldSize).2, abs_neg])
  have hhigh := isFinite_midpoint_self hfin hlimit
  exact isFinite_of_between hlow hhigh
    (h.regular.cuts_on .upper (isFinite_neg hfin) (fun x hx => (hwithin x hx).1) hc rfl)
    (h.regular.cuts_on .lower hfin (fun x hx => (hwithin x hx).2) hc rfl)

theorem finite_of_finiteCuts (h : Holds rule config points P root tree) (hf : P.FiniteCuts) :
    ∀ c ∈ tree.cuts, c.coord.isFinite = true := by
  intro c hc
  obtain ⟨n, hn, l, u, hcut⟩ := h.lies.exists_of_mem_cuts hc
  exact hf n hn c l u hcut

end Holds

theorem WellFormed.finiteCuts (h : P.WellFormed) : P.FiniteCuts := by
  intro n hn cut l u hc
  obtain ⟨haxis, hlow, hhigh⟩ := h.cut n hn cut l u hc
  have hfin := (h.proper n hn).finite cut.axis haxis
  exact isFinite_of_between hfin.1 hfin.2 hlow hhigh

/-- The boxes of a partition are well formed exactly when all its cuts are finite, and always in a field of half
extent less than `2 ^ 1023`. -/
theorem wellFormed_iff_finiteCuts (hv : points.Valid) (hb : buildWith rule config points = .ok P) :
    (P.WellFormed ↔ P.FiniteCuts) ∧ (value config.fieldSize < 2 ^ 1023 → P.WellFormed) := by
  obtain ⟨root, tree, h⟩ := holds_of_ok hv hb
  refine ⟨⟨WellFormed.finiteCuts, fun hf => ?_⟩, fun hsize => ?_⟩
  · exact h.wellFormed (h.sound (h.finite_of_finiteCuts hf))
  · exact h.wellFormed (h.sound (h.finite_of_fieldSize hsize))

theorem value_thousand_lt : value (1000 : Float) < 2 ^ 1023 := by
  have hunpack : (1000 : Float).toModel.unpack = .finite .positive (1000 * 2 ^ 43) (-43) (by norm_num) := rfl
  have hvalue : value 1000 = 1000 := by
    rw [value, hunpack]
    norm_num [Unpacked.value, Unpacked.withSign]
  calc value 1000 < 2 ^ 10 := by rw [hvalue]; norm_num
    _ ≤ 2 ^ 1023 := pow_le_pow_right₀ one_le_two (by norm_num)

theorem wellFormed_iff_finiteCuts_plane :
    ∃ P, buildWith roundRobin {} ⟨2, [[3, 4], [1, 2], [1, 6]]⟩ = .ok P ∧ P.WellFormed ∧ P.FiniteCuts := by
  obtain ⟨P, -, -, hb, -⟩ : ∃ P root tree, buildWith roundRobin {} ⟨2, [[3, 4], [1, 2], [1, 6]]⟩ = .ok P ∧ _ :=
    exists_holds (by decide) (roundRobin_lt (by decide)) rfl
  obtain ⟨hiff, hsmall⟩ := wellFormed_iff_finiteCuts (by decide) hb
  exact ⟨P, hb, hsmall value_thousand_lt, hiff.1 (hsmall value_thousand_lt)⟩

/-- Two points at `2 ^ 1023`, where the sum of their coordinates is out of range. -/
theorem not_wellFormed_at_limit :
    ∃ P, buildWith roundRobin { fieldSize := .ofBits 0x7FE0000000000000 }
      ⟨1, [[.ofBits 0x7FE0000000000000], [.ofBits 0x7FE0000000000000]]⟩ = .ok P ∧ ¬P.WellFormed := by
  obtain ⟨P, root, tree, hb, h⟩ : ∃ P root tree, buildWith roundRobin { fieldSize := .ofBits 0x7FE0000000000000 }
      ⟨1, [[.ofBits 0x7FE0000000000000], [.ofBits 0x7FE0000000000000]]⟩ = .ok P ∧ _ :=
    exists_holds (by decide) (roundRobin_lt (by decide)) rfl
  refine ⟨P, hb, ?_⟩
  intro hw
  have hfin := h.finite_of_finiteCuts hw.finiteCuts
  cases tree with
  | leaf r =>
      obtain ⟨s, hs, hr⟩ := h.region_eq
      have hsize : s.size = 2 := PointSet.size_sortBy hs
      cases h.regular.grown with
      | leaf _ stops =>
          rw [hr] at stops
          simp [Region.Stops, Region.depth, hsize] at stops
  | fork r cut lower upper =>
      have hmem : cut ∈ (Tree.fork r cut lower upper).cuts := List.mem_cons_self
      obtain ⟨haxis, p, hp, q, hq, he⟩ := h.regular.exists_of_mem_cuts hmem
      have hheld (x : Point) (hx : x ∈ (Tree.fork r cut lower upper).region.held) :
          x = [.ofBits 0x7FE0000000000000] := by simpa using h.held_iff.1 hx
      have hcut := hfin cut hmem
      rw [he, hheld p hp, hheld q hq, Nat.lt_one_iff.1 haxis] at hcut
      exact absurd hcut (by decide)

end Partition

end Bisection
