import Mathlib
import Bisection.Proofs.Navigation
import Bisection.Proofs.Outcome

namespace Bisection

variable {config : Config} {rule : AxisRule} {D : Nat}

theorem pairwise_mergeSort_ties {α : Type} {R : α → α → Prop} (f : α → Int) {l : List α} (h : l.Pairwise R) :
    (l.mergeSort fun a b => f a ≤ f b).Pairwise fun a b => f a < f b ∨ f a = f b ∧ R a b := by
  induction l with
  | nil => simp
  | cons a l ih =>
      obtain ⟨hfirst, hrest⟩ := List.pairwise_cons.1 h
      -- the first element goes behind those that are less than it, and in front of all others
      obtain ⟨before, after, hcons, hl, hless⟩ := List.mergeSort_cons (decide_le_trans f) (decide_le_total f) a l
      have hsorted := List.pairwise_mergeSort (decide_le_trans f) (decide_le_total f) (a :: l)
      have hpairs := ih hrest
      rw [hcons, List.pairwise_append, List.pairwise_cons] at hsorted
      rw [hl, List.pairwise_append] at hpairs
      obtain ⟨hbefore, hafter, hacross⟩ := hpairs
      rw [hcons, List.pairwise_append, List.pairwise_cons]
      refine ⟨hbefore, ⟨fun b hb => ?_, hafter⟩, fun b hb c hc => ?_⟩
      · have hmem : b ∈ l := List.mem_mergeSort.1 (hl ▸ List.mem_append_right before hb)
        have hle : f a ≤ f b := by simpa using hsorted.2.1.1 b hb
        exact hle.lt_or_eq.imp_right fun heq => ⟨heq, hfirst b hmem⟩
      · rcases List.mem_cons.1 hc with rfl | hc
        · exact Or.inl (by simpa using hless b hb)
        · exact hacross b hb c hc

namespace PointSet

variable {s t : PointSet} {axis : Nat}

def pointAt (s : PointSet) (i : Nat) : Point := s.points.getD i []

def rankAt (s : PointSet) (axis i : Nat) : Int := rank ((s.pointAt i).getD axis 0)

/-- What decides where the point at place `i` stands at some depth: its coordinate along the axis of that depth, then
those along the axes of the depths above, the nearest first, and at last its place. -/
def orderKey (s : PointSet) (rule : AxisRule) (i : Nat) : Nat → List Int
  | 0 => [s.rankAt (rule 0 s.dimensions) i, i]
  | depth + 1 => s.rankAt (rule (depth + 1) s.dimensions) i :: s.orderKey rule i depth

def sortPlaces (s : PointSet) (axis : Nat) (places : List Nat) : List Nat :=
  places.mergeSort fun i j => s.rankAt axis i ≤ s.rankAt axis j

def half {α : Type} (side : Side) (l : List α) : List α := side.choose (l.take (l.length / 2)) (l.drop (l.length / 2))

/-- The places of the points that fall to the end of a path, in their order there. It leads from a region at the given
depth; at every cut one half goes on and is sorted along the next axis. -/
def lineupFrom (s : PointSet) (rule : AxisRule) (depth : Nat) (places : List Nat) : Path → List Nat
  | [] => places
  | side :: path =>
    s.lineupFrom rule (depth + 1) (s.sortPlaces (rule (depth + 1) s.dimensions) (half side places)) path

def lineup (s : PointSet) (rule : AxisRule) (path : Path) : List Nat :=
  s.lineupFrom rule 0 (s.sortPlaces (rule 0 s.dimensions) (List.range s.size)) path

theorem map_pointAt_range (s : PointSet) : (List.range s.size).map s.pointAt = s.points := by
  apply List.ext_getElem
  · simp [size]
  · intro i hi hi'
    simp [pointAt, hi']

theorem sortPlaces_perm (s : PointSet) (axis : Nat) (places : List Nat) : (s.sortPlaces axis places).Perm places :=
  List.mergeSort_perm ..

theorem half_perm {α : Type} (l : List α) : (half .lower l ++ half .upper l).Perm l := by
  simp [half, Side.choose]

theorem sortBy_points (e : s.sortBy axis = .ok t) :
    t.points = s.points.mergeSort fun p q => rank (p.getD axis 0) ≤ rank (q.getD axis 0) := by
  unfold sortBy at e
  split at e
  · cases e
    match hs : s.points with
    | [] => simp
    | [p] => simp
    | p :: q :: rest => simp_all [size]
  split at e
  · cases e
  · cases e
    rfl

theorem points_of_sortBy {half : PointSet} {places : List Nat} (e : half.sortBy axis = .ok t)
    (h : half.points = places.map s.pointAt) : t.points = (s.sortPlaces axis places).map s.pointAt := by
  have hmap : (places.mergeSort fun i j => s.rankAt axis i ≤ s.rankAt axis j).map s.pointAt =
      (places.map s.pointAt).mergeSort fun p q => rank (p.getD axis 0) ≤ rank (q.getD axis 0) := by
    refine List.map_mergeSort fun i _ j _ => ?_
    rw [rankAt, rankAt]
  rw [sortBy_points e, h, sortPlaces, hmap]

end PointSet

namespace Region

variable {r : Region} {input s : PointSet} {places : List Nat}

/-- The points that fall to a region are those at the given places of the input, in this order, and the order is that of
its depth. -/
structure LinedUp (input : PointSet) (rule : AxisRule) (r : Region) (places : List Nat) : Prop where
  points : ∀ s, r.points = some s → s.points = places.map input.pointAt
  order : places.Pairwise fun i j => input.orderKey rule i r.depth < input.orderKey rule j r.depth

theorem LinedUp.child {axis : Nat} {half : PointSet} {kept : Option PointSet} {side : Side} {cut : Cut}
    (hl : r.LinedUp input rule places) (hs : r.points = some s)
    (haxis : axis = rule (r.depth + 1) input.dimensions) (hhalf : half.points = PointSet.half side s.points)
    (hk : Keeps config axis half kept) :
    (r.child side cut kept).LinedUp input rule
      (input.sortPlaces (rule (r.depth + 1) input.dimensions) (PointSet.half side places)) := by
  subst haxis
  have hmap : half.points = (PointSet.half side places).map input.pointAt := by
    rw [hhalf, hl.points s hs]
    cases side <;> simp [PointSet.half, Side.choose]
  have hsub : (PointSet.half side places).Pairwise fun i j =>
      input.orderKey rule i r.depth < input.orderKey rule j r.depth := by
    cases side with
    | lower => exact hl.order.take
    | upper => exact hl.order.drop
  constructor
  · rintro t rfl
    obtain ⟨-, hnone⟩ | ⟨-, u, hu, hsome⟩ := hk
    · cases hnone
    · cases hsome
      exact PointSet.points_of_sortBy hu hmap
  · rw [depth_child]
    refine (pairwise_mergeSort_ties _ hsub).imp fun hij => ?_
    exact List.cons_lt_cons_iff.2 hij

end Region

namespace Tree

variable {id first : Nat} {parent : Option Nat} {t lower upper : Tree} {r : Region} {cut : Cut} {n : Node}
  {input : PointSet} {places : List Nat}

/-- A cut passes the order of a region on to both of its parts. -/
theorem Regular.linedUp_parts (h : Regular config rule input.dimensions (.fork r cut lower upper))
    (hl : r.LinedUp input rule places) (side : Side) : (side.choose lower upper).region.LinedUp input rule
      (input.sortPlaces (rule (r.depth + 1) input.dimensions) (PointSet.half side places)) := by
  obtain ⟨s, hv, lo, up, hh, -, hrl, hru, -⟩ := h.parts
  have hdim : s.dimensions = input.dimensions := (h.ready.points s hh.points).2.1
  cases side with
  | lower =>
      rw [Side.choose, hrl]
      exact hl.child hh.points (by rw [hdim]) (by rw [hh.lower_eq]; rfl) hh.lower
  | upper =>
      rw [Side.choose, hru]
      exact hl.child hh.points (by rw [hdim]) (by rw [hh.upper_eq]; rfl) hh.upper

theorem Regular.lineupFrom_part (h : t.Regular config rule D) (input : PointSet) (places : List Nat) {side : Side}
    (hpart : t.region.path = r.path ++ [side]) (hn : n ∈ t.leafNodes id parent first) :
    input.lineupFrom rule r.depth places (n.path.drop r.depth) =
      input.lineupFrom rule t.region.depth
        (input.sortPlaces (rule (r.depth + 1) input.dimensions) (PointSet.half side places))
        (n.path.drop t.region.depth) := by
  have hdepth : t.region.depth = r.depth + 1 := by rw [Region.depth, hpart, List.length_append]; rfl
  obtain ⟨rest, hrest⟩ := h.prefix_of_mem_leafNodes hn
  have hway : n.path.drop r.depth = side :: n.path.drop t.region.depth := by
    rw [Region.depth, Region.depth, ← hrest, List.drop_left, hpart, List.append_assoc, List.drop_left]
    rfl
  rw [hway, PointSet.lineupFrom, hdepth]

theorem Regular.linedUp_leaf (h : t.Regular config rule input.dimensions) (hl : t.region.LinedUp input rule places)
    (hn : n ∈ t.leafNodes id parent first) :
    (∀ s, n.points = some s →
      s.points = (input.lineupFrom rule t.region.depth places (n.path.drop t.region.depth)).map input.pointAt) ∧
    (input.lineupFrom rule t.region.depth places (n.path.drop t.region.depth)).Pairwise fun i j =>
      input.orderKey rule i n.depth < input.orderKey rule j n.depth := by
  induction t generalizing id parent first places with
  | leaf r =>
      have hend : ((Tree.leaf r).node id parent first).path.drop r.depth = [] := List.drop_length
      rw [List.mem_singleton.1 hn, region, hend]
      exact ⟨hl.points, hl.order⟩
  | fork r cut lower upper ihl ihu =>
      obtain ⟨⟨hpl, -⟩, hpu, -⟩ := h.path_parts
      rcases List.mem_append.1 hn with hn | hn
      · rw [region, h.parted.lower_regular.lineupFrom_part input places hpl hn]
        exact ihl h.parted.lower_regular (h.linedUp_parts hl .lower) hn
      · rw [region, h.parted.upper_regular.lineupFrom_part input places hpu hn]
        exact ihu h.parted.upper_regular (h.linedUp_parts hl .upper) hn

theorem Regular.lineup_perm (h : t.Regular config rule D) (input : PointSet) (places : List Nat) (id : Nat)
    (parent : Option Nat) (first : Nat) :
    ((t.leafNodes id parent first).flatMap fun n =>
      input.lineupFrom rule t.region.depth places (n.path.drop t.region.depth)).Perm places := by
  induction t generalizing id parent first places with
  | leaf r =>
      have hend : ((Tree.leaf r).node id parent first).path.drop r.depth = [] := List.drop_length
      rw [leafNodes, List.flatMap_singleton, region, hend]
      exact .refl _
  | fork r cut lower upper ihl ihu =>
      have hp := h.parted
      obtain ⟨⟨hpl, -⟩, hpu, -⟩ := h.path_parts
      rw [leafNodes, List.flatMap_append, region,
        List.flatMap_congr fun n => hp.lower_regular.lineupFrom_part input places hpl,
        List.flatMap_congr fun n => hp.upper_regular.lineupFrom_part input places hpu]
      have hlow := (ihl hp.lower_regular (input.sortPlaces _ (PointSet.half .lower places)) first (some id)
        (first + 2)).trans (input.sortPlaces_perm (rule (r.depth + 1) input.dimensions) _)
      have hup := (ihu hp.upper_regular (input.sortPlaces _ (PointSet.half .upper places)) (first + 1) (some id)
        (first + 2 + lower.sizeBelow)).trans (input.sortPlaces_perm (rule (r.depth + 1) input.dimensions) _)
      exact (hlow.append hup).trans (PointSet.half_perm places)

end Tree

namespace Partition

variable {points : PointSet} {P : Partition} {root : Region} {tree : Tree}

theorem Holds.linedUp (h : Holds rule config points P root tree) : tree.region.LinedUp points rule
    (points.sortPlaces (rule 0 points.dimensions) (List.range points.size)) := by
  obtain ⟨s, hs, hr⟩ := h.region_eq
  rw [hr]
  constructor
  · rintro t ⟨⟩
    exact PointSet.points_of_sortBy hs points.map_pointAt_range.symm
  · refine (pairwise_mergeSort_ties _ List.pairwise_lt_range).imp fun hij => ?_
    refine List.cons_lt_cons_iff.2 (hij.imp_right fun hij => ⟨hij.1, ?_⟩)
    exact List.cons_lt_cons_iff.2 (Or.inl (Int.ofNat_lt.2 hij.2))

/-- Every place of the input falls to one leaf, and a leaf that keeps its points lists them in the strictly increasing
order of their keys: the coordinates along the axes from its own depth up to the root, then the place in the input. -/
theorem leaves_break_ties (hv : points.Valid) (hrule : ∀ depth, rule depth points.dimensions < points.dimensions)
    (hin : checkInput config points = .ok ()) :
    ∃ P, buildWith rule config points = .ok P ∧
      (P.leaves.flatMap fun n => points.lineup rule n.path).Perm (List.range points.size) ∧
      ∀ n ∈ P.leaves, ∀ s, n.points = some s →
        s.points = (points.lineup rule n.path).map points.pointAt ∧
        (points.lineup rule n.path).Pairwise fun i j =>
          points.orderKey rule i n.depth < points.orderKey rule j n.depth := by
  obtain ⟨P, root, tree, hb, h⟩ := exists_holds hv hrule hin
  have hdepth : tree.region.depth = 0 := by rw [Region.depth, h.path_eq, List.length_nil]
  refine ⟨P, hb, ?_, fun n hn s hs => ?_⟩
  · have hperm := h.regular.lineup_perm points
      (points.sortPlaces (rule 0 points.dimensions) (List.range points.size)) 0 none 1
    simp only [hdepth, List.drop_zero] at hperm
    rw [h.leaves_eq]
    exact hperm.trans (points.sortPlaces_perm ..)
  · rw [h.leaves_eq] at hn
    have hleaf := h.regular.linedUp_leaf h.linedUp hn
    rw [hdepth, List.drop_zero] at hleaf
    exact ⟨hleaf.1 s hs, hleaf.2⟩

theorem leaves_break_ties_plane :
    ∃ (points : PointSet) (P : Partition) (n : Node) (s : PointSet),
      points = ⟨2, [[2, 5], [0, 5], [1, 5], [0, 5]]⟩ ∧ buildWith roundRobin { maxDepth := 1 } points = .ok P ∧
      n ∈ P.leaves ∧ n.points = some s ∧ 0 ∈ points.lineup roundRobin n.path ∧
      s.points = (points.lineup roundRobin n.path).map points.pointAt ∧
      (points.lineup roundRobin n.path).Pairwise fun i j =>
        points.orderKey roundRobin i n.depth < points.orderKey roundRobin j n.depth := by
  have hv : PointSet.Valid ⟨2, [[2, 5], [0, 5], [1, 5], [0, 5]]⟩ := by decide
  obtain ⟨P, hb, hperm, hleaves⟩ : ∃ P, buildWith roundRobin { maxDepth := 1 } _ = .ok P ∧ _ :=
    leaves_break_ties hv (roundRobin_lt (by decide)) rfl
  obtain ⟨root, tree, h⟩ := holds_of_ok hv hb
  obtain ⟨n, hn, hplace⟩ := List.mem_flatMap.1 (hperm.mem_iff.2 (List.mem_range.2 (Nat.succ_pos 3)))
  have hdepth : n.path.length ≤ 1 := (h.depth_le (h.mem_nodes_of_mem_leaves hn)).trans (Nat.min_le_left ..)
  have hmany : 1 < Path.share 4 n.path :=
    calc 1 < 4 / 2 ^ 1 := by decide
      _ ≤ 4 / 2 ^ n.path.length := Nat.div_le_div_left (Nat.pow_le_pow_right two_pos hdepth) (Nat.two_pow_pos _)
      _ ≤ Path.share 4 n.path := (Path.share_between 4 n.path).1
  have hsize := (h.size_leaf hn).trans (if_pos (Or.inr hmany))
  obtain ⟨s, hs, -⟩ := Option.map_eq_some_iff.1 hsize
  exact ⟨_, P, n, s, rfl, hb, hn, hs, hplace, hleaves n hn s hs⟩

end Partition

section Permuted

variable {s t : PointSet} {axis : Nat}

/-- One coordinate tells apart all points that differ. -/
def PointSet.Separates (s : PointSet) (axis : Nat) : Prop :=
  ∀ p ∈ s.points, ∀ q ∈ s.points, rank (p.getD axis 0) = rank (q.getD axis 0) → p = q

instance (s : PointSet) (axis : Nat) : Decidable (s.Separates axis) :=
  inferInstanceAs (Decidable (∀ p ∈ s.points, ∀ q ∈ s.points, rank (p.getD axis 0) = rank (q.getD axis 0) → p = q))

theorem PointSet.Separates.sortBy_eq (h : s.Separates axis) (hdim : t.dimensions = s.dimensions)
    (hperm : t.points.Perm s.points) : t.sortBy axis = s.sortBy axis := by
  have hsize : t.size = s.size := hperm.length_eq
  cases hs : s.sortBy axis with
  | error e =>
      rw [sortBy_eq_error, ← hsize, ← hdim] at hs
      exact sortBy_eq_error.2 hs
  | ok s' =>
      cases ht : t.sortBy axis with
      | error e =>
          rw [sortBy_eq_error, hsize, hdim, ← sortBy_eq_error, hs] at ht
          cases ht
      | ok t' =>
          obtain ⟨hds, hps, hss⟩ := sortBy_spec hs
          obtain ⟨hdt, hpt, hst⟩ := sortBy_spec ht
          have hpoints : t'.points = s'.points := by
            refine List.Perm.eq_of_pairwise (fun p q hp hq hpq hqp => ?_) hst hss (hpt.trans (hperm.trans hps.symm))
            have hp' := hperm.mem_iff.1 (hpt.mem_iff.1 hp)
            exact h p hp' q (hps.mem_iff.1 hq) (le_antisymm hpq hqp)
          have hdims : t'.dimensions = s'.dimensions := by rw [hdt, hdim, hds]
          cases s'
          cases t'
          cases hpoints
          cases hdims
          rfl

namespace Partition

theorem checkInput_eq_ok : checkInput config s = .ok () ↔ config.Positive ∧ addressable 8 s.dimensions = true ∧
    ∀ p ∈ s.points, (config.field s.dimensions).contains p = true := by
  constructor
  · intro h
    obtain ⟨hfin, hpos, hroom, hin⟩ := checkInput_spec h
    exact ⟨⟨hfin, hpos⟩, hroom, hin⟩
  · rintro ⟨hpos, hroom, hin⟩
    have hnone : s.firstOutside? (config.field s.dimensions) = none := by
      rw [PointSet.firstOutside?, List.findIdx?_eq_none_iff]
      intro p hp
      simp [hin p hp]
    rw [checkInput_of_positive hpos, if_pos hroom, hnone]

/-- If the first axis tells apart all points that differ, the order in which the points are given does not matter:
either both orders are refused, or both lead to the same nodes. -/
theorem nodes_of_perm (hv : s.Valid) (hrule : ∀ depth, rule depth s.dimensions < s.dimensions)
    (hdim : t.dimensions = s.dimensions) (hperm : t.points.Perm s.points)
    (hties : s.Separates (rule 0 s.dimensions)) :
    (∃ e f, checkInput config s = .error e ∧ checkInput config t = .error f ∧
      buildWith rule config s = .error e ∧ buildWith rule config t = .error f) ∨
    ∃ P Q, buildWith rule config s = .ok P ∧ buildWith rule config t = .ok Q ∧ P.nodes = Q.nodes := by
  have hcheck : checkInput config t = .ok () ↔ checkInput config s = .ok () := by
    simp only [checkInput_eq_ok, hdim, hperm.mem_iff]
  have hroot : rootRegion config rule t = rootRegion config rule s := by
    rw [rootRegion, rootRegion, hdim, hties.sortBy_eq hdim hperm]
  cases hs : checkInput config s with
  | error e =>
      cases ht : checkInput config t with
      | error f => exact Or.inl ⟨e, f, rfl, rfl, buildWith_of_error hs, buildWith_of_error ht⟩
      | ok => cases hs.symm.trans (hcheck.1 ht)
  | ok =>
      obtain ⟨P, -, -, hP, -⟩ := exists_holds hv hrule hs
      obtain ⟨-, -, hrest⟩ := bind_eq_ok.1 hP
      obtain ⟨root, hr, hrest⟩ := bind_eq_ok.1 hrest
      obtain ⟨table, htable, hP'⟩ := bind_eq_ok.1 hrest
      cases hP'
      refine Or.inr ⟨_, ⟨config, t, table⟩, hP, ?_, rfl⟩
      exact bind_eq_ok.2 ⟨(), hcheck.2 hs, bind_eq_ok.2 ⟨root, hroot.trans hr, bind_eq_ok.2 ⟨table, htable, rfl⟩⟩⟩

theorem nodes_of_perm_zeros :
    PointSet.Separates ⟨2, [[0, 1], [-0.0, 2], [3, 1], [3, 1]]⟩ 0 ∧
    ∃ P Q, buildWith roundRobin {} ⟨2, [[0, 1], [-0.0, 2], [3, 1], [3, 1]]⟩ = .ok P ∧
      buildWith roundRobin {} ⟨2, [[3, 1], [3, 1], [-0.0, 2], [0, 1]]⟩ = .ok Q ∧ P.nodes = Q.nodes := by
  have hties : PointSet.Separates ⟨2, [[0, 1], [-0.0, 2], [3, 1], [3, 1]]⟩ 0 := by decide
  refine ⟨hties, Or.resolve_left (nodes_of_perm (by decide) (roundRobin_lt (by decide)) rfl (by decide) hties) ?_⟩
  rintro ⟨e, -, herror, -⟩
  have hin : checkInput {} ⟨2, [[0, 1], [-0.0, 2], [3, 1], [3, 1]]⟩ = .ok () := rfl
  cases hin.symm.trans herror

end Partition

end Permuted

end Bisection
