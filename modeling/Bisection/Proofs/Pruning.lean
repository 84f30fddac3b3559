import Mathlib
import Bisection.Proofs.PrefixCode

namespace Bisection

variable {config config' : Config} {rule : AxisRule} {D : Nat}

/-- Limits that stop a region at least as soon. -/
structure Config.Tighter (c c' : Config) : Prop where
  depth : c.maxDepth ≤ c'.maxDepth
  points : c'.minPoints ≤ c.minPoints

namespace Region

/-- The same region under tighter limits, where its points may have been dropped. -/
structure Thins (config config' : Config) (r r' : Region) : Prop where
  path : r.path = r'.path
  bounds : r.bounds = r'.bounds
  points : r.points = r'.points ∨ r.points = none ∧ config'.minPoints < config.minPoints

variable {r r' : Region} {s : PointSet} {h : Halves} {lo up : Option PointSet}

theorem Keeps.thins {axis : Nat} {half : PointSet} {kept kept' : Option PointSet} (hk : Keeps config axis half kept)
    (hk' : Keeps config' axis half kept') (hc : config.Tighter config') :
    kept = kept' ∨ kept = none ∧ config'.minPoints < config.minPoints := by
  have hmin := hc.points
  obtain ⟨hfew, rfl⟩ | ⟨hmany, t, ht, rfl⟩ := hk
  · obtain ⟨-, rfl⟩ | ⟨hmany, -⟩ := hk'
    · exact Or.inl rfl
    · exact Or.inr ⟨rfl, hmany.trans_le hfew⟩
  · obtain ⟨hfew, -⟩ | ⟨-, t', ht', rfl⟩ := hk'
    · omega
    · cases ht.symm.trans ht'
      exact Or.inl rfl

theorem Thins.child (hr : r.Thins config config' r') {side : Side} {cut : Cut} {kept kept' : Option PointSet}
    (hk : kept = kept' ∨ kept = none ∧ config'.minPoints < config.minPoints) :
    (r.child side cut kept).Thins config config' (r'.child side cut kept') := by
  refine ⟨?_, ?_, hk⟩
  · simp only [Region.child, hr.path]
  · simp only [Region.child, hr.bounds]

theorem Thins.depth_eq (hr : r.Thins config config' r') : r.depth = r'.depth := congrArg List.length hr.path

theorem Thins.points_eq (hr : r.Thins config config' r') (hs : r.points = some s) : r'.points = some s := by
  rcases hr.points with he | ⟨hnone, -⟩
  · exact he ▸ hs
  · cases hs.symm.trans hnone

end Region

namespace Tree

variable {id id' first first' : Nat} {parent parent' : Option Nat} {t t' lower upper : Tree} {r : Region} {cut : Cut}
  {n : Node}

/-- A tree with some parts of the other one cut off: where that one is cut no further either, at the greatest depth, or
where points were dropped. -/
inductive Prunes (config config' : Config) : Tree → Tree → Prop
  | leaf {r : Region} {t' : Tree} (path : r.path = t'.region.path) (bounds : r.bounds = t'.region.bounds)
      (short : t'.sizeBelow = 0 ∨ config.maxDepth ≤ r.depth ∨ config'.minPoints < config.minPoints) :
      Prunes config config' (.leaf r) t'
  | fork {r r' : Region} {cut : Cut} {lower lower' upper upper' : Tree} (path : r.path = r'.path)
      (bounds : r.bounds = r'.bounds) (shallow : r.depth < config.maxDepth) (low : Prunes config config' lower lower')
      (up : Prunes config config' upper upper') :
      Prunes config config' (.fork r cut lower upper) (.fork r' cut lower' upper')

theorem Regular.exists_fork (h : Regular config rule D (.fork r cut lower upper)) (h' : t'.Regular config' rule D)
    (hc : config.Tighter config') (hr : r.Thins config config' t'.region) :
    ∃ r' lower' upper', t' = .fork r' cut lower' upper' ∧ r.depth < config.maxDepth ∧
      lower.region.Thins config config' lower'.region ∧ upper.region.Thins config config' upper'.region := by
  obtain ⟨s, hv, lo, up, hh, rfl, hrl, hru, -⟩ := h.parts
  have hs := hr.points_eq hh.points
  cases t' with
  | leaf r' =>
      exfalso
      obtain hnone | hdeep | ⟨s', hs', hsmall⟩ := h'.stops
      · cases hs.symm.trans hnone
      · have hshallow := hh.shallow
        rw [hr.depth_eq] at hshallow
        exact absurd (hshallow.trans_le hc.depth) (Nat.not_lt.2 hdeep)
      · cases hs.symm.trans hs'
        exact absurd hh.size_ge (Nat.not_le.2 hsmall)
  | fork r' cut' lower' upper' =>
      obtain ⟨s', hv', lo', up', hh', rfl, hrl', hru', -⟩ := h'.parts
      change r.Thins config config' r' at hr
      cases hs.symm.trans hh'.points
      have hhalves := hh'.halves
      have hlower := hh'.lower
      have hupper := hh'.upper
      rw [← hr.depth_eq] at hhalves hlower hupper
      cases hh.halves.symm.trans hhalves
      refine ⟨r', lower', upper', by rw [hr.depth_eq], hh.shallow, ?_, ?_⟩
      · rw [hrl, hrl', ← hr.depth_eq]
        exact hr.child (hh.lower.thins hlower hc)
      · rw [hru, hru', ← hr.depth_eq]
        exact hr.child (hh.upper.thins hupper hc)

theorem Regular.prunes (h : t.Regular config rule D) (h' : t'.Regular config' rule D) (hc : config.Tighter config')
    (hr : t.region.Thins config config' t'.region) : t.Prunes config config' t' := by
  induction t generalizing t' with
  | leaf r =>
      refine .leaf hr.path hr.bounds ?_
      cases t' with
      | leaf r' => exact Or.inl rfl
      | fork r' cut' lower' upper' =>
          obtain ⟨s', hv', lo', up', hh', -⟩ := h'.parts
          rcases hr.points with hsame | ⟨-, hfewer⟩
          · obtain hnone | hdeep | ⟨s, hs, hsmall⟩ := h.stops
            · cases (hsame.symm.trans hnone).symm.trans hh'.points
            · exact Or.inr (Or.inl hdeep)
            · cases (hsame.symm.trans hs).symm.trans hh'.points
              exact absurd hh'.size_ge (Nat.not_le.2 hsmall)
          · exact Or.inr (Or.inr hfewer)
  | fork r cut lower upper ihl ihu =>
      obtain ⟨r', lower', upper', rfl, hshallow, hl, hu⟩ := h.exists_fork h' hc hr
      exact .fork hr.path hr.bounds hshallow (ihl h.parted.lower_regular h'.parted.lower_regular hl)
        (ihu h.parted.upper_regular h'.parted.upper_regular hu)

theorem Prunes.exists_node (h : t.Prunes config config' t') (hn : n ∈ t.numbered id parent first) :
    ∃ n' ∈ t'.numbered id' parent' first', n'.path = n.path ∧ n'.bounds = n.bounds ∧
      ∀ cut l u, n.content = .split cut l u → ∃ l' u', n'.content = .split cut l' u' := by
  induction h generalizing id parent first id' parent' first' with
  | @leaf r t' path bounds =>
      rw [List.mem_singleton.1 hn]
      refine ⟨t'.node id' parent' first', List.mem_cons_self, path.symm, bounds.symm, ?_⟩
      intro cut l u hcut
      cases hcut
  | @fork r r' cut lower lower' upper upper' path bounds shallow low up ihl ihu =>
      rw [(numbered_fork ..).mem_iff, List.mem_cons, List.mem_append] at hn
      simp only [(numbered_fork r' cut lower' upper' ..).mem_iff, List.mem_cons, List.mem_append]
      rcases hn with rfl | hn | hn
      · refine ⟨_, Or.inl rfl, path.symm, bounds.symm, ?_⟩
        rintro c l u ⟨⟩
        exact ⟨_, _, rfl⟩
      · obtain ⟨n', hn', hsame⟩ := ihl hn
        exact ⟨n', Or.inr (Or.inl hn'), hsame⟩
      · obtain ⟨n', hn', hsame⟩ := ihu hn
        exact ⟨n', Or.inr (Or.inr hn'), hsame⟩

theorem Regular.depth_lt_of_mem_nodesBelow (h : t.Regular config rule D) (hn : n ∈ t.nodesBelow id first) :
    t.region.depth < n.depth := by
  cases t with
  | leaf r => cases hn
  | fork r cut lower upper =>
      have hp := h.parted
      obtain ⟨⟨-, hl⟩, -, hu⟩ := h.path_parts
      rw [(nodesBelow_fork ..).mem_iff, List.mem_append] at hn
      rcases hn with hn | hn
      · exact hl.symm.trans_le (hp.lower_regular.prefix_of_mem hn).length_le
      · exact hu.symm.trans_le (hp.upper_regular.prefix_of_mem hn).length_le

end Tree

theorem Tree.filter_node_cons {t : Tree} {depth : Nat} (h : t.region.depth ≤ depth) (id : Nat) (parent : Option Nat)
    (first : Nat) (rest : List Node) : (t.node id parent first :: rest).filter (·.depth ≤ depth) =
      t.node id parent first :: rest.filter (·.depth ≤ depth) :=
  List.filter_cons_of_pos (decide_eq_true h)

def Node.cut? (n : Node) : Option Cut :=
  match n.content with
  | .leaf _ => none
  | .split cut .. => some cut

/-- What there is of a node in a tree of a given depth: its label, its depth and its box, and above that depth its
cut. -/
def Node.extent (limit : Nat) (n : Node) : String × Nat × Box × Option Cut :=
  (n.label, n.depth, n.bounds, if n.depth < limit then n.cut? else none)

theorem Node.extent_congr {n n' : Node} {limit : Nat} (hpath : n.path = n'.path) (hbounds : n.bounds = n'.bounds)
    (hcut : n.depth < limit → n.cut? = n'.cut?) : n.extent limit = n'.extent limit := by
  have hlabel : n.label = n'.label := congrArg Path.label hpath
  have hdepth : n.depth = n'.depth := congrArg List.length hpath
  rw [extent, extent, hlabel, ← hdepth, hbounds]
  by_cases h : n.depth < limit
  · rw [if_pos h, if_pos h, hcut h]
  · rw [if_neg h, if_neg h]

namespace Tree.Prunes

variable {id id' first first' : Nat} {parent parent' : Option Nat} {t t' : Tree}

theorem extent_node (h : t.Prunes config config' t') (hmin : config.minPoints = config'.minPoints) :
    (t.node id parent first).extent config.maxDepth = (t'.node id' parent' first').extent config.maxDepth := by
  cases h with
  | @leaf r t' path bounds short =>
      refine Node.extent_congr path bounds fun hshallow => ?_
      rcases short with hsize | hdeep | hfewer
      · cases t' with
        | leaf r' => rfl
        | fork => simp [sizeBelow] at hsize
      · exact absurd hshallow (Nat.not_lt.2 hdeep)
      · exact absurd hmin hfewer.ne'
  | fork path bounds => exact Node.extent_congr path bounds fun _ => rfl

theorem extent_nodesBelow (h : t.Prunes config config' t') (h' : t'.Regular config' rule D)
    (hmin : config.minPoints = config'.minPoints) : (t.nodesBelow id first).map (Node.extent config.maxDepth) =
      ((t'.nodesBelow id' first').filter (·.depth ≤ config.maxDepth)).map (Node.extent config.maxDepth) := by
  induction h generalizing id first id' first' with
  | @leaf r t' path bounds short =>
      suffices hnone : (t'.nodesBelow id' first').filter (·.depth ≤ config.maxDepth) = [] by rw [hnone]; rfl
      rcases short with hsize | hdeep | hfewer
      · have hempty : t'.nodesBelow id' first' = [] :=
          List.eq_nil_of_length_eq_zero ((t'.length_nodesBelow ..).trans hsize)
        rw [hempty, List.filter_nil]
      · refine List.filter_eq_nil_iff.2 fun n hn => ?_
        have hbelow := h'.depth_lt_of_mem_nodesBelow hn
        rw [Region.depth, ← path] at hbelow
        simpa using hdeep.trans_lt hbelow
      · exact absurd hmin hfewer.ne'
  | @fork r r' cut lower lower' upper upper' path bounds shallow low up ihl ihu =>
      have hp := h'.parted
      obtain ⟨⟨-, hl⟩, -, hu⟩ := h'.path_parts
      have hdepth : r'.depth + 1 ≤ config.maxDepth := by
        rw [Region.depth, ← path]
        exact shallow
      rw [nodesBelow, nodesBelow, filter_node_cons (hl.trans_le hdepth), filter_node_cons (hu.trans_le hdepth),
        List.filter_append]
      simp only [List.map_cons, List.map_append]
      rw [ihl hp.lower_regular, ihu hp.upper_regular, low.extent_node hmin,
        up.extent_node hmin]

end Tree.Prunes

namespace Partition

variable {points : PointSet}

/-- Limits that stop sooner give a part of the same tree: every node keeps its label, its depth and its box, and every
cut its place. If only the greatest depth differs, the nodes are those up to that depth, in the same order. -/
theorem tighter_limits_prune {D D' m m' : Nat} {f : Float} (hv : points.Valid)
    (hrule : ∀ depth, rule depth points.dimensions < points.dimensions) (hD : D ≤ D') (hm : m ≤ m')
    (hin : checkInput ⟨D, m', f⟩ points = .ok ()) :
    ∃ P P', buildWith rule ⟨D, m', f⟩ points = .ok P ∧ buildWith rule ⟨D', m, f⟩ points = .ok P' ∧
      (∀ n ∈ P.nodes, ∃ n' ∈ P'.nodes, n'.label = n.label ∧ n'.depth = n.depth ∧ n'.bounds = n.bounds ∧
        ∀ cut l u, n.content = .split cut l u → ∃ l' u', n'.content = .split cut l' u') ∧
      (m = m' → P.nodes.map (Node.extent D) = (P'.nodes.filter (·.depth ≤ D)).map (Node.extent D)) := by
  obtain ⟨P, root, tree, hb, h⟩ := exists_holds hv hrule hin
  obtain ⟨P', root', tree', hb', h'⟩ : ∃ P' root' tree', buildWith rule ⟨D', m, f⟩ points = .ok P' ∧ _ :=
    exists_holds hv hrule hin
  have hroot : tree.region.Thins ⟨D, m', f⟩ ⟨D', m, f⟩ tree'.region := by
    cases h.start.symm.trans h'.start
    rw [h.root_eq, h'.root_eq]
    exact ⟨rfl, rfl, Or.inl rfl⟩
  have hp : tree.Prunes ⟨D, m', f⟩ ⟨D', m, f⟩ tree' := h.regular.prunes h'.regular ⟨hD, hm⟩ hroot
  refine ⟨P, P', hb, hb', ?_, ?_⟩
  · rw [h.nodes, h'.nodes]
    intro n hn
    obtain ⟨n', hn', hpath, hbounds, hcut⟩ := hp.exists_node hn
    exact ⟨n', hn', congrArg Path.label hpath, congrArg List.length hpath, hbounds, hcut⟩
  · intro hmin
    have hzero : tree'.region.depth ≤ D := by
      rw [Region.depth, h'.path_eq]
      exact Nat.zero_le D
    rw [h.nodes, h'.nodes, Tree.nodes, Tree.nodes, Tree.filter_node_cons hzero, List.map_cons, List.map_cons,
      hp.extent_node hmin.symm, hp.extent_nodesBelow h'.regular hmin.symm]

theorem tighter_limits_prune_plane :
    ∃ P P', buildWith roundRobin ⟨1, 1, 1000⟩ ⟨2, [[3, 4], [1, 2], [1, 6], [3, 4], [0, 0]]⟩ = .ok P ∧
      buildWith roundRobin ⟨32, 1, 1000⟩ ⟨2, [[3, 4], [1, 2], [1, 6], [3, 4], [0, 0]]⟩ = .ok P' ∧
      (∀ n ∈ P.nodes, ∃ n' ∈ P'.nodes, n'.label = n.label ∧ n'.depth = n.depth ∧ n'.bounds = n.bounds ∧
        ∀ cut l u, n.content = .split cut l u → ∃ l' u', n'.content = .split cut l' u') ∧
      P.nodes.map (Node.extent 1) = (P'.nodes.filter (·.depth ≤ 1)).map (Node.extent 1) := by
  obtain ⟨P, P', hb, hb', hnodes, hexact⟩ :
      ∃ P P', buildWith roundRobin ⟨1, 1, 1000⟩ ⟨2, [[3, 4], [1, 2], [1, 6], [3, 4], [0, 0]]⟩ = .ok P ∧
        buildWith roundRobin ⟨32, 1, 1000⟩ ⟨2, [[3, 4], [1, 2], [1, 6], [3, 4], [0, 0]]⟩ = .ok P' ∧ _ ∧ _ :=
    tighter_limits_prune (by decide) (roundRobin_lt (by decide)) (by decide) le_rfl rfl
  exact ⟨P, P', hb, hb', hnodes, hexact rfl⟩

end Partition

end Bisection
