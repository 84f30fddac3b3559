import Mathlib
import Bisection.Partition.Query
import Bisection.Partition.Tree
import Bisection.Proofs.Cutting

namespace Bisection

variable {config : Config} {rule : AxisRule}

namespace Tree

/-- The tree of a region by the recursive rule: a region that stops is a leaf with its points; any other is cut,
and each part grows by the same rule. -/
inductive Grown (config : Config) (rule : AxisRule) : Region → Tree → Prop
  | leaf (r : Region) (stops : r.Stops config) : Grown config rule r (.leaf r)
  | fork (r : Region) (s : PointSet) (h : Halves) (lo up : Option PointSet) (lower upper : Tree)
      (halved : r.Halved config rule s h lo up)
      (growLower : Grown config rule (r.child .lower ⟨rule r.depth s.dimensions, h.coord⟩ lo) lower)
      (growUpper : Grown config rule (r.child .upper ⟨rule r.depth s.dimensions, h.coord⟩ up) upper) :
      Grown config rule r (.fork r ⟨rule r.depth s.dimensions, h.coord⟩ lower upper)

theorem Grown.region_eq {r : Region} {t : Tree} (h : Grown config rule r t) : t.region = r := by
  cases h <;> rfl

theorem grow_eq_ok_iff {r : Region} {t : Tree} : grow config rule r = .ok t ↔ Grown config rule r t := by
  constructor
  · intro e
    fun_induction grow config rule r generalizing t with
    | case1 r err hsplit => cases e
    | case2 r hsplit =>
        cases e
        exact .leaf r (Region.split_eq_none.1 hsplit)
    | case3 r cut lower upper hsplit hw ihl ihu =>
        obtain ⟨tl, hl, e⟩ := bind_eq_ok.1 e
        obtain ⟨tu, hu, e⟩ := bind_eq_ok.1 e
        cases e
        obtain ⟨s, h, lo, up, hh, rfl, rfl, rfl⟩ := Region.split_eq_some.1 hsplit
        exact .fork r s h lo up tl tu hh (ihl hl) (ihu hu)
  · intro h
    induction h with
    | leaf r stops =>
        have e : r.split config rule = .ok none := Region.split_eq_none.2 stops
        rw [grow]
        split <;> simp_all
    | fork r s h lo up lower upper halved growLower growUpper ihl ihu =>
        have e := Region.split_eq_some.2 ⟨s, h, lo, up, halved, rfl, rfl, rfl⟩
        rw [grow]
        split
        · simp_all
        · simp_all
        · rename_i cut l u hsplit
          rw [e] at hsplit
          cases hsplit
          rw [ihl, ihu]
          rfl

theorem exists_grown {D : Nat} (hrule : ∀ depth, rule depth D < D) {r : Region} (hr : r.Ready rule D) :
    ∃ t, Grown config rule r t := by
  rcases hr.stops_or_halved hrule with hstop | ⟨s, h, lo, up, hh⟩
  · exact ⟨_, .leaf r hstop⟩
  · have hw := Region.split_weight (Region.split_eq_some.2 ⟨s, h, lo, up, hh, rfl, rfl, rfl⟩)
    let cut : Cut := ⟨rule r.depth s.dimensions, h.coord⟩
    have hl : (r.child .lower cut lo).Ready rule D := hh.ready hr cut .lower
    have hu : (r.child .upper cut up).Ready rule D := hh.ready hr cut .upper
    obtain ⟨lower, hlower⟩ := exists_grown hrule hl
    obtain ⟨upper, hupper⟩ := exists_grown hrule hu
    exact ⟨_, .fork r s h lo up lower upper hh hlower hupper⟩
termination_by r.weight

/-- A tree grown from a region that was ready to be cut. -/
structure Regular (config : Config) (rule : AxisRule) (D : Nat) (t : Tree) : Prop where
  grown : Grown config rule t.region t
  ready : t.region.Ready rule D

theorem Regular.stops {D : Nat} {r : Region} (h : Regular config rule D (.leaf r)) : r.Stops config := by
  cases h.grown with
  | leaf _ stops => exact stops

theorem Regular.parts {D : Nat} {r : Region} {cut : Cut} {lower upper : Tree}
    (h : Regular config rule D (.fork r cut lower upper)) :
    ∃ s hv lo up, r.Halved config rule s hv lo up ∧ cut = ⟨rule r.depth s.dimensions, hv.coord⟩ ∧
      lower.region = r.child .lower cut lo ∧ upper.region = r.child .upper cut up ∧
      Regular config rule D lower ∧ Regular config rule D upper := by
  obtain ⟨hg, hr⟩ := h
  change Grown config rule r _ at hg
  cases hg with
  | fork _ s hv lo up _ _ halved growLower growUpper =>
      have hready := halved.ready hr ⟨rule r.depth s.dimensions, hv.coord⟩
      refine ⟨s, hv, lo, up, halved, rfl, growLower.region_eq, growUpper.region_eq, ⟨?_, ?_⟩, ?_, ?_⟩
      · rwa [growLower.region_eq]
      · rw [growLower.region_eq]
        exact hready .lower
      · rwa [growUpper.region_eq]
      · rw [growUpper.region_eq]
        exact hready .upper

@[simp] theorem length_nodesBelow (t : Tree) (id first : Nat) : (t.nodesBelow id first).length = t.sizeBelow := by
  induction t generalizing id first with
  | leaf r => rfl
  | fork r cut lower upper ihl ihu =>
      simp only [nodesBelow, sizeBelow, List.length_cons, List.length_append, ihl, ihu]
      omega

/-- A list of nodes after the tree has grown from the node `id`: a tree that is cut turns the node into a cut
whose parts come next in number, and all that is below is appended. -/
def plant (nodes : List Node) (id : Nat) : Tree → List Node
  | .leaf _ => nodes
  | .fork r cut lower upper =>
    nodes.modify id (fun n => { n with content := .split cut nodes.length (nodes.length + 1) }) ++
      (Tree.fork r cut lower upper).nodesBelow id nodes.length

theorem plant_ofRegion (before after : List Node) (parent : Option Nat) (t : Tree) :
    plant (before ++ Node.ofRegion before.length parent t.region :: after) before.length t =
      before ++ t.node before.length parent (before.length + 1 + after.length) ::
        after ++ t.nodesBelow before.length (before.length + 1 + after.length) := by
  cases t with
  | leaf r => simp [plant, nodesBelow, node, Node.ofRegion, region]
  | fork r cut lower upper =>
      have hlen : before.length + (after.length + 1) = before.length + 1 + after.length := by omega
      simp [plant, region, hlen, List.modify_eq_take_drop, node, Node.ofRegion]

theorem plant_plant (nodes : List Node) (id : Nat) (r : Region) (cut : Cut) (lower upper : Tree) :
    plant (plant (nodes.modify id (fun n => { n with content := .split cut nodes.length (nodes.length + 1) }) ++
      [.ofRegion nodes.length (some id) lower.region, .ofRegion (nodes.length + 1) (some id) upper.region])
        nodes.length lower) (nodes.length + 1) upper = plant nodes id (.fork r cut lower upper) := by
  generalize hcut : nodes.modify id _ = before
  have hlen : before.length = nodes.length := by rw [← hcut, List.length_modify]
  have hl := plant_ofRegion before [.ofRegion (nodes.length + 1) (some id) upper.region] (some id) lower
  have hu := plant_ofRegion (before ++ [lower.node nodes.length (some id) (nodes.length + 2)])
    (lower.nodesBelow nodes.length (nodes.length + 2)) (some id) upper
  simp only [List.length_append, List.length_cons, List.length_nil, length_nodesBelow, hlen, List.append_assoc,
    List.cons_append, List.nil_append, Nat.zero_add, Nat.add_assoc, Nat.reduceAdd] at hl hu
  rw [hl, hu, plant, hcut, nodesBelow]
  simp only [Nat.add_assoc]

end Tree

theorem grow_stops {t : Table} {id : Nat} {r : Region} {rest : List (Nat × Region)} {hin}
    (h : r.split config rule = .ok none) :
    grow config rule t ((id, r) :: rest) hin =
      grow config rule t rest fun w hw => hin w (List.mem_cons_of_mem _ hw) := by
  rw [grow]
  split <;> simp_all

theorem lt_size_cutNode {t : Table} {id : Nat} {r lower upper : Region} {cut : Cut} {rest : List (Nat × Region)}
    (hin : ∀ w ∈ (id, r) :: rest, w.1 < t.size) (hid : id < t.size) :
    ∀ w ∈ (t.size, lower) :: (t.size + 1, upper) :: rest, w.1 < (t.cutNode id hid cut lower upper).size := by
  simp only [List.forall_mem_cons, Table.size_cutNode] at hin ⊢
  exact ⟨by omega, by omega, fun w hw => by have := hin.2 w hw; omega⟩

theorem grow_cut {t : Table} {id : Nat} {r lower upper : Region} {cut : Cut} {rest : List (Nat × Region)} {hin}
    (h : r.split config rule = .ok (some (cut, lower, upper))) :
    grow config rule t ((id, r) :: rest) hin =
      grow config rule (t.cutNode id (hin _ List.mem_cons_self) cut lower upper)
        ((t.size, lower) :: (t.size + 1, upper) :: rest) (lt_size_cutNode hin _) := by
  rw [grow]
  split
  · simp_all
  · simp_all
  · rename_i hsplit
    rw [h] at hsplit
    cases hsplit
    rfl

theorem toList_cutNode (t : Table) (id : Nat) (hid : id < t.size) (cut : Cut) (lower upper : Region) :
    (t.cutNode id hid cut lower upper).nodes.toList =
      t.nodes.toList.modify id (fun n => { n with content := .split cut t.size (t.size + 1) }) ++
        [.ofRegion t.size (some id) lower, .ofRegion (t.size + 1) (some id) upper] := by
  simp [Table.cutNode]

/-- What one waiting region does to the table, whatever else is in it and whatever waits behind: its tree grows
from its node, and nothing else changes. -/
theorem grow_waiting {r : Region} {tree : Tree} (h : Tree.Grown config rule r tree) :
    ∀ (t : Table) (id : Nat) (rest : List (Nat × Region)) (hin), ∃ (t' : Table) (hin' : _),
      grow config rule t ((id, r) :: rest) hin = grow config rule t' rest hin' ∧
        t'.nodes.toList = Tree.plant t.nodes.toList id tree := by
  induction h with
  | leaf r stops =>
      intro t id rest hin
      exact ⟨t, _, grow_stops (Region.split_eq_none.2 stops), rfl⟩
  | fork r s h lo up lower upper halved growLower growUpper ihl ihu =>
      intro t id rest hin
      -- The two parts are the next to be taken, so the hypotheses apply to them one after the other.
      rw [grow_cut (Region.split_eq_some.2 ⟨s, h, lo, up, halved, rfl, rfl, rfl⟩)]
      obtain ⟨t₂, hin₂, e₂, hn₂⟩ := ihl _ _ _ (lt_size_cutNode hin _)
      obtain ⟨t₃, hin₃, e₃, hn₃⟩ := ihu _ _ _ hin₂
      refine ⟨t₃, hin₃, e₂.trans e₃, ?_⟩
      rw [hn₃, hn₂, toList_cutNode, ← growLower.region_eq, ← growUpper.region_eq]
      exact Tree.plant_plant ..

theorem grow_error {r : Region} {e : Error} (h : Tree.grow config rule r = .error e) :
    ∀ (t : Table) (id : Nat) (rest : List (Nat × Region)) (hin),
      grow config rule t ((id, r) :: rest) hin = .error e := by
  fun_induction Tree.grow config rule r with
  | case1 r err hsplit =>
      cases h
      intro t id rest hin
      rw [grow]
      split <;> simp_all
  | case2 r hsplit => cases h
  | case3 r cut lower upper hsplit hw ihl ihu =>
      intro t id rest hin
      rw [grow_cut hsplit]
      cases hl : Tree.grow config rule lower with
      | error e' =>
          rw [hl] at h
          cases h
          exact ihl hl ..
      | ok tl =>
          obtain ⟨t', hin', e', -⟩ := grow_waiting (Tree.grow_eq_ok_iff.1 hl) _ _ _ (lt_size_cutNode hin _)
          rw [e']
          cases hu : Tree.grow config rule upper with
          | error e'' =>
              rw [hl, hu] at h
              cases h
              exact ihu hu ..
          | ok tu =>
              rw [hl, hu] at h
              cases h

theorem roundRobin_lt {D : Nat} (h : 0 < D) (depth : Nat) : roundRobin depth D < D := Nat.mod_lt depth h

namespace Partition

variable {points : PointSet} {P : Partition} {root : Region}

theorem rootRegion_ready (hv : points.Valid) (hroot : rootRegion config rule points = .ok root) :
    root.Ready rule points.dimensions := by
  obtain ⟨s, hs, e⟩ := bind_eq_ok.1 hroot
  cases e
  obtain ⟨hd, hp, hsorted⟩ := PointSet.sortBy_spec hs
  refine ⟨⟨List.length_replicate, List.length_replicate⟩, ?_⟩
  rintro t ⟨⟩
  exact ⟨⟨hd ▸ hv.1, fun p hm => hd ▸ hv.2 p (hp.mem_iff.1 hm)⟩, hd, hsorted⟩

/-- A partition holds the nodes of the tree that its root grows into. -/
structure Holds (rule : AxisRule) (config : Config) (points : PointSet) (P : Partition) (root : Region)
    (tree : Tree) : Prop where
  accepted : checkInput config points = .ok ()
  input : P.input = points
  start : rootRegion config rule points = .ok root
  root_eq : tree.region = root
  regular : tree.Regular config rule points.dimensions
  nodes : P.nodes = tree.nodes

theorem exists_holds_of_grown {tree : Tree} (hv : points.Valid) (hin : checkInput config points = .ok ())
    (hroot : rootRegion config rule points = .ok root) (htree : Tree.Grown config rule root tree) :
    ∃ P, buildWith rule config points = .ok P ∧ Holds rule config points P root tree := by
  have hready := rootRegion_ready hv hroot
  obtain ⟨t, _, e, hn⟩ := grow_waiting htree (.single root) 0 [] (by simp [Table.nonempty])
  rw [grow] at e
  have hnodes : t.nodes.toList = tree.nodes := by
    have hp := Tree.plant_ofRegion [] [] none tree
    rw [htree.region_eq] at hp
    exact hn.trans hp
  have hregular : tree.Regular config rule points.dimensions := by constructor <;> rwa [htree.region_eq]
  refine ⟨⟨config, points, t⟩, ?_, hin, rfl, hroot, htree.region_eq, hregular, hnodes⟩
  exact bind_eq_ok.2 ⟨(), hin, bind_eq_ok.2 ⟨root, hroot, bind_eq_ok.2 ⟨t, e, rfl⟩⟩⟩

theorem exists_holds (hv : points.Valid) (hrule : ∀ depth, rule depth points.dimensions < points.dimensions)
    (hin : checkInput config points = .ok ()) :
    ∃ P root tree, buildWith rule config points = .ok P ∧ Holds rule config points P root tree := by
  obtain ⟨s, hs⟩ := PointSet.sortBy_ok (hrule 0)
  obtain ⟨root, hroot⟩ : ∃ root, rootRegion config rule points = .ok root := ⟨_, bind_eq_ok.2 ⟨s, hs, rfl⟩⟩
  obtain ⟨tree, htree⟩ : ∃ tree, Tree.Grown config rule root tree :=
    Tree.exists_grown hrule (rootRegion_ready hv hroot)
  obtain ⟨P, hb, h⟩ := exists_holds_of_grown hv hin hroot htree
  exact ⟨P, root, tree, hb, h⟩

/-- Every partition that is built holds a tree, also if the rule has axes out of range at depths that are not cut. -/
theorem holds_of_ok (hv : points.Valid) (e : buildWith rule config points = .ok P) :
    ∃ root tree, Holds rule config points P root tree := by
  obtain ⟨⟨⟩, hin, e'⟩ := bind_eq_ok.1 e
  obtain ⟨root, hroot, e'⟩ := bind_eq_ok.1 e'
  obtain ⟨t, ht, -⟩ := bind_eq_ok.1 e'
  cases hg : Tree.grow config rule root with
  | error err => cases (grow_error hg ..).symm.trans ht
  | ok tree =>
      obtain ⟨Q, hQ, h⟩ := exists_holds_of_grown hv hin hroot (Tree.grow_eq_ok_iff.1 hg)
      cases e.symm.trans hQ
      exact ⟨root, tree, h⟩

end Partition

end Bisection
