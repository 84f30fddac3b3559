import Mathlib
import Bisection.Proofs.Assignment

namespace Bisection

variable {config config' : Config} {rule rule' : AxisRule} {D D' : Nat}

/-- Whether a region at some depth is cut, given how many points fall to it: it is not too deep, there are two points
at least, and they were kept. -/
def Config.Divides (c : Config) (depth count : Nat) : Prop :=
  depth < c.maxDepth ∧ 2 ≤ count ∧ (depth = 0 ∨ c.minPoints < count)

def Side.share (count : Nat) : Side → Nat
  | .lower => count / 2
  | .upper => count - count / 2

theorem Side.bit_injective : Function.Injective Side.bit := by
  intro x y h
  cases x <;> cases y <;> first | rfl | exact absurd h (by decide)

namespace Path

variable {b : Path} {n depth : Nat} {side : Side}

/-- How many of `n` points fall to the region at the end of a path. -/
def share (n : Nat) (b : Path) : Nat := b.foldl Side.share n

/-- A path leads to a region if every region before its end is cut. -/
def Leads (config : Config) (depth n : Nat) (b : Path) : Prop :=
  ∀ i < b.length, config.Divides (depth + i) (share n (b.take i))

theorem leads_nil : Leads config depth n [] := fun i hi => absurd hi (Nat.not_lt_zero i)

theorem leads_cons : Leads config depth n (side :: b) ↔
    config.Divides depth n ∧ Leads config (depth + 1) (side.share n) b := by
  constructor
  · intro h
    refine ⟨h 0 (Nat.zero_lt_succ _), fun i hi => ?_⟩
    rw [Nat.add_assoc, Nat.add_comm 1]
    exact h (i + 1) (Nat.succ_lt_succ hi)
  · rintro ⟨h, ht⟩ i hi
    cases i with
    | zero => exact h
    | succ i =>
        have hn := ht i (Nat.lt_of_succ_lt_succ hi)
        rwa [Nat.add_assoc, Nat.add_comm 1] at hn

/-- Halving again and again divides by a power of two, rounded down or up. -/
theorem share_between (n : Nat) (b : Path) : n / 2 ^ b.length ≤ share n b ∧ share n b ≤ n ⌈/⌉ 2 ^ b.length := by
  induction b generalizing n with
  | nil => simp [share]
  | cons side b ih =>
      obtain ⟨hlow, hhigh⟩ := ih (side.share n)
      have hshare : n / 2 ≤ side.share n ∧ 2 * side.share n ≤ n + 1 := by
        cases side <;> simp only [Side.share] <;> omega
      constructor
      · calc n / 2 ^ (b.length + 1) = n / 2 / 2 ^ b.length := by rw [pow_succ', Nat.div_div_eq_div_mul]
          _ ≤ side.share n / 2 ^ b.length := Nat.div_le_div_right hshare.1
          _ ≤ share (side.share n) b := hlow
      · refine hhigh.trans ((ceilDiv_le_iff_le_mul (by positivity)).2 ?_)
        have hceil : n ≤ 2 ^ (b.length + 1) * (n ⌈/⌉ 2 ^ (b.length + 1)) :=
          (ceilDiv_le_iff_le_mul (by positivity)).1 le_rfl
        rw [pow_succ', Nat.mul_assoc] at hceil
        rw [List.length_cons, pow_succ']
        omega

theorem share_eq (n : Nat) (b : Path) : share n b = n / 2 ^ b.length ∨ share n b = n ⌈/⌉ 2 ^ b.length := by
  obtain ⟨hlow, hhigh⟩ := share_between n b
  have hnear : n ⌈/⌉ 2 ^ b.length ≤ n / 2 ^ b.length + 1 := by
    rw [ceilDiv_le_iff_le_mul (by positivity)]
    exact (Nat.lt_mul_div_succ n (by positivity)).le
  omega

theorem Leads.length_le (h : Leads config 0 n b) : b.length ≤ min config.maxDepth (Nat.clog 2 n) := by
  rcases Nat.eq_zero_or_pos b.length with hzero | hpos
  · rw [hzero]
    exact Nat.zero_le _
  · obtain ⟨hdepth, htwo, -⟩ := h (b.length - 1) (by omega)
    have hhigh := (share_between n (b.take (b.length - 1))).2
    rw [List.length_take, min_eq_left (Nat.sub_le _ _)] at hhigh
    have hpow : 2 ^ (b.length - 1) < n := by
      by_contra hc
      have hone := (ceilDiv_le_iff_le_mul (c := 1) (by positivity)).2 ((Nat.not_lt.1 hc).trans_eq (mul_one _).symm)
      omega
    have hlog := (Nat.lt_clog_iff_pow_lt one_lt_two).2 hpow
    omega

theorem label_injective : Function.Injective label :=
  fun _ _ h => List.map_injective_iff.2 Side.bit_injective (String.ofList_injective h)

end Path

namespace Region.Assigned

variable {r : Region} {given : List Point}

theorem size_eq (h : r.Assigned config given) : r.points.map PointSet.size =
    if r.depth = 0 ∨ config.minPoints < given.length then some given.length else none := by
  cases h with
  | kept s points perm many => rw [if_pos many, points, Option.map_some, PointSet.size, perm.length_eq]
  | dropped points inner few => rw [if_neg (by omega), points, Option.map_none]

theorem stops_iff (h : r.Assigned config given) : r.Stops config ↔ ¬config.Divides r.depth given.length := by
  unfold Stops Config.Divides
  cases h with
  | kept s points perm many =>
      have hsize : s.size = given.length := perm.length_eq
      simp only [points, reduceCtorEq, Option.some.injEq, exists_eq_left', hsize, false_or]
      omega
  | dropped points inner few => simp only [points, true_or, true_iff]; omega

theorem divides (h : r.Assigned config given) (hsplit : r.split config rule ≠ .ok none) :
    config.Divides r.depth given.length := by
  by_contra hc
  exact hsplit (split_eq_none.2 (h.stops_iff.2 hc))

end Region.Assigned

namespace Tree

variable {id first : Nat} {parent : Option Nat} {t t' lower upper : Tree} {r : Region} {cut : Cut} {n : Node}
  {given given' : List Point}

theorem Regular.divides (h : Regular config rule D (.fork r cut lower upper)) (ha : r.Assigned config given) :
    config.Divides r.depth given.length := by
  obtain ⟨s, hv, lo, up, hh, -⟩ := h.parts
  apply ha.divides
  rw [Region.split_eq_some.2 ⟨s, hv, lo, up, hh, rfl, rfl, rfl⟩]
  rintro ⟨⟩

theorem Regular.path_parts (h : Regular config rule D (.fork r cut lower upper)) :
    (lower.region.path = r.path ++ [.lower] ∧ lower.region.depth = r.depth + 1) ∧
      upper.region.path = r.path ++ [.upper] ∧ upper.region.depth = r.depth + 1 := by
  obtain ⟨s, hv, lo, up, -, -, hl, hu, -⟩ := h.parts
  rw [hl, hu]
  exact ⟨⟨rfl, Region.depth_child ..⟩, rfl, Region.depth_child ..⟩

def numbered (id : Nat) (parent : Option Nat) (first : Nat) (t : Tree) : List Node :=
  t.node id parent first :: t.nodesBelow id first

theorem nodesBelow_fork (r : Region) (cut : Cut) (lower upper : Tree) (id first : Nat) :
    ((Tree.fork r cut lower upper).nodesBelow id first).Perm (lower.numbered first (some id) (first + 2) ++
      upper.numbered (first + 1) (some id) (first + 2 + lower.sizeBelow)) :=
  List.perm_middle.symm.cons _

theorem numbered_fork (r : Region) (cut : Cut) (lower upper : Tree) (id : Nat) (parent : Option Nat) (first : Nat) :
    ((Tree.fork r cut lower upper).numbered id parent first).Perm
      ((Tree.fork r cut lower upper).node id parent first :: (lower.numbered first (some id) (first + 2) ++
        upper.numbered (first + 1) (some id) (first + 2 + lower.sizeBelow))) :=
  (nodesBelow_fork ..).cons _

theorem leafNodes_perm (t : Tree) (id : Nat) (parent : Option Nat) (first : Nat) :
    (t.leafNodes id parent first).Perm ((t.numbered id parent first).filter Node.isLeaf) := by
  induction t generalizing id parent first with
  | leaf r => exact .refl _
  | fork r cut lower upper ihl ihu =>
      refine List.Perm.trans ?_ ((numbered_fork ..).filter Node.isLeaf).symm
      rw [List.filter_cons_of_neg (by simp [node, Node.isLeaf]), List.filter_append]
      exact (ihl ..).append (ihu ..)

theorem Regular.mem_paths (h : t.Regular config rule D) (ha : t.region.Assigned config given) {q : Path} :
    q ∈ (t.numbered id parent first).map Node.path ↔
      ∃ b, q = t.region.path ++ b ∧ Path.Leads config t.region.depth given.length b := by
  induction t generalizing id parent first given with
  | leaf r =>
      have hstop := ha.stops_iff.1 h.stops
      rw [numbered, nodesBelow, List.map_singleton, List.mem_singleton]
      constructor
      · rintro rfl
        exact ⟨[], (List.append_nil _).symm, Path.leads_nil⟩
      · rintro ⟨_ | ⟨side, b⟩, rfl, hb⟩
        · exact List.append_nil _
        · exact absurd (Path.leads_cons.1 hb).1 hstop
  | fork r cut lower upper ihl ihu =>
      have hp := h.parted
      have hdiv := h.divides ha
      obtain ⟨low, up, -, hlow, hup, hal, hau, -⟩ := h.deals ha
      obtain ⟨⟨hpl, hdl⟩, hpu, hdu⟩ := h.path_parts
      rw [((numbered_fork ..).map Node.path).mem_iff, List.map_cons, List.map_append, List.mem_cons, List.mem_append,
        ihl hp.lower_regular hal, ihu hp.upper_regular hau, hpl, hpu, hdl, hdu, hlow, hup]
      constructor
      · rintro (rfl | ⟨b, rfl, hb⟩ | ⟨b, rfl, hb⟩)
        · exact ⟨[], (List.append_nil _).symm, Path.leads_nil⟩
        · exact ⟨.lower :: b, List.append_assoc .., Path.leads_cons.2 ⟨hdiv, hb⟩⟩
        · exact ⟨.upper :: b, List.append_assoc .., Path.leads_cons.2 ⟨hdiv, hb⟩⟩
      · rintro ⟨_ | ⟨side, b⟩, rfl, hb⟩
        · exact Or.inl (List.append_nil _)
        · obtain ⟨-, hb⟩ := Path.leads_cons.1 hb
          cases side with
          | lower => exact Or.inr (Or.inl ⟨b, List.append_cons .., hb⟩)
          | upper => exact Or.inr (Or.inr ⟨b, List.append_cons .., hb⟩)

theorem Regular.nodup_paths (h : t.Regular config rule D) (ha : t.region.Assigned config given) :
    ((t.numbered id parent first).map Node.path).Nodup := by
  induction t generalizing id parent first given with
  | leaf r => exact List.nodup_singleton _
  | fork r cut lower upper ihl ihu =>
      have hp := h.parted
      obtain ⟨low, up, -, -, -, hal, hau, -⟩ := h.deals ha
      obtain ⟨⟨hpl, -⟩, hpu, -⟩ := h.path_parts
      rw [((numbered_fork ..).map Node.path).nodup_iff, List.map_cons, List.map_append, List.nodup_cons,
        List.mem_append, hp.lower_regular.mem_paths hal, hp.upper_regular.mem_paths hau, List.nodup_append, hpl, hpu]
      refine ⟨?_, ihl hp.lower_regular hal, ihu hp.upper_regular hau, ?_⟩
      · rintro (⟨b, hb, -⟩ | ⟨b, hb, -⟩) <;> simp [node, region] at hb
      · rintro q hl _ hu rfl
        obtain ⟨b, hb, -⟩ := (hp.lower_regular.mem_paths hal).1 hl
        obtain ⟨b', hb', -⟩ := (hp.upper_regular.mem_paths hau).1 hu
        rw [hb, hpl, hpu] at hb'
        simp at hb'

theorem Regular.size_leaf (h : t.Regular config rule D) (ha : t.region.Assigned config given)
    (hn : n ∈ t.leafNodes id parent first) : ∃ b, n.path = t.region.path ++ b ∧ n.points.map PointSet.size =
      if n.depth = 0 ∨ config.minPoints < Path.share given.length b then some (Path.share given.length b)
      else none := by
  induction t generalizing id parent first given with
  | leaf r =>
      rw [List.mem_singleton.1 hn]
      exact ⟨[], (List.append_nil _).symm, ha.size_eq⟩
  | fork r cut lower upper ihl ihu =>
      have hp := h.parted
      obtain ⟨low, up, -, hlow, hup, hal, hau, -⟩ := h.deals ha
      obtain ⟨⟨hpl, -⟩, hpu, -⟩ := h.path_parts
      rcases List.mem_append.1 hn with hn | hn
      · obtain ⟨b, hb, hsize⟩ := ihl hp.lower_regular hal hn
        rw [hpl, List.append_assoc] at hb
        rw [hlow] at hsize
        exact ⟨_, hb, hsize⟩
      · obtain ⟨b, hb, hsize⟩ := ihu hp.upper_regular hau hn
        rw [hpu, List.append_assoc] at hb
        rw [hup] at hsize
        exact ⟨_, hb, hsize⟩

/-- Trees with the same cuts but for where they lie, and with leaves that hold equally many points. -/
inductive Alike : Tree → Tree → Prop
  | leaf {r r' : Region} (path : r.path = r'.path)
      (size : r.points.map PointSet.size = r'.points.map PointSet.size) : Alike (.leaf r) (.leaf r')
  | fork {r r' : Region} {cut cut' : Cut} {lower lower' upper upper' : Tree} (path : r.path = r'.path)
      (low : Alike lower lower') (up : Alike upper upper') :
      Alike (.fork r cut lower upper) (.fork r' cut' lower' upper')

theorem Regular.alike (h : t.Regular config rule D) (h' : t'.Regular config' rule' D')
    (hdepth : config.maxDepth = config'.maxDepth) (hmin : config.minPoints = config'.minPoints)
    (ha : t.region.Assigned config given) (ha' : t'.region.Assigned config' given')
    (hpath : t.region.path = t'.region.path) (hcount : given.length = given'.length) : t.Alike t' := by
  have same {r r' : Region} {g g' : List Point} (hp : r.path = r'.path) (hc : g.length = g'.length) :
      config.Divides r.depth g.length ↔ config'.Divides r'.depth g'.length := by
    rw [Config.Divides, Config.Divides, hdepth, hmin, Region.depth, Region.depth, hp, hc]
  induction t generalizing t' given given' with
  | leaf r =>
      cases t' with
      | leaf r' =>
          refine .leaf hpath ?_
          have hsize := ha.size_eq
          rw [hmin, Region.depth, hpath, hcount] at hsize
          exact hsize.trans ha'.size_eq.symm
      | fork r' cut' lower' upper' =>
          exact absurd ((same hpath hcount).2 (h'.divides ha')) (ha.stops_iff.1 h.stops)
  | fork r cut lower upper ihl ihu =>
      cases t' with
      | leaf r' => exact absurd ((same hpath hcount).1 (h.divides ha)) (ha'.stops_iff.1 h'.stops)
      | fork r' cut' lower' upper' =>
          change r.path = r'.path at hpath
          obtain ⟨low, up, -, hlow, hup, hal, hau, -⟩ := h.deals ha
          obtain ⟨low', up', -, hlow', hup', hal', hau', -⟩ := h'.deals ha'
          obtain ⟨⟨hpl, -⟩, hpu, -⟩ := h.path_parts
          obtain ⟨⟨hpl', -⟩, hpu', -⟩ := h'.path_parts
          refine .fork hpath ?_ ?_
          · exact ihl h.parted.lower_regular h'.parted.lower_regular hal hal' (by rw [hpl, hpl', hpath])
              (by rw [hlow, hlow', hcount])
          · exact ihu h.parted.upper_regular h'.parted.upper_regular hau hau' (by rw [hpu, hpu', hpath])
              (by rw [hup, hup', hcount])

end Tree

/-- What a node has besides coordinates: its place among the others, and how many points it holds. -/
structure Outline where
  id : Nat
  parent : Option Nat
  label : String
  parts : Option (Nat × Nat)
  size : Option Nat
  deriving DecidableEq, Repr

def Node.outline (n : Node) : Outline where
  id := n.id
  parent := n.parent
  label := n.label
  parts := match n.content with
    | .leaf _ => none
    | .split _ lower upper => some (lower, upper)
  size := n.points.map PointSet.size

namespace Tree.Alike

variable {t t' : Tree}

theorem sizeBelow_eq (h : t.Alike t') : t.sizeBelow = t'.sizeBelow := by
  induction h with
  | leaf => rfl
  | fork _ _ _ ihl ihu => rw [sizeBelow, sizeBelow, ihl, ihu]

theorem outline_node (h : t.Alike t') (id : Nat) (parent : Option Nat) (first : Nat) :
    (t.node id parent first).outline = (t'.node id parent first).outline := by
  cases h with
  | leaf path size => simp [node, region, Node.outline, Node.label, Node.points, path, size]
  | fork path => simp [node, region, Node.outline, Node.label, Node.points, path]

theorem outline_nodesBelow (h : t.Alike t') (id first : Nat) :
    (t.nodesBelow id first).map Node.outline = (t'.nodesBelow id first).map Node.outline := by
  induction h generalizing id first with
  | leaf => rfl
  | fork path low up ihl ihu =>
      simp only [nodesBelow, List.map_cons, List.map_append, ihl, ihu, low.outline_node, up.outline_node,
        low.sizeBelow_eq]

theorem outline_leafNodes (h : t.Alike t') (id : Nat) (parent : Option Nat) (first : Nat) :
    (t.leafNodes id parent first).map Node.outline = (t'.leafNodes id parent first).map Node.outline := by
  induction h generalizing id parent first with
  | leaf path size => simp only [leafNodes, List.map_singleton, (Alike.leaf path size).outline_node]
  | fork path low up ihl ihu => simp only [leafNodes, List.map_append, ihl, ihu, low.sizeBelow_eq]

end Tree.Alike

namespace Partition

variable {points points' : PointSet} {P P' : Partition}

theorem stats_eq_of_outlines (hn : P.nodes.map Node.outline = P'.nodes.map Node.outline)
    (hl : P.leaves.map Node.outline = P'.leaves.map Node.outline) : P.stats = P'.stats := by
  have hdepth (Q : Partition) : Q.leaves.map Node.depth = (Q.leaves.map Node.outline).map (·.label.length) := by
    simp [Function.comp_def, Node.outline, Node.label, Path.label, Node.depth]
  have hcount (Q : Partition) : Q.leaves.map Node.pointCount = (Q.leaves.map Node.outline).map (·.size.getD 0) := by
    simp [Function.comp_def, Node.outline, Node.pointCount]
  have hempty (Q : Partition) : (Q.leaves.filter fun n => n.pointCount == 0).length =
      (Q.leaves.map Node.pointCount).countP (· == 0) := by
    rw [List.countP_map, List.countP_eq_length_filter]
    rfl
  have hnodes := congrArg List.length hn
  have hleaves := congrArg List.length hl
  simp only [List.length_map] at hnodes hleaves
  rw [stats, stats, hempty, hempty, hcount, hcount, hdepth, hdepth, hl, hnodes, hleaves]

namespace Holds

variable {root : Region} {tree : Tree}

theorem path_eq (h : Holds rule config points P root tree) : tree.region.path = [] := by
  obtain ⟨s, -, hr⟩ := h.region_eq
  rw [hr]

theorem leaves_perm (h : Holds rule config points P root tree) : P.leaves.Perm (P.nodes.filter Node.isLeaf) := by
  rw [h.leaves_eq, h.nodes]
  exact tree.leafNodes_perm 0 none 1

theorem mem_paths (h : Holds rule config points P root tree) {b : Path} :
    b ∈ P.nodes.map Node.path ↔ b.Leads config 0 points.size := by
  rw [h.nodes]
  refine (h.regular.mem_paths h.assigned).trans ?_
  rw [Region.depth, h.path_eq]
  simp [PointSet.size]

theorem nodup_paths (h : Holds rule config points P root tree) : (P.nodes.map Node.path).Nodup := by
  rw [h.nodes]
  exact h.regular.nodup_paths h.assigned

theorem depth_le (h : Holds rule config points P root tree) {n : Node} (hn : n ∈ P.nodes) :
    n.depth ≤ min config.maxDepth (Nat.clog 2 points.size) :=
  (h.mem_paths.1 (List.mem_map_of_mem hn)).length_le

theorem mem_nodes_of_mem_leaves (h : Holds rule config points P root tree) {n : Node} (hn : n ∈ P.leaves) :
    n ∈ P.nodes := (List.mem_filter.1 (h.leaves_perm.mem_iff.1 hn)).1

theorem size_leaf (h : Holds rule config points P root tree) {n : Node} (hn : n ∈ P.leaves) :
    n.points.map PointSet.size = if n.depth = 0 ∨ config.minPoints < Path.share points.size n.path
      then some (Path.share points.size n.path) else none := by
  rw [h.leaves_eq] at hn
  obtain ⟨b, hb, hsize⟩ := h.regular.size_leaf h.assigned hn
  rw [h.path_eq, List.nil_append] at hb
  rw [hb]
  exact hsize

end Holds

theorem outlines_eq (hv : points.Valid) (hb : buildWith rule config points = .ok P) (hv' : points'.Valid)
    (hb' : buildWith rule' config' points' = .ok P') (hdepth : config.maxDepth = config'.maxDepth)
    (hmin : config.minPoints = config'.minPoints) (hsize : points.size = points'.size) :
    P.nodes.map Node.outline = P'.nodes.map Node.outline ∧
      P.leaves.map Node.outline = P'.leaves.map Node.outline := by
  obtain ⟨root, tree, h⟩ := holds_of_ok hv hb
  obtain ⟨root', tree', h'⟩ := holds_of_ok hv' hb'
  have halike : tree.Alike tree' := by
    refine h.regular.alike h'.regular hdepth hmin h.assigned h'.assigned ?_ hsize
    obtain ⟨s, -, hr⟩ := h.region_eq
    obtain ⟨s', -, hr'⟩ := h'.region_eq
    rw [hr, hr']
  rw [h.nodes, h'.nodes, h.leaves_eq, h'.leaves_eq]
  refine ⟨?_, halike.outline_leafNodes 0 none 1⟩
  rw [Tree.nodes, Tree.nodes, List.map_cons, List.map_cons, halike.outline_node, halike.outline_nodesBelow]

/-- The number of points and the two limits decide which nodes there are, where each stands and how many points it
holds. The count at a node is the number of points divided by a power of two, rounded down or up. -/
theorem shape_of_counts (hv : points.Valid) (hrule : ∀ depth, rule depth points.dimensions < points.dimensions)
    (hin : checkInput config points = .ok ()) :
    ∃ P, buildWith rule config points = .ok P ∧
      (P.nodes.map Node.label).Nodup ∧
      (∀ b : Path, b.label ∈ P.nodes.map Node.label ↔ ∀ i < b.length, i < config.maxDepth ∧
        2 ≤ Path.share points.size (b.take i) ∧ (i = 0 ∨ config.minPoints < Path.share points.size (b.take i))) ∧
      (∀ leaf ∈ P.leaves, leaf.points.map PointSet.size =
        if leaf.depth = 0 ∨ config.minPoints < Path.share points.size leaf.path
        then some (Path.share points.size leaf.path) else none) ∧
      (∀ b : Path, Path.share points.size b = points.size / 2 ^ b.length ∨
        Path.share points.size b = points.size ⌈/⌉ 2 ^ b.length) ∧
      (∀ n ∈ P.nodes, n.depth ≤ min config.maxDepth (Nat.clog 2 points.size)) ∧
      ∀ (rule' : AxisRule) (config' : Config) (points' : PointSet) (P' : Partition), points'.Valid →
        config'.maxDepth = config.maxDepth → config'.minPoints = config.minPoints → points'.size = points.size →
        buildWith rule' config' points' = .ok P' →
        P'.nodes.map Node.outline = P.nodes.map Node.outline ∧
          P'.leaves.map Node.outline = P.leaves.map Node.outline ∧ P'.stats = P.stats := by
  obtain ⟨P, root, tree, hb, h⟩ := exists_holds hv hrule hin
  have hlabels : P.nodes.map Node.label = (P.nodes.map Node.path).map Path.label := by
    rw [List.map_map]
    rfl
  refine ⟨P, hb, ?_, fun b => ?_, fun leaf => h.size_leaf, Path.share_eq _, fun n => h.depth_le, ?_⟩
  · rw [hlabels]
    exact h.nodup_paths.map Path.label_injective
  · rw [hlabels, List.mem_map_of_injective Path.label_injective, h.mem_paths]
    simp only [Path.Leads, Config.Divides, Nat.zero_add]
  · intro rule' config' points' P' hv' hdepth hmin hsize hb'
    obtain ⟨hn, hl⟩ := outlines_eq hv' hb' hv hb hdepth hmin hsize
    exact ⟨hn, hl, stats_eq_of_outlines hn hl⟩

theorem shape_of_counts_plane :
    ∃ P, buildWith roundRobin {} ⟨2, [[3, 4], [1, 2], [1, 6], [3, 4], [0, 0]]⟩ = .ok P ∧
      (P.nodes.map Node.label).Nodup ∧
      (∀ b : Path, b.label ∈ P.nodes.map Node.label ↔ ∀ i < b.length, i < 32 ∧
        2 ≤ Path.share 5 (b.take i) ∧ (i = 0 ∨ 1 < Path.share 5 (b.take i))) ∧
      (∀ leaf ∈ P.leaves, leaf.points.map PointSet.size =
        if leaf.depth = 0 ∨ 1 < Path.share 5 leaf.path then some (Path.share 5 leaf.path) else none) ∧
      (∀ b : Path, Path.share 5 b = 5 / 2 ^ b.length ∨ Path.share 5 b = 5 ⌈/⌉ 2 ^ b.length) ∧
      (∀ n ∈ P.nodes, n.depth ≤ min 32 (Nat.clog 2 5)) ∧
      ∃ P', buildWith (fun _ _ => 2) { fieldSize := 7 } ⟨3, List.replicate 5 [1, 2, 3]⟩ = .ok P' ∧
        P'.nodes.map Node.outline = P.nodes.map Node.outline ∧
          P'.leaves.map Node.outline = P.leaves.map Node.outline ∧ P'.stats = P.stats := by
  obtain ⟨P, hb, hnodup, hpaths, hsizes, hshare, hdepth, hother⟩ :
      ∃ P, buildWith roundRobin {} ⟨2, [[3, 4], [1, 2], [1, 6], [3, 4], [0, 0]]⟩ = .ok P ∧ _ :=
    shape_of_counts (by decide) (roundRobin_lt (by decide)) rfl
  obtain ⟨P', -, -, hb', -⟩ : ∃ P' root tree,
      buildWith (fun _ _ => 2) { fieldSize := 7 } ⟨3, List.replicate 5 [1, 2, 3]⟩ = .ok P' ∧ _ :=
    exists_holds (by decide) (fun _ => by decide) rfl
  exact ⟨P, hb, hnodup, hpaths, hsizes, hshare, hdepth, P', hb',
    hother (fun _ _ => 2) { fieldSize := 7 } ⟨3, List.replicate 5 [1, 2, 3]⟩ P' (by decide) rfl rfl (by decide) hb'⟩

end Partition

end Bisection
