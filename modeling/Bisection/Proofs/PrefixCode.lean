import Mathlib
import Bisection.Proofs.Shape

namespace Bisection

variable {config : Config} {rule : AxisRule} {D : Nat}

namespace Path

variable {a b w : Path}

theorem label_prefix_iff : a.label.toList <+: b.label.toList ↔ a <+: b := by
  rw [label, label, String.toList_ofList, String.toList_ofList, List.prefix_map_iff_of_injective Side.bit_injective]

@[simp] theorem length_label (a : Path) : a.label.length = a.length := by
  rw [label, String.length_ofList, List.length_map]

theorem label_chars (a : Path) : ∀ c ∈ a.label.toList, c = '0' ∨ c = '1' := by
  intro c hc
  rw [label, String.toList_ofList] at hc
  obtain ⟨side, -, rfl⟩ := List.mem_map.1 hc
  cases side with
  | lower => exact .inl rfl
  | upper => exact .inr rfl

theorem exists_label_eq {w : String} (h : ∀ c ∈ w.toList, c = '0' ∨ c = '1') : ∃ q : Path, q.label = w := by
  have hrange : w.toList ∈ Set.range (List.map Side.bit) := by
    rw [Set.range_list_map]
    intro c hc
    rcases h c hc with rfl | rfl
    · exact ⟨.lower, rfl⟩
    · exact ⟨.upper, rfl⟩
  obtain ⟨q, hq⟩ := hrange
  exact ⟨q, by rw [label, hq, String.ofList_toList]⟩

/-- The paths part at a cut, where the first goes to the lower side and the second to the upper one. -/
def Before (a b : Path) : Prop := ∃ p a' b', a = p ++ .lower :: a' ∧ b = p ++ .upper :: b'

theorem Before.label_lt (h : a.Before b) : a.label < b.label := by
  obtain ⟨p, a', b', rfl, rfl⟩ := h
  rw [String.lt_iff_toList_lt, label, label, String.toList_ofList, String.toList_ofList, List.map_append,
    List.map_append]
  apply List.append_left_lt
  exact List.Lex.rel (by decide)

theorem Before.not_prefix (h : a.Before b) (ha : a <+: w) : ¬b <+: w := by
  obtain ⟨p, a', b', rfl, rfl⟩ := h
  obtain ⟨c, rfl⟩ := ha
  rw [List.append_assoc, List.prefix_append_right_inj, List.cons_append, List.cons_prefix_cons]
  rintro ⟨hside, -⟩
  cases hside

end Path

namespace Tree

variable {id first : Nat} {parent : Option Nat} {t : Tree} {n : Node}

theorem two_mul_length_leafNodes (t : Tree) (id : Nat) (parent : Option Nat) (first : Nat) :
    2 * (t.leafNodes id parent first).length = t.sizeBelow + 2 := by
  induction t generalizing id parent first with
  | leaf r => rfl
  | fork r cut lower upper ihl ihu =>
      rw [leafNodes, List.length_append, Nat.mul_add, ihl, ihu, sizeBelow]
      omega

theorem leafNodes_ne_nil (t : Tree) (id : Nat) (parent : Option Nat) (first : Nat) :
    t.leafNodes id parent first ≠ [] := by
  have hlength := t.two_mul_length_leafNodes id parent first
  exact List.ne_nil_of_length_pos (by omega)

namespace Regular

theorem prefix_of_mem (h : t.Regular config rule D) (hn : n ∈ t.numbered id parent first) :
    t.region.path <+: n.path := by
  induction t generalizing id parent first with
  | leaf r =>
      rw [List.mem_singleton.1 hn]
      exact List.prefix_rfl
  | fork r cut lower upper ihl ihu =>
      obtain ⟨⟨hl, -⟩, hu, -⟩ := h.path_parts
      rw [(numbered_fork ..).mem_iff, List.mem_cons, List.mem_append] at hn
      rcases hn with rfl | hn | hn
      · exact List.prefix_rfl
      · refine (List.prefix_append r.path [.lower]).trans ?_
        rw [← hl]
        exact ihl h.parted.lower_regular hn
      · refine (List.prefix_append r.path [.upper]).trans ?_
        rw [← hu]
        exact ihu h.parted.upper_regular hn

theorem prefix_of_mem_leafNodes (h : t.Regular config rule D) (hn : n ∈ t.leafNodes id parent first) :
    t.region.path <+: n.path := by
  have hmem := (leafNodes_perm ..).mem_iff.1 hn
  exact h.prefix_of_mem (List.mem_of_mem_filter hmem)

theorem leaves_before (h : t.Regular config rule D) :
    (t.leafNodes id parent first).Pairwise fun x y => x.path.Before y.path := by
  induction t generalizing id parent first with
  | leaf r => exact List.pairwise_singleton _ _
  | fork r cut lower upper ihl ihu =>
      have hp := h.parted
      obtain ⟨⟨hl, -⟩, hu, -⟩ := h.path_parts
      refine List.pairwise_append.2 ⟨ihl hp.lower_regular, ihu hp.upper_regular, ?_⟩
      intro x hx y hy
      obtain ⟨a, ha⟩ := hp.lower_regular.prefix_of_mem_leafNodes hx
      obtain ⟨b, hb⟩ := hp.upper_regular.prefix_of_mem_leafNodes hy
      rw [hl, List.append_assoc] at ha
      rw [hu, List.append_assoc] at hb
      exact ⟨r.path, a, b, ha.symm, hb.symm⟩

/-- A path that goes on from the root at least as deep as every leaf passes through one of them. -/
theorem exists_leaf_prefix (h : t.Regular config rule D) {w : Path} (hw : t.region.path <+: w)
    (hlong : ∀ n ∈ t.leafNodes id parent first, n.depth ≤ w.length) :
    ∃ n ∈ t.leafNodes id parent first, n.path <+: w := by
  induction t generalizing id parent first with
  | leaf r => exact ⟨_, List.mem_singleton_self _, hw⟩
  | fork r cut lower upper ihl ihu =>
      have hp := h.parted
      obtain ⟨⟨hl, -⟩, hu, -⟩ := h.path_parts
      obtain ⟨b, rfl⟩ := hw
      cases b with
      | nil =>
          -- the path cannot end here, as there is a leaf below
          obtain ⟨n, hn⟩ := List.exists_mem_of_ne_nil _ (lower.leafNodes_ne_nil first (some id) (first + 2))
          have hdeep := (hp.lower_regular.prefix_of_mem_leafNodes hn).length_le
          have hle := hlong n (List.mem_append_left _ hn)
          rw [hl, List.length_append, List.length_singleton] at hdeep
          rw [List.append_nil] at hle
          exact absurd (hdeep.trans hle) (Nat.not_succ_le_self _)
      | cons side b =>
          cases side with
          | lower =>
              obtain ⟨n, hn, hpre⟩ := ihl hp.lower_regular (by rw [hl]; exact ⟨b, List.append_assoc ..⟩)
                fun n hn => hlong n (List.mem_append_left _ hn)
              exact ⟨n, List.mem_append_left _ hn, hpre⟩
          | upper =>
              obtain ⟨n, hn, hpre⟩ := ihu hp.upper_regular (by rw [hu]; exact ⟨b, List.append_assoc ..⟩)
                fun n hn => hlong n (List.mem_append_right _ hn)
              exact ⟨n, List.mem_append_right _ hn, hpre⟩

end Regular

end Tree

def Stats.ofNodes (nodes : List Node) : Stats where
  nodes := nodes.length
  leaves := nodes.countP Node.isLeaf
  emptyLeaves := nodes.countP fun n => n.isLeaf && n.pointCount == 0
  maxDepth := ((nodes.filter Node.isLeaf).map Node.depth).foldl max 0
  maxLeafPoints := ((nodes.filter Node.isLeaf).map Node.pointCount).foldl max 0

namespace Partition

variable {points : PointSet} {P : Partition} {root : Region} {tree : Tree}

theorem depth_le_maxDepth {n : Node} (hn : n ∈ P.leaves) : n.depth ≤ P.stats.maxDepth := by
  rw [stats, List.foldl_eq_foldr]
  exact List.le_max_of_le (List.mem_map_of_mem hn) le_rfl

theorem stats_eq_ofNodes (h : P.leaves.Perm (P.nodes.filter Node.isLeaf)) : P.stats = Stats.ofNodes P.nodes := by
  have hmax (f : Node → Nat) :
      (P.leaves.map f).foldl max 0 = ((P.nodes.filter Node.isLeaf).map f).foldl max 0 := (h.map f).foldl_eq 0
  have hempty : (P.leaves.filter fun n => n.pointCount == 0).length =
      P.nodes.countP fun n => n.isLeaf && n.pointCount == 0 := by
    rw [(h.filter _).length_eq, List.filter_filter, List.countP_eq_length_filter]
    simp only [Bool.and_comm]
  rw [stats, Stats.ofNodes, hmax, hmax, hempty, h.length_eq, ← List.countP_eq_length_filter]

namespace Holds

theorem leaves_before (h : Holds rule config points P root tree) :
    P.leaves.Pairwise fun x y => x.path.Before y.path := by
  rw [h.leaves_eq]
  exact h.regular.leaves_before

theorem leaves_eq_of_prefix (h : Holds rule config points P root tree) {w : Path} {x y : Node} (hx : x ∈ P.leaves)
    (hy : y ∈ P.leaves) (hxw : x.path <+: w) (hyw : y.path <+: w) : x = y := by
  by_contra hne
  have : Std.Symm fun x y : Node => x.path.Before y.path ∨ y.path.Before x.path := ⟨fun _ _ => Or.symm⟩
  have hpair : P.leaves.Pairwise fun x y => x.path.Before y.path ∨ y.path.Before x.path :=
    h.leaves_before.imp Or.inl
  rcases hpair.forall hx hy hne with hlt | hlt
  · exact hlt.not_prefix hxw hyw
  · exact hlt.not_prefix hyw hxw

theorem exists_leaf_prefix (h : Holds rule config points P root tree) {w : Path} (hw : P.stats.maxDepth ≤ w.length) :
    ∃ leaf ∈ P.leaves, leaf.path <+: w := by
  have hroot : tree.region.path <+: w := by
    rw [h.path_eq]
    exact List.nil_prefix
  have hlong : ∀ n ∈ tree.leafNodes 0 none 1, n.depth ≤ w.length := by
    intro n hn
    rw [← h.leaves_eq] at hn
    exact (depth_le_maxDepth hn).trans hw
  rw [h.leaves_eq]
  exact h.regular.exists_leaf_prefix hroot hlong

theorem length_nodes (h : Holds rule config points P root tree) : P.nodes.length + 1 = 2 * P.leaves.length := by
  rw [h.nodes, h.leaves_eq, tree.two_mul_length_leafNodes, Tree.nodes, List.length_cons, Tree.length_nodesBelow]

end Holds

/-- Every binary text at least as long as the deepest leaf begins with the label of exactly one leaf. Labels increase in
the order of the leaves, which are the nodes without parts, each once, so that the figures are those of all nodes. -/
theorem leaves_prefix_code (hv : points.Valid) (hb : buildWith rule config points = .ok P) :
    (∀ w : String, (∀ c ∈ w.toList, c = '0' ∨ c = '1') → P.stats.maxDepth ≤ w.length →
      ∃! leaf, leaf ∈ P.leaves ∧ leaf.label.toList <+: w.toList) ∧
    (P.leaves.map Node.label).Pairwise (· < ·) ∧ P.leaves.Perm (P.nodes.filter Node.isLeaf) ∧
    P.stats = Stats.ofNodes P.nodes ∧ P.stats.nodes + 1 = 2 * P.stats.leaves := by
  obtain ⟨root, tree, h⟩ := holds_of_ok hv hb
  refine ⟨?_, ?_, h.leaves_perm, stats_eq_ofNodes h.leaves_perm, h.length_nodes⟩
  · intro w hbits hlong
    obtain ⟨q, rfl⟩ := Path.exists_label_eq hbits
    rw [Path.length_label] at hlong
    obtain ⟨leaf, hleaf, hpre⟩ := h.exists_leaf_prefix hlong
    refine ⟨leaf, ⟨hleaf, Path.label_prefix_iff.2 hpre⟩, ?_⟩
    rintro other ⟨hother, hpre'⟩
    exact h.leaves_eq_of_prefix hother hleaf (Path.label_prefix_iff.1 hpre') hpre
  · rw [List.pairwise_map]
    exact h.leaves_before.imp Path.Before.label_lt

theorem leaves_prefix_code_plane :
    ∃ P, buildWith roundRobin {} ⟨2, [[3, 4], [1, 2], [1, 6], [3, 4], [0, 0]]⟩ = .ok P ∧
      P.stats.maxDepth ≤ "0110".length ∧
      (∃! leaf, leaf ∈ P.leaves ∧ leaf.label.toList <+: "0110".toList) ∧
      (P.leaves.map Node.label).Pairwise (· < ·) ∧ P.leaves.Perm (P.nodes.filter Node.isLeaf) ∧
      P.stats = Stats.ofNodes P.nodes ∧ P.stats.nodes + 1 = 2 * P.stats.leaves := by
  obtain ⟨P, root, tree, hb, h⟩ : ∃ P root tree,
      buildWith roundRobin {} ⟨2, [[3, 4], [1, 2], [1, 6], [3, 4], [0, 0]]⟩ = .ok P ∧ _ :=
    exists_holds (by decide) (roundRobin_lt (by decide)) rfl
  have hdepth : P.stats.maxDepth ≤ "0110".length := by
    rw [stats, List.foldl_eq_foldr]
    refine List.max_le_of_forall_le _ _ fun d hd => ?_
    obtain ⟨n, hn, rfl⟩ := List.mem_map.1 hd
    exact (h.depth_le (h.mem_nodes_of_mem_leaves hn)).trans (by decide)
  obtain ⟨hcode, hrest⟩ := leaves_prefix_code (by decide) hb
  exact ⟨P, hb, hdepth, hcode "0110" (by simp) hdepth, hrest⟩

end Partition

end Bisection
