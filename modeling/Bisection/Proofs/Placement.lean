import Mathlib
import Bisection.Area
import Bisection.Proofs.Growth

namespace Bisection

namespace Tree

/-- A tree lies among the nodes if its root is node `id`, its parts are numbered from `first`, and both lie there
as well. -/
inductive Lies (nodes : List Node) : Nat → Option Nat → Nat → Tree → Prop
  | leaf {id first : Nat} {parent : Option Nat} {r : Region}
      (root : nodes[id]? = some ((Tree.leaf r).node id parent first)) : Lies nodes id parent first (.leaf r)
  | fork {id first : Nat} {parent : Option Nat} {r : Region} {cut : Cut} {lower upper : Tree}
      (root : nodes[id]? = some ((Tree.fork r cut lower upper).node id parent first))
      (low : Lies nodes first (some id) (first + 2) lower)
      (up : Lies nodes (first + 1) (some id) (first + 2 + lower.sizeBelow) upper) :
      Lies nodes id parent first (.fork r cut lower upper)

variable {nodes : List Node} {id first : Nat} {parent : Option Nat} {t : Tree}

theorem Lies.root_eq (h : Lies nodes id parent first t) : nodes[id]? = some (t.node id parent first) := by
  cases h <;> assumption

theorem Lies.id_lt (h : Lies nodes id parent first t) : id < nodes.length := (List.getElem?_eq_some_iff.1 h.root_eq).1

theorem lies_of_getElem? (hroot : nodes[id]? = some (t.node id parent first))
    (hbelow : ∀ j n, (t.nodesBelow id first)[j]? = some n → nodes[first + j]? = some n) :
    Lies nodes id parent first t := by
  induction t generalizing id parent first with
  | leaf r => exact .leaf hroot
  | fork r cut lower upper ihl ihu =>
      apply Lies.fork hroot
      · apply ihl (hbelow 0 _ rfl)
        intro j n hj
        have hlt : j < (lower.nodesBelow first (first + 2)).length := (List.getElem?_eq_some_iff.1 hj).1
        have hn := hbelow (j + 2) n (by rw [nodesBelow]; exact (List.getElem?_append_left hlt).trans hj)
        rwa [Nat.add_comm j, ← Nat.add_assoc] at hn
      · apply ihu (hbelow 1 _ rfl)
        intro j n hj
        have hle := Nat.le_add_left (lower.nodesBelow first (first + 2)).length j
        have hn := hbelow (j + (lower.nodesBelow first (first + 2)).length + 2) n (by
          rw [nodesBelow]
          exact (List.getElem?_append_right hle).trans (by rwa [Nat.add_sub_cancel]))
        rw [length_nodesBelow] at hn
        rwa [show first + (j + lower.sizeBelow + 2) = first + 2 + lower.sizeBelow + j by omega] at hn

theorem lies_nodes (t : Tree) : Lies t.nodes 0 none 1 t :=
  lies_of_getElem? rfl fun j n hj => by rwa [nodes, Nat.add_comm, List.getElem?_cons_succ]

theorem Lies.exists_subtree (M : Tree → Prop)
    (inherit : ∀ r cut lower upper, M (.fork r cut lower upper) → M lower ∧ M upper)
    (h : Lies nodes id parent first t) (ht : M t) {j : Nat} (hj : j = id ∨ first ≤ j ∧ j < first + t.sizeBelow) :
    ∃ parent' first' s, Lies nodes j parent' first' s ∧ M s := by
  induction h with
  | leaf root =>
      rcases hj with rfl | hj
      · exact ⟨_, _, _, .leaf root, ht⟩
      · simp only [sizeBelow] at hj
        omega
  | @fork id first parent r cut lower upper root low up ihl ihu =>
      obtain ⟨hl, hu⟩ := inherit _ _ _ _ ht
      simp only [sizeBelow] at hj
      rcases hj with rfl | hj
      · exact ⟨_, _, _, .fork root low up, ht⟩
      by_cases hlow : j = first ∨ first + 2 ≤ j ∧ j < first + 2 + lower.sizeBelow
      · exact ihl hl hlow
      · exact ihu hu (by omega)

def leafNodes (id : Nat) (parent : Option Nat) (first : Nat) : Tree → List Node
  | .leaf r => [(Tree.leaf r).node id parent first]
  | .fork _ _ lower upper =>
    lower.leafNodes first (some id) (first + 2) ++
      upper.leafNodes (first + 1) (some id) (first + 2 + lower.sizeBelow)

/-- The leaf on whose side of every cut the point lies. -/
def leafOf (p : Point) (id : Nat) (parent : Option Nat) (first : Nat) : Tree → Node
  | .leaf r => (Tree.leaf r).node id parent first
  | .fork _ cut lower upper =>
    if p.getD cut.axis 0 ≤ cut.coord then lower.leafOf p first (some id) (first + 2)
    else upper.leafOf p (first + 1) (some id) (first + 2 + lower.sizeBelow)

end Tree

namespace Table

variable {t : Table} {tree : Tree} {id first : Nat} {parent : Option Nat}

theorem node_of_getElem? {n : Node} (h : t.nodes.toList[id]? = some n) (hid : id < t.size) : t.node ⟨id, hid⟩ = n := by
  rw [Array.getElem?_toList, Array.getElem?_eq_getElem hid] at h
  exact Option.some.inj h

theorem leavesFrom_leaf {i : Fin t.size} {points : Option PointSet} (h : (t.node i).content = .leaf points)
    (rest : List (Fin t.size)) : t.leavesFrom (i :: rest) = t.node i :: t.leavesFrom rest := by
  rw [leavesFrom]
  split <;> simp_all

theorem leavesFrom_split {i : Fin t.size} {cut : Cut} {l u : Nat} (h : (t.node i).content = .split cut l u)
    (hl : l < t.size) (hu : u < t.size) (rest : List (Fin t.size)) :
    t.leavesFrom (i :: rest) = t.leavesFrom (⟨l, hl⟩ :: ⟨u, hu⟩ :: rest) := by
  rw [leavesFrom]
  split <;> simp_all

theorem descend_leaf {i : Fin t.size} {p : Point} {points : Option PointSet} (h : (t.node i).content = .leaf points) :
    t.descend p i = t.node i := by
  rw [descend]
  split <;> simp_all

theorem descend_split {i : Fin t.size} {p : Point} {cut : Cut} {l u : Nat} (h : (t.node i).content = .split cut l u)
    (hl : l < t.size) (hu : u < t.size) : t.descend p i =
      if p.getD cut.axis 0 ≤ cut.coord then t.descend p ⟨l, hl⟩ else t.descend p ⟨u, hu⟩ := by
  rw [descend]
  split <;> simp_all

/-- A waiting node gives the leaves of its tree, whatever waits behind it. -/
theorem leavesFrom_eq (h : tree.Lies t.nodes.toList id parent first) (hid : id < t.size) (rest : List (Fin t.size)) :
    t.leavesFrom (⟨id, hid⟩ :: rest) = tree.leafNodes id parent first ++ t.leavesFrom rest := by
  induction h generalizing rest with
  | leaf root =>
      have hn := node_of_getElem? root hid
      rw [leavesFrom_leaf (by rw [hn]; rfl), hn, Tree.leafNodes, List.singleton_append]
  | fork root low up ihl ihu =>
      have hn := node_of_getElem? root hid
      rw [leavesFrom_split (by rw [hn]; rfl) low.id_lt up.id_lt, ihl, ihu, Tree.leafNodes, List.append_assoc]

theorem leavesUnder_eq (h : tree.Lies t.nodes.toList id parent first) (hid : id < t.size) :
    t.leavesUnder ⟨id, hid⟩ = tree.leafNodes id parent first := by
  rw [leavesUnder, leavesFrom_eq h, leavesFrom, List.append_nil]

theorem descend_eq (p : Point) (h : tree.Lies t.nodes.toList id parent first) (hid : id < t.size) :
    t.descend p ⟨id, hid⟩ = tree.leafOf p id parent first := by
  induction h with
  | leaf root =>
      have hn := node_of_getElem? root hid
      rw [descend_leaf (by rw [hn]; rfl), hn, Tree.leafOf]
  | fork root low up ihl ihu =>
      have hn := node_of_getElem? root hid
      rw [descend_split (by rw [hn]; rfl) low.id_lt up.id_lt, ihl, ihu, Tree.leafOf]

theorem node_find? (t : Table) (id : Nat) : (t.find? id).map t.node = t.nodes.toList[id]? := by
  unfold find?
  split
  · rw [Array.getElem?_toList, Array.getElem?_eq_getElem ‹_›]
    rfl
  · rw [Array.getElem?_toList, Array.getElem?_eq_none (Nat.le_of_not_lt ‹_›)]
    rfl

end Table

namespace Partition

variable {rule : AxisRule} {config : Config} {points : PointSet} {P : Partition} {root : Region} {tree : Tree}

theorem node?_eq (P : Partition) (id : Nat) : P.node? id = P.nodes[id]? := P.table.node_find? id

theorem leavesUnder?_eq {id first : Nat} {parent : Option Nat} (h : tree.Lies P.nodes id parent first) :
    P.leavesUnder? id = some (tree.leafNodes id parent first) := by
  have hid : id < P.table.size := h.id_lt
  rw [leavesUnder?, Table.find?, dif_pos hid, Option.map_some, P.table.leavesUnder_eq h]

namespace Holds

theorem lies (h : Holds rule config points P root tree) : tree.Lies P.nodes 0 none 1 := by
  rw [h.nodes]
  exact tree.lies_nodes

theorem bounds_eq (h : Holds rule config points P root tree) : P.bounds = root.bounds := by
  rw [bounds, Partition.root, Table.root, P.table.node_of_getElem? h.lies.root_eq, ← h.root_eq]
  rfl

theorem leaves_eq (h : Holds rule config points P root tree) : P.leaves = tree.leafNodes 0 none 1 :=
  P.table.leavesUnder_eq h.lies _

theorem locate?_eq (h : Holds rule config points P root tree) (p : Point) :
    P.locate? p = if root.bounds.contains p then some (tree.leafOf p 0 none 1) else none := by
  rw [locate?, h.bounds_eq, Table.root, P.table.descend_eq p h.lies]

theorem exists_subtree (M : Tree → Prop)
    (inherit : ∀ r cut lower upper, M (.fork r cut lower upper) → M lower ∧ M upper)
    (h : Holds rule config points P root tree) (ht : M tree) {id : Nat} {n : Node} (hn : P.nodes[id]? = some n) :
    ∃ parent first s, n = Tree.node id parent first s ∧ s.Lies P.nodes id parent first ∧ M s := by
  have hid : id < tree.nodes.length := h.nodes ▸ (List.getElem?_eq_some_iff.1 hn).1
  rw [Tree.nodes, List.length_cons, Tree.length_nodesBelow] at hid
  obtain ⟨parent, first, s, hl, hs⟩ := h.lies.exists_subtree M inherit ht (j := id) (by omega)
  exact ⟨parent, first, s, Option.some.inj (hn.symm.trans hl.root_eq), hl, hs⟩

end Holds

end Partition

end Bisection
