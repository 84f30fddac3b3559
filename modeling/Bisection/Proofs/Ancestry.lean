import Mathlib
import Bisection.Proofs.Navigation

namespace Bisection

variable {config : Config} {rule : AxisRule} {D : Nat}

structure Node.PartOf (rule : AxisRule) (D : Nat) (nodes : List Node) (side : Side) (cut : Cut) (a n : Node) :
    Prop where
  above : nodes[a.id]? = some a
  below : nodes[n.id]? = some n
  link : ∃ l u, a.content = .split cut l u ∧ n.id = side.choose l u
  parent : n.parent = some a.id
  path : n.path = a.path ++ [side]
  spans : a.bounds.Spans D
  bounds : n.bounds = side.choose (a.bounds.below cut.axis cut.coord) (a.bounds.above cut.axis cut.coord)
  axis : cut.axis = rule a.depth D
  axis_lt : cut.axis < D

namespace Tree

variable {id first : Nat} {parent : Option Nat} {t lower upper : Tree} {r : Region} {cut : Cut} {nodes : List Node}

theorem Regular.axis_eq (h : Regular config rule D (.fork r cut lower upper)) : cut.axis = rule r.depth D := by
  obtain ⟨s, hv, lo, up, hh, rfl, -⟩ := h.parts
  obtain ⟨-, rfl, -⟩ := h.ready.points s hh.points
  rfl

theorem Lies.exists_part (h : (Tree.fork r cut lower upper).Lies nodes id parent first)
    (hr : Regular config rule D (.fork r cut lower upper)) (side : Side) : ∃ n : Node,
      n.id = side.choose first (first + 1) ∧
      Node.PartOf rule D nodes side cut ((Tree.fork r cut lower upper).node id parent first) n := by
  have hp := hr.parted
  obtain ⟨⟨hl, -⟩, hu, -⟩ := hr.path_parts
  cases h with
  | fork root low up =>
      cases side with
      | lower =>
          refine ⟨lower.node first (some id) (first + 2), rfl, ?_⟩
          exact ⟨root, low.root_eq, ⟨_, _, rfl, rfl⟩, rfl, hl, hp.spans, hp.bounds .lower, hr.axis_eq, hp.axis_lt⟩
      | upper =>
          refine ⟨upper.node (first + 1) (some id) (first + 2 + lower.sizeBelow), rfl, ?_⟩
          exact ⟨root, up.root_eq, ⟨_, _, rfl, rfl⟩, rfl, hu, hp.spans, hp.bounds .upper, hr.axis_eq, hp.axis_lt⟩

theorem Lies.exists_above (h : t.Lies nodes id parent first) (hr : t.Regular config rule D) {j : Nat}
    (hj : first ≤ j ∧ j < first + t.sizeBelow) : ∃ (n a : Node) (side : Side) (cut : Cut),
      n.id = j ∧ Node.PartOf rule D nodes side cut a n := by
  induction h with
  | leaf root =>
      simp only [sizeBelow] at hj
      omega
  | @fork id first parent r cut lower upper root low up ihl ihu =>
      have hpart := (Lies.fork root low up).exists_part hr
      simp only [sizeBelow] at hj
      by_cases hl : j = first
      · obtain ⟨n, hn, hpart⟩ := hpart .lower
        exact ⟨n, _, _, _, hn.trans hl.symm, hpart⟩
      by_cases hu : j = first + 1
      · obtain ⟨n, hn, hpart⟩ := hpart .upper
        exact ⟨n, _, _, _, hn.trans hu.symm, hpart⟩
      by_cases hlow : j < first + 2 + lower.sizeBelow
      · exact ihl hr.parted.lower_regular (by omega)
      · exact ihu hr.parted.upper_regular (by omega)

end Tree

namespace Table

variable {t : Table} {i : Fin t.size}

theorem pathTo_of_none (h : (t.node i).parent = none) : t.pathTo i = [t.node i] := by
  rw [pathTo]
  split <;> simp_all

theorem pathTo_of_some {p : Nat} (h : (t.node i).parent = some p) (hp : p < t.size) :
    t.pathTo i = t.pathTo ⟨p, hp⟩ ++ [t.node i] := by
  rw [pathTo]
  split <;> simp_all

end Table

namespace Partition

variable {points : PointSet} {P : Partition} {root : Region} {tree : Tree} {id : Nat} {n a : Node} {side : Side}
  {cut : Cut} {way : List Node}

theorem pathTo_eq (hid : id < P.table.size) : P.pathTo id = P.table.pathTo ⟨id, hid⟩ := by
  rw [pathTo, Table.find?, dif_pos hid]

theorem pathTo_root (hp : P.root.parent = none) : P.pathTo 0 = [P.root] := by
  rw [pathTo_eq P.table.nonempty]
  exact Table.pathTo_of_none hp

theorem pathTo_of_parent {p : Nat} (hn : P.nodes[id]? = some n) (hp : n.parent = some p) :
    p < id ∧ P.pathTo id = P.pathTo p ++ [n] := by
  have hid : id < P.table.size := (List.getElem?_eq_some_iff.1 hn).1
  have hnode := P.table.node_of_getElem? hn hid
  rw [← hnode] at hp
  have hlt : p < id := P.table.up id hid p hp
  refine ⟨hlt, ?_⟩
  rw [pathTo_eq hid, Table.pathTo_of_some hp (hlt.trans hid), hnode, pathTo_eq]

/-- From the root down the links to a node, through one node for each beginning of its path. -/
structure Way (P : Partition) (n : Node) (way : List Node) : Prop where
  paths : way.map Node.path = n.path.inits
  start : way.head? = some P.root
  goal : way.getLast? = some n
  nodes : ∀ a ∈ way, P.nodes[a.id]? = some a
  links : way.IsChain fun a b => b.parent = some a.id

namespace Way

theorem concat (h : P.Way a way) (hp : Node.PartOf rule D P.nodes side cut a n) : P.Way n (way ++ [n]) := by
  refine ⟨?_, ?_, List.getLast?_concat, ?_, ?_⟩
  · rw [List.map_append, h.paths, hp.path, List.inits_append]
    simp [hp.path]
  · rw [List.head?_append, h.start, Option.some_or]
  · intro b hb
    rcases List.mem_append.1 hb with hb | hb
    · exact h.nodes b hb
    · rw [List.mem_singleton.1 hb]
      exact hp.below
  · refine List.isChain_append.2 ⟨h.links, List.isChain_singleton _, ?_⟩
    rintro x hx y ⟨⟩
    rw [h.goal] at hx
    cases hx
    exact hp.parent

theorem length_eq (h : P.Way n way) : way.length = n.depth + 1 := by
  rw [← List.length_map, h.paths, List.length_inits]
  rfl

theorem labels (h : P.Way n way) : way.map Node.label = n.label.toList.inits.map String.ofList := by
  have hlabel : Node.label = Path.label ∘ Node.path := rfl
  rw [hlabel, ← List.map_map, h.paths, Function.comp_apply, Path.label, String.toList_ofList, List.map_inits,
    List.map_map]
  rfl

end Way

namespace Holds

theorem getElem?_root (h : Holds rule config points P root tree) :
    P.nodes[0]? = some P.root ∧ P.root = tree.node 0 none 1 := by
  have hroot : P.root = tree.node 0 none 1 := P.table.node_of_getElem? h.lies.root_eq P.table.nonempty
  rw [hroot]
  exact ⟨h.lies.root_eq, rfl⟩

theorem subtree (h : Holds rule config points P root tree) (hn : P.nodes[id]? = some n) :
    ∃ parent first t, n = Tree.node id parent first t ∧ t.Lies P.nodes id parent first ∧
      t.Regular config rule points.dimensions :=
  h.exists_subtree _ (fun _ _ _ _ ht => ⟨ht.parted.lower_regular, ht.parted.upper_regular⟩) h.regular hn

theorem id_eq (h : Holds rule config points P root tree) (hn : P.nodes[id]? = some n) : n.id = id := by
  obtain ⟨parent, first, t, rfl, -⟩ := h.subtree hn
  rfl

theorem getElem?_id (h : Holds rule config points P root tree) (hn : n ∈ P.nodes) : P.nodes[n.id]? = some n := by
  obtain ⟨id, hn⟩ := List.mem_iff_getElem?.1 hn
  rwa [h.id_eq hn]

theorem exists_part (h : Holds rule config points P root tree) (hn : P.nodes[id]? = some n) {l u : Nat}
    (hc : n.content = .split cut l u) (side : Side) : ∃ m : Node, m.id = side.choose l u ∧
      Node.PartOf rule points.dimensions P.nodes side cut n m := by
  obtain ⟨parent, first, t, rfl, hl, hr⟩ := h.subtree hn
  cases t with
  | leaf r => cases hc
  | fork r cut' lower upper =>
      cases hc
      exact hl.exists_part hr side

theorem exists_above (h : Holds rule config points P root tree) (hn : P.nodes[id]? = some n) (hid : id ≠ 0) :
    ∃ a side cut, Node.PartOf rule points.dimensions P.nodes side cut a n := by
  have hlt : id < tree.nodes.length := h.nodes ▸ (List.getElem?_eq_some_iff.1 hn).1
  rw [Tree.nodes, List.length_cons, Tree.length_nodesBelow] at hlt
  obtain ⟨m, a, side, cut, rfl, hp⟩ := h.lies.exists_above h.regular (j := id) (by omega)
  cases hn.symm.trans hp.below
  exact ⟨a, side, cut, hp⟩

/-- What holds of the root and passes on to the parts of a cut holds along every way. -/
theorem way_induction (h : Holds rule config points P root tree) {M : Node → List Node → Prop}
    (start : M P.root [P.root])
    (step : ∀ side cut a n way, Node.PartOf rule points.dimensions P.nodes side cut a n → M a way → M n (way ++ [n]))
    (hn : P.nodes[id]? = some n) : M n (P.pathTo id) := by
  induction id using Nat.strongRecOn generalizing n with
  | ind id ih =>
      by_cases hid : id = 0
      · obtain ⟨hroot, hnode⟩ := h.getElem?_root
        subst hid
        cases hn.symm.trans hroot
        rw [pathTo_root (by rw [hnode]; rfl)]
        exact start
      · obtain ⟨a, side, cut, hp⟩ := h.exists_above hn hid
        obtain ⟨hlt, hway⟩ := pathTo_of_parent hn hp.parent
        rw [hway]
        exact step side cut a n _ hp (ih a.id hlt hp.above)

theorem way_root (h : Holds rule config points P root tree) : P.Way P.root [P.root] := by
  obtain ⟨hroot, hnode⟩ := h.getElem?_root
  refine ⟨?_, rfl, rfl, ?_, List.isChain_singleton _⟩
  · have hpath : P.root.path = [] := by rw [hnode]; exact h.path_eq
    rw [List.map_singleton, hpath]
    rfl
  · intro a ha
    rw [List.mem_singleton.1 ha, h.id_eq hroot]
    exact hroot

theorem way_pathTo (h : Holds rule config points P root tree) (hn : P.nodes[id]? = some n) : P.Way n (P.pathTo id) :=
  h.way_induction h.way_root (fun _ _ _ _ _ hp hway => hway.concat hp) hn

theorem leavesUnder?_part (h : Holds rule config points P root tree)
    (hp : Node.PartOf rule points.dimensions P.nodes side cut a n) :
    ∃ low up, P.leavesUnder? a.id = some (low ++ up) ∧ P.leavesUnder? n.id = some (side.choose low up) ∧
      (∀ x ∈ low, a.path ++ [.lower] <+: x.path) ∧ ∀ x ∈ up, a.path ++ [.upper] <+: x.path := by
  obtain ⟨l, u, hc, hid⟩ := hp.link
  obtain ⟨parent, first, t, ha, hl, hr⟩ := h.subtree hp.above
  rw [ha] at hc
  cases hl with
  | leaf => cases hc
  | @fork _ _ _ r cut' lower upper root low up =>
      cases hc
      obtain ⟨⟨hpl, -⟩, hpu, -⟩ := hr.path_parts
      have hpath : a.path = r.path := by rw [ha]; rfl
      refine ⟨_, _, leavesUnder?_eq (.fork root low up), ?_, ?_, ?_⟩
      · rw [hid]
        cases side with
        | lower => exact leavesUnder?_eq low
        | upper => exact leavesUnder?_eq up
      · rw [hpath, ← hpl]
        exact fun x => hr.parted.lower_regular.prefix_of_mem_leafNodes
      · rw [hpath, ← hpu]
        exact fun x => hr.parted.upper_regular.prefix_of_mem_leafNodes

end Holds

/-- The leaves whose paths begin with a given one, which stand next to each other. -/
structure Run (P : Partition) (path : Path) (leaves : List Node) : Prop where
  adjacent : leaves <:+: P.leaves
  mem : ∀ x, x ∈ leaves ↔ x ∈ P.leaves ∧ path <+: x.path

theorem Run.narrow {path path' : Path} {leaves some : List Node} (h : P.Run path leaves) (hsub : some <:+: leaves)
    (hpath : path <+: path') (hin : ∀ x ∈ some, path' <+: x.path)
    (hout : ∀ x ∈ leaves, path' <+: x.path → x ∈ some) : P.Run path' some := by
  refine ⟨hsub.trans h.adjacent, fun x => ⟨fun hx => ?_, fun hx => ?_⟩⟩
  · exact ⟨((h.mem x).1 (hsub.mem hx)).1, hin x hx⟩
  · exact hout x ((h.mem x).2 ⟨hx.1, hpath.trans hx.2⟩) hx.2

theorem Run.part {path : Path} {low up : List Node} (h : P.Run path (low ++ up))
    (hlow : ∀ x ∈ low, path ++ [.lower] <+: x.path) (hup : ∀ x ∈ up, path ++ [.upper] <+: x.path) (side : Side) :
    P.Run (path ++ [side]) (side.choose low up) := by
  have hbefore : Path.Before (path ++ [.lower]) (path ++ [.upper]) := ⟨path, [], [], rfl, rfl⟩
  cases side with
  | lower =>
      refine h.narrow (List.prefix_append low up).isInfix (List.prefix_append ..) hlow fun x hx hpre => ?_
      rcases List.mem_append.1 hx with hx | hx
      · exact hx
      · exact absurd (hup x hx) (hbefore.not_prefix hpre)
  | upper =>
      refine h.narrow (List.suffix_append low up).isInfix (List.prefix_append ..) hup fun x hx hpre => ?_
      rcases List.mem_append.1 hx with hx | hx
      · exact absurd hpre (hbefore.not_prefix (hlow x hx))
      · exact hx

namespace Holds

theorem exists_run (h : Holds rule config points P root tree) (hn : P.nodes[id]? = some n) :
    ∃ leaves, P.leavesUnder? id = some leaves ∧ P.Run n.path leaves := by
  rw [← h.id_eq hn]
  refine h.way_induction (M := fun n _ => ∃ leaves, P.leavesUnder? n.id = some leaves ∧ P.Run n.path leaves) ?_ ?_ hn
  · obtain ⟨hroot, hnode⟩ := h.getElem?_root
    have hpath : P.root.path = [] := by rw [hnode]; exact h.path_eq
    refine ⟨P.leaves, ?_, List.infix_rfl, fun x => ?_⟩
    · rw [h.id_eq hroot, h.leaves_eq]
      exact leavesUnder?_eq h.lies
    · simp [hpath]
  · rintro side cut a n - hp ⟨leaves, hleaves, hrun⟩
    obtain ⟨low, up, ha, hpart, hlow, hup⟩ := h.leavesUnder?_part hp
    cases hleaves.symm.trans ha
    rw [hp.path]
    exact ⟨_, hpart, hrun.part hlow hup side⟩

end Holds

end Partition

end Bisection
