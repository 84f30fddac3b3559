import Mathlib
import Bisection.Proofs.PrefixCode
import Bisection.View.Navigator

namespace Bisection

variable {config : Config} {rule : AxisRule} {D : Nat}

namespace Tree

variable {id first : Nat} {parent : Option Nat} {t : Tree} {n : Node} {nodes : List Node} {path : Path}

/-- The node where a path ends, or the leaf where it is cut short. -/
def nodeAt (id : Nat) (parent : Option Nat) (first : Nat) : Tree → Path → Node
  | .leaf r, _ => (Tree.leaf r).node id parent first
  | .fork r cut lower upper, [] => (Tree.fork r cut lower upper).node id parent first
  | .fork _ _ lower _, .lower :: path => lower.nodeAt first (some id) (first + 2) path
  | .fork _ _ lower upper, .upper :: path => upper.nodeAt (first + 1) (some id) (first + 2 + lower.sizeBelow) path

theorem nodeAt_nil (t : Tree) : t.nodeAt id parent first [] = t.node id parent first := by
  cases t <;> rfl

theorem Lies.getElem?_nodeAt (h : t.Lies nodes id parent first) (path : Path) :
    nodes[(t.nodeAt id parent first path).id]? = some (t.nodeAt id parent first path) := by
  induction h generalizing path with
  | leaf root => exact root
  | fork root low up ihl ihu =>
      cases path with
      | nil => exact root
      | cons side path =>
          cases side with
          | lower => exact ihl path
          | upper => exact ihu path

theorem Lies.nodeAt_concat (h : t.Lies nodes id parent first) (hr : t.Regular config rule D) {cut : Cut} {l u : Nat}
    (hc : (t.nodeAt id parent first path).content = .split cut l u) (side : Side) :
    nodes[side.choose l u]? = some (t.nodeAt id parent first (path ++ [side])) ∧
      (t.nodeAt id parent first (path ++ [side])).parent = some (t.nodeAt id parent first path).id ∧
      (t.nodeAt id parent first (path ++ [side])).path = (t.nodeAt id parent first path).path ++ [side] := by
  induction h generalizing path with
  | leaf root => cases hc
  | @fork id first parent r cut' lower upper root low up ihl ihu =>
      obtain ⟨⟨hl, -⟩, hu, -⟩ := hr.path_parts
      cases path with
      | nil =>
          cases hc
          cases side with
          | lower =>
              have hpart : (Tree.fork r cut lower upper).nodeAt id parent l [.lower] = _ := nodeAt_nil lower
              rw [List.nil_append, hpart]
              exact ⟨low.root_eq, rfl, hl⟩
          | upper =>
              have hpart : (Tree.fork r cut lower upper).nodeAt id parent l [.upper] = _ := nodeAt_nil upper
              rw [List.nil_append, hpart]
              exact ⟨up.root_eq, rfl, hu⟩
      | cons first path =>
          cases first with
          | lower => exact ihl hr.parted.lower_regular hc
          | upper => exact ihu hr.parted.upper_regular hc

theorem nodeAt_append (h : (t.nodeAt id parent first path).isLeaf = true) (rest : Path) :
    t.nodeAt id parent first (path ++ rest) = t.nodeAt id parent first path := by
  induction t generalizing id parent first path with
  | leaf r => rfl
  | fork r cut lower upper ihl ihu =>
      cases path with
      | nil => cases h
      | cons side path =>
          cases side with
          | lower => exact ihl h
          | upper => exact ihu h

namespace Regular

theorem path_nodeAt (h : t.Regular config rule D) (id : Nat) (parent : Option Nat) (first : Nat) (path : Path) :
    ∃ taken rest, path = taken ++ rest ∧ (t.nodeAt id parent first path).path = t.region.path ++ taken ∧
      (rest = [] ∨ (t.nodeAt id parent first path).isLeaf = true) := by
  induction t generalizing id parent first path with
  | leaf r => exact ⟨[], path, rfl, (List.append_nil _).symm, Or.inr rfl⟩
  | fork r cut lower upper ihl ihu =>
      obtain ⟨⟨hl, -⟩, hu, -⟩ := h.path_parts
      cases path with
      | nil => exact ⟨[], [], rfl, (List.append_nil _).symm, Or.inl rfl⟩
      | cons side path =>
          cases side with
          | lower =>
              obtain ⟨taken, rest, rfl, hpath, hend⟩ := ihl h.parted.lower_regular _ _ _ path
              rw [hl, List.append_assoc] at hpath
              exact ⟨.lower :: taken, rest, rfl, hpath, hend⟩
          | upper =>
              obtain ⟨taken, rest, rfl, hpath, hend⟩ := ihu h.parted.upper_regular _ _ _ path
              rw [hu, List.append_assoc] at hpath
              exact ⟨.upper :: taken, rest, rfl, hpath, hend⟩

theorem prefix_nodeAt (h : t.Regular config rule D) (hn : n ∈ t.numbered id parent first)
    (hp : n.path <+: t.region.path ++ path) : n.path <+: (t.nodeAt id parent first path).path := by
  induction t generalizing id parent first path with
  | leaf r =>
      rw [List.mem_singleton.1 hn]
      exact List.prefix_rfl
  | fork r cut lower upper ihl ihu =>
      obtain ⟨⟨hl, -⟩, hu, -⟩ := h.path_parts
      -- a node below lies on the side to which the path turns
      have turn {side : Side} {part : Tree} (hpart : part.region.path = r.path ++ [side])
          (hpre : part.region.path <+: n.path) : ∃ rest, path = side :: rest := by
        have hside := hpre.trans hp
        rw [hpart, region, List.prefix_append_right_inj] at hside
        obtain ⟨rest, hrest⟩ := hside
        exact ⟨rest, hrest.symm⟩
      rw [(numbered_fork ..).mem_iff, List.mem_cons, List.mem_append] at hn
      rcases hn with rfl | hn | hn
      · obtain ⟨taken, rest, -, hpath, -⟩ := h.path_nodeAt id parent first path
        rw [hpath]
        exact List.prefix_append ..
      · obtain ⟨rest, rfl⟩ := turn hl (h.parted.lower_regular.prefix_of_mem hn)
        refine ihl h.parted.lower_regular hn ?_
        rwa [hl, List.append_assoc]
      · obtain ⟨rest, rfl⟩ := turn hu (h.parted.upper_regular.prefix_of_mem hn)
        refine ihu h.parted.upper_regular hn ?_
        rwa [hu, List.append_assoc]

end Regular

end Tree

namespace Table

variable {t : Table} {tree : Tree} {id first : Nat} {parent : Option Nat}

theorem part?_leaf {i : Fin t.size} {points : Option PointSet} (h : (t.node i).content = .leaf points) (side : Side) :
    t.part? i side = none := by
  rw [part?]
  split <;> simp_all

theorem part?_split {i : Fin t.size} {cut : Cut} {l u : Nat} (h : (t.node i).content = .split cut l u)
    (hl : l < t.size) (hu : u < t.size) (side : Side) :
    t.part? i side = some (side.choose ⟨l, hl⟩ ⟨u, hu⟩) := by
  rw [part?]
  split
  · simp_all
  · cases side <;> simp_all [Side.choose]

theorem node_walk (h : tree.Lies t.nodes.toList id parent first) (hid : id < t.size) (path : Path) :
    t.node (t.walk ⟨id, hid⟩ path) = tree.nodeAt id parent first path := by
  induction h generalizing path with
  | leaf root =>
      have hn := node_of_getElem? root hid
      cases path with
      | nil => exact hn
      | cons side path =>
          rw [walk, part?_leaf (by rw [hn]; rfl)]
          exact hn
  | fork root low up ihl ihu =>
      have hn := node_of_getElem? root hid
      cases path with
      | nil => exact hn
      | cons side path =>
          rw [walk, part?_split (by rw [hn]; rfl) low.id_lt up.id_lt]
          cases side with
          | lower => exact ihl low.id_lt path
          | upper => exact ihu up.id_lt path

end Table

theorem Node.exists_split {n : Node} (h : n.isLeaf = false) : ∃ cut l u, n.content = .split cut l u := by
  cases hc : n.content with
  | leaf points => simp [isLeaf, hc] at h
  | split cut l u => exact ⟨cut, l, u, rfl⟩

namespace View

/-- What a user can ask of a navigator. -/
inductive Move where
  | descend (side : Side)
  | ascend
  | home
  | keys (pressed : List Key)

namespace Navigator

variable {P : Partition} {nav : Navigator}

def move (nav : Navigator) (P : Partition) : Move → Navigator
  | .descend side => (nav.descend P side).1
  | .ascend => nav.ascend.1
  | .home => nav.home
  | .keys pressed => (nav.update P pressed).1

def travel (nav : Navigator) (moves : List (Move × Partition)) : Navigator :=
  moves.foldl (fun nav m => nav.move m.2 m.1) nav

/-- The path is that of the current node: all of it was gone in this partition. -/
def Fits (P : Partition) (nav : Navigator) : Prop := nav.path = (nav.current P).path

theorem update_induction {M : Navigator → Prop} (descend : ∀ nav side, M nav → M (nav.descend P side).1)
    (ascend : ∀ nav, M nav → M nav.ascend.1) (home : M {}) (h : M nav) (pressed : List Key) :
    M (nav.update P pressed).1 := by
  -- a key makes its move or leaves everything as it is
  have optional {a : Bool} {x y : Navigator × Bool} (hx : M x.1) (hy : M y.1) : M (if a then x else y).1 := by
    cases a
    · exact hy
    · exact hx
  refine optional home ?_
  refine optional (ascend _ ?_) ?_ <;> refine optional (descend _ _ ?_) ?_ <;> exact optional (descend _ _ h) h

theorem descend_of_isLeaf (h : (nav.current P).isLeaf = true) (side : Side) : nav.descend P side = (nav, false) :=
  if_pos h

theorem descend_of_not_isLeaf (h : (nav.current P).isLeaf = false) (side : Side) :
    nav.descend P side = (⟨nav.path ++ [side]⟩, true) := by
  rw [descend, h]
  rfl

end Navigator

end View

namespace Partition

/-- The node with the longest label that a text begins with. -/
structure Deepest (P : Partition) (text : String) (n : Node) : Prop where
  mem : n ∈ P.nodes
  begins : n.label.toList <+: text.toList
  longest : ∀ m ∈ P.nodes, m.label.toList <+: text.toList → m.label.length ≤ n.label.length

def Built (P : Partition) : Prop :=
  ∃ (rule : AxisRule) (config : Config) (points : PointSet), points.Valid ∧ buildWith rule config points = .ok P

namespace Holds

open View

variable {points : PointSet} {P : Partition} {root : Region} {tree : Tree} {nav : Navigator}
  {text : String} {n m : Node}

theorem current_eq (h : Holds rule config points P root tree) (nav : Navigator) :
    nav.current P = tree.nodeAt 0 none 1 nav.path := P.table.node_walk h.lies _ nav.path

theorem current_path (h : Holds rule config points P root tree) (nav : Navigator) :
    ∃ rest, nav.path = (nav.current P).path ++ rest ∧ (rest = [] ∨ (nav.current P).isLeaf = true) := by
  obtain ⟨taken, rest, hpath, htaken, hend⟩ := h.regular.path_nodeAt 0 none 1 nav.path
  rw [h.path_eq, List.nil_append] at htaken
  rw [h.current_eq, htaken]
  exact ⟨rest, hpath, hend⟩

theorem current_mem (h : Holds rule config points P root tree) (nav : Navigator) : nav.current P ∈ P.nodes := by
  rw [h.current_eq]
  exact List.mem_of_getElem? (h.lies.getElem?_nodeAt nav.path)

theorem eq_of_label (h : Holds rule config points P root tree) (hn : n ∈ P.nodes) (hm : m ∈ P.nodes)
    (he : n.label = m.label) : n = m :=
  List.inj_on_of_nodup_map h.nodup_paths hn hm (Path.label_injective he)

theorem deepest_current (h : Holds rule config points P root tree) (nav : Navigator) :
    P.Deepest nav.path.label (nav.current P) := by
  obtain ⟨rest, hpath, -⟩ := h.current_path nav
  refine ⟨h.current_mem nav, ?_, ?_⟩
  · exact Path.label_prefix_iff.2 ⟨rest, hpath.symm⟩
  · intro m hm hpre
    rw [h.nodes] at hm
    have hway : m.path <+: tree.region.path ++ nav.path := by
      rw [h.path_eq]
      exact Path.label_prefix_iff.1 hpre
    have hlen := (h.regular.prefix_nodeAt hm hway).length_le
    rw [← h.current_eq] at hlen
    rwa [Node.label, Node.label, Path.length_label, Path.length_label]

theorem deepest_iff (h : Holds rule config points P root tree) (nav : Navigator) :
    P.Deepest nav.path.label n ↔ n = nav.current P := by
  constructor
  · intro hn
    have hc := h.deepest_current nav
    have hlen := Nat.le_antisymm (hc.longest n hn.mem hn.begins) (hn.longest _ hc.mem hc.begins)
    rw [← String.length_toList, ← String.length_toList] at hlen
    have hlabel := (List.prefix_of_prefix_length_le hn.begins hc.begins hlen.le).eq_of_length hlen
    exact h.eq_of_label hn.mem hc.mem (String.toList_inj.1 hlabel)
  · rintro rfl
    exact h.deepest_current nav

theorem path_eq_of_not_isLeaf (h : Holds rule config points P root tree) (hc : (nav.current P).isLeaf = false) :
    nav.path = (nav.current P).path := by
  obtain ⟨rest, hpath, rfl | hleaf⟩ := h.current_path nav
  · rwa [List.append_nil] at hpath
  · cases hc.symm.trans hleaf

theorem current_descend (h : Holds rule config points P root tree) {cut : Cut} {l u : Nat}
    (hc : (nav.current P).content = .split cut l u) (side : Side) :
    P.node? (side.choose l u) = some ((⟨nav.path ++ [side]⟩ : Navigator).current P) ∧
      ((⟨nav.path ++ [side]⟩ : Navigator).current P).parent = some (nav.current P).id ∧
      ((⟨nav.path ++ [side]⟩ : Navigator).current P).path = (nav.current P).path ++ [side] := by
  rw [node?_eq, h.current_eq, h.current_eq]
  rw [h.current_eq] at hc
  exact h.lies.nodeAt_concat h.regular hc side

theorem current_append (h : Holds rule config points P root tree) (hc : (nav.current P).isLeaf = true) (rest : Path) :
    (⟨nav.path ++ rest⟩ : Navigator).current P = nav.current P := by
  rw [h.current_eq] at hc ⊢
  rw [h.current_eq]
  exact Tree.nodeAt_append hc rest

theorem fits_home (h : Holds rule config points P root tree) : Navigator.Fits P {} := by
  obtain ⟨rest, hpath, -⟩ := h.current_path {}
  exact (List.append_eq_nil_iff.1 hpath.symm).1.symm

theorem fits_of_append (h : Holds rule config points P root tree) {taken rest : Path}
    (hf : Navigator.Fits P ⟨taken ++ rest⟩) : Navigator.Fits P ⟨taken⟩ := by
  obtain ⟨more, hpath, rfl | hleaf⟩ := h.current_path ⟨taken⟩
  · rwa [List.append_nil] at hpath
  · -- a leaf on the way would have stopped the whole path
    rw [Navigator.Fits, h.current_append hleaf] at hf
    have hlen : (taken ++ rest).length = _ := congrArg List.length hf
    have hlen' : taken.length = _ := congrArg List.length hpath
    rw [List.length_append] at hlen hlen'
    have hmore : more = [] := List.eq_nil_of_length_eq_zero (by omega)
    rwa [hmore, List.append_nil] at hpath

theorem fits_descend (h : Holds rule config points P root tree) (nav : Navigator) (side : Side)
    (hf : nav.Fits P) : (nav.descend P side).1.Fits P := by
  cases hc : (nav.current P).isLeaf with
  | true => rwa [Navigator.descend_of_isLeaf hc]
  | false =>
      obtain ⟨cut, l, u, hsplit⟩ := Node.exists_split hc
      have hpath := (h.current_descend hsplit side).2.2
      rw [← hf] at hpath
      rw [Navigator.descend_of_not_isLeaf hc]
      exact hpath.symm

theorem fits_ascend (h : Holds rule config points P root tree) (nav : Navigator) (hf : nav.Fits P) :
    nav.ascend.1.Fits P := by
  obtain ⟨rest, hrest⟩ := nav.path.dropLast_prefix
  apply h.fits_of_append
  rw [hrest]
  exact hf

theorem fits_move (h : Holds rule config points P root tree) (hf : nav.Fits P) (move : Move) :
    (nav.move P move).Fits P := by
  cases move with
  | descend side => exact h.fits_descend nav side hf
  | ascend => exact h.fits_ascend nav hf
  | home => exact h.fits_home
  | keys pressed => exact Navigator.update_induction h.fits_descend h.fits_ascend h.fits_home hf pressed

theorem fits_travel (h : Holds rule config points P root tree) (hf : nav.Fits P) {moves : List (Move × Partition)}
    (hP : ∀ m ∈ moves, m.2 = P) : (nav.travel moves).Fits P := by
  induction moves generalizing nav with
  | nil => exact hf
  | cons m moves ih =>
      obtain ⟨hm, hmoves⟩ := List.forall_mem_cons.1 hP
      refine ih ?_ hmoves
      change (nav.move m.2 m.1).Fits P
      rw [hm]
      exact h.fits_move hf m.1

theorem parent_of_fits (h : Holds rule config points P root tree) (hf : nav.Fits P) (hne : nav.path ≠ []) :
    ∃ id, (nav.current P).parent = some id ∧ P.node? id = some (nav.ascend.1.current P) := by
  obtain ⟨path⟩ := nav
  obtain rfl | ⟨back, side, rfl⟩ := List.eq_nil_or_concat' path
  · exact absurd rfl hne
  have hback : (⟨back ++ [side]⟩ : Navigator).ascend.1 = ⟨back⟩ := by rw [Navigator.ascend, List.dropLast_concat]
  rw [hback]
  cases hc : ((⟨back⟩ : Navigator).current P).isLeaf with
  | true =>
      have hstop : back = _ := h.fits_of_append hf
      rw [Navigator.Fits, h.current_append hc, ← hstop] at hf
      simp at hf
  | false =>
      obtain ⟨cut, l, u, hsplit⟩ := Node.exists_split hc
      refine ⟨_, (h.current_descend hsplit side).2.1, ?_⟩
      rw [node?_eq, h.current_eq]
      exact h.lies.getElem?_nodeAt back

end Holds

end Partition

namespace View.Navigator

/-- Wherever moves in any partitions have led, the current node of a built partition is the one with the longest label
that the path begins with. It can be left to a side exactly if it is cut; then the path is its label, the next node is
its part on that side, and going back undoes the move. If all moves were made in this partition, the path is always
that label, and going back leads to the parent. -/
theorem follows_labels {P : Partition} (hP : P.Built) {moves : List (Move × Partition)} {nav : Navigator}
    (hnav : nav = travel {} moves) :
    (∀ n, P.Deepest nav.path.label n ↔ n = nav.current P) ∧
    (∀ side, ((nav.descend P side).2 = true ↔ (nav.current P).isLeaf = false) ∧
      ((nav.descend P side).2 = true → nav.path.label = (nav.current P).label ∧
        (∃ cut l u, (nav.current P).content = .split cut l u ∧
          P.node? (side.choose l u) = some ((nav.descend P side).1.current P)) ∧
        (nav.descend P side).1.ascend = (nav, true)) ∧
      ((nav.descend P side).2 = false → (nav.descend P side).1 = nav)) ∧
    ((∀ m ∈ moves, m.2 = P) → nav.path.label = (nav.current P).label ∧ nav.path.length = (nav.current P).depth ∧
      (nav.ascend.2 = true →
        ∃ id, (nav.current P).parent = some id ∧ P.node? id = some (nav.ascend.1.current P))) := by
  obtain ⟨rule, config, points, hv, hb⟩ := hP
  obtain ⟨root, tree, h⟩ := Partition.holds_of_ok hv hb
  refine ⟨fun n => h.deepest_iff nav, fun side => ?_, fun hmoves => ?_⟩
  · cases hc : (nav.current P).isLeaf with
    | true =>
        rw [descend_of_isLeaf hc]
        exact ⟨by simp, fun hmoved => absurd hmoved Bool.false_ne_true, fun _ => rfl⟩
    | false =>
        obtain ⟨cut, l, u, hsplit⟩ := Node.exists_split hc
        have hback : (⟨nav.path ++ [side]⟩ : Navigator).ascend = (nav, true) := by
          rw [ascend, List.dropLast_concat]
          simp
        rw [descend_of_not_isLeaf hc]
        refine ⟨by simp, fun _ => ⟨?_, ⟨cut, l, u, hsplit, (h.current_descend hsplit side).1⟩, hback⟩, ?_⟩
        · exact congrArg Path.label (h.path_eq_of_not_isLeaf hc)
        · exact fun hstayed => absurd hstayed.symm Bool.false_ne_true
  · have hf : nav.Fits P := by
      rw [hnav]
      exact h.fits_travel h.fits_home hmoves
    refine ⟨congrArg Path.label hf, congrArg List.length hf, fun hmoved => h.parent_of_fits hf ?_⟩
    simpa [ascend] using hmoved

theorem follows_labels_stale :
    ∃ P Q nav, Partition.buildWith roundRobin {} ⟨2, [[3, 4], [1, 2], [1, 6], [3, 4], [0, 0]]⟩ = .ok P ∧
      Partition.buildWith roundRobin {} ⟨2, [[3, 4], [1, 2]]⟩ = .ok Q ∧
      nav = travel {} [(.descend .upper, P), (.keys [.l, .u], P)] ∧
      (∀ n, Q.Deepest nav.path.label n ↔ n = nav.current Q) ∧
      nav.path.label = (nav.current P).label ∧ nav.path.length = (nav.current P).depth ∧
      (nav.ascend.2 = true →
        ∃ id, (nav.current P).parent = some id ∧ P.node? id = some (nav.ascend.1.current P)) := by
  obtain ⟨P, -, -, hP, -⟩ : ∃ P root tree,
      Partition.buildWith roundRobin {} ⟨2, [[3, 4], [1, 2], [1, 6], [3, 4], [0, 0]]⟩ = .ok P ∧ _ :=
    Partition.exists_holds (by decide) (roundRobin_lt (by decide)) rfl
  obtain ⟨Q, -, -, hQ, -⟩ : ∃ Q root tree, Partition.buildWith roundRobin {} ⟨2, [[3, 4], [1, 2]]⟩ = .ok Q ∧ _ :=
    Partition.exists_holds (by decide) (roundRobin_lt (by decide)) rfl
  have hmoves : ∀ m ∈ [(Move.descend .upper, P), (Move.keys [.l, .u], P)], m.2 = P := by simp
  exact ⟨P, Q, _, hP, hQ, rfl, (follows_labels ⟨_, _, _, by decide, hQ⟩ rfl).1,
    (follows_labels ⟨_, _, _, by decide, hP⟩ rfl).2.2 hmoves⟩

end View.Navigator

theorem Partition.Holds.isLeaf_current {points : PointSet} {P : Partition} {root : Region} {tree : Tree}
    (h : Holds rule config points P root tree) (nav : View.Navigator) (side : Side) :
    (nav.current P).isLeaf = false ↔ (nav.path ++ [side]).Leads config 0 points.size := by
  rw [← h.mem_paths]
  constructor
  · intro hc
    obtain ⟨cut, l, u, hsplit⟩ := Node.exists_split hc
    rw [h.path_eq_of_not_isLeaf hc, ← (h.current_descend hsplit side).2.2]
    exact List.mem_map_of_mem (h.current_mem _)
  · intro hmem
    obtain ⟨n, hn, hpath⟩ := List.mem_map.1 hmem
    by_contra hc
    rw [Bool.not_eq_false] at hc
    -- the longer path stops at the same leaf, although a node has all of it as its label
    have hdeep := h.deepest_current ⟨nav.path ++ [side]⟩
    rw [h.current_append hc] at hdeep
    have hlong := hdeep.longest n hn (by rw [Node.label, hpath])
    obtain ⟨rest, hrest, -⟩ := h.current_path nav
    have hlen := congrArg List.length hrest
    rw [Node.label, Node.label, Path.length_label, Path.length_label, hpath] at hlong
    simp only [List.length_append, List.length_singleton] at hlong hlen
    omega

namespace View.Navigator

variable {P : Partition} {nav : Navigator} {pressed : List Key}

/-- The path is another one than that of `nav`, and no move was reported. -/
def Silent (nav : Navigator) (after : Navigator × Bool) : Prop := after.1.path ≠ nav.path ∧ after.2 = false

def turn (nav : Navigator) (P : Partition) (pressed : List Key) : Navigator × Bool :=
  let x := if pressed.contains .l then nav.descend P .lower else (nav, false)
  if pressed.contains .u then x.1.descend P .upper else x

def turnBack (nav : Navigator) (P : Partition) (pressed : List Key) : Navigator × Bool :=
  if pressed.contains .p then (nav.turn P pressed).1.ascend else nav.turn P pressed

theorem update_eq (nav : Navigator) (P : Partition) (pressed : List Key) : nav.update P pressed =
    if pressed.contains .r && !(nav.turnBack P pressed).1.path.isEmpty then ({}, true)
    else nav.turnBack P pressed := rfl

theorem prefix_descend (nav : Navigator) (P : Partition) (side : Side) : nav.path <+: (nav.descend P side).1.path := by
  cases hc : (nav.current P).isLeaf with
  | true => rw [descend_of_isLeaf hc]
  | false =>
      rw [descend_of_not_isLeaf hc]
      exact List.prefix_append ..

theorem prefix_turn (nav : Navigator) (P : Partition) (pressed : List Key) :
    nav.path <+: (nav.turn P pressed).1.path := by
  rw [turn]
  cases pressed.contains .l with
  | true =>
      cases pressed.contains .u with
      | true => exact (nav.prefix_descend P .lower).trans (prefix_descend ..)
      | false => exact nav.prefix_descend P .lower
  | false =>
      cases pressed.contains .u with
      | true => exact nav.prefix_descend P .upper
      | false => exact List.prefix_rfl

theorem silent_turnBack : Silent nav (nav.turnBack P pressed) ↔ .p ∉ pressed ∧ Silent nav (nav.turn P pressed) := by
  rw [turnBack, ← List.contains_iff_mem]
  cases pressed.contains .p with
  | false => simp
  | true =>
      simp only [if_true, not_true, false_and, iff_false]
      rintro ⟨hchanged, hsilent⟩
      have hroot : (nav.turn P pressed).1.path = [] := by simpa [ascend] using hsilent
      have hnav := hroot ▸ nav.prefix_turn P pressed
      rw [List.prefix_nil] at hnav
      simp [ascend, hroot, hnav] at hchanged

theorem silent_update :
    Silent nav (nav.update P pressed) ↔ .p ∉ pressed ∧ .r ∉ pressed ∧ Silent nav (nav.turn P pressed) := by
  rw [update_eq, and_left_comm, ← silent_turnBack, ← List.contains_iff_mem]
  cases pressed.contains .r with
  | false => simp
  | true =>
      simp only [not_true, false_and, iff_false]
      cases hpath : (nav.turnBack P pressed).1.path with
      | cons side rest =>
          rintro ⟨-, hsilent⟩
          simp at hsilent
      | nil =>
          intro hsilent
          rw [if_neg (by simp)] at hsilent
          obtain ⟨hp, hchanged, -⟩ := silent_turnBack.1 hsilent
          have hnav := nav.prefix_turn P pressed
          rw [turnBack, if_neg (by simpa using hp)] at hpath
          rw [hpath, List.prefix_nil] at hnav
          exact hchanged (hpath.trans hnav.symm)

theorem silent_turn : Silent nav (nav.turn P pressed) ↔ .l ∈ pressed ∧ .u ∈ pressed ∧
    (nav.current P).isLeaf = false ∧ ((⟨nav.path ++ [.lower]⟩ : Navigator).current P).isLeaf = true := by
  rw [turn, ← List.contains_iff_mem, ← List.contains_iff_mem]
  cases hc : (nav.current P).isLeaf with
  | true => cases pressed.contains .l <;> cases pressed.contains .u <;> simp [Silent, descend_of_isLeaf hc]
  | false =>
      rw [descend_of_not_isLeaf hc]
      cases pressed.contains .l with
      | false => cases pressed.contains .u <;> simp [Silent, descend_of_not_isLeaf hc]
      | true =>
          cases pressed.contains .u with
          | false => simp [Silent]
          | true =>
              cases hlow : ((⟨nav.path ++ [.lower]⟩ : Navigator).current P).isLeaf with
              | true => simp [Silent, descend_of_isLeaf hlow]
              | false => simp [Silent, descend_of_not_isLeaf hlow]

/-- An update changes the path without reporting it in one case only: the two keys for the sides are pressed and neither
of the other two, and the lower part of the current node, to which the first key leads, is a leaf. -/
theorem unreported_iff (hP : P.Built) (nav : Navigator) (pressed : List Key) :
    (nav.update P pressed).1.path ≠ nav.path ∧ (nav.update P pressed).2 = false ↔
      (.l ∈ pressed ∧ .u ∈ pressed ∧ .p ∉ pressed ∧ .r ∉ pressed) ∧
        ∃ cut l u n, (nav.current P).content = .split cut l u ∧ P.node? l = some n ∧ n.isLeaf = true := by
  obtain ⟨rule, config, points, hv, hb⟩ := hP
  obtain ⟨root, tree, h⟩ := Partition.holds_of_ok hv hb
  have hpart : (nav.current P).isLeaf = false ∧ ((⟨nav.path ++ [.lower]⟩ : Navigator).current P).isLeaf = true ↔
      ∃ cut l u n, (nav.current P).content = .split cut l u ∧ P.node? l = some n ∧ n.isLeaf = true := by
    constructor
    · rintro ⟨hc, hlow⟩
      obtain ⟨cut, l, u, hsplit⟩ := Node.exists_split hc
      exact ⟨cut, l, u, _, hsplit, (h.current_descend hsplit .lower).1, hlow⟩
    · rintro ⟨cut, l, u, n, hsplit, hn, hleaf⟩
      have hlow := (h.current_descend hsplit .lower).1
      cases hn.symm.trans hlow
      exact ⟨by rw [Node.isLeaf, hsplit], hleaf⟩
  have hsilent : Silent nav (nav.update P pressed) ↔ _ := silent_update
  rw [silent_turn, hpart] at hsilent
  refine hsilent.trans ⟨?_, ?_⟩
  · rintro ⟨hp, hr, hl, hu, hleaf⟩
    exact ⟨⟨hl, hu, hp, hr⟩, hleaf⟩
  · rintro ⟨⟨hl, hu, hp, hr⟩, hleaf⟩
    exact ⟨hp, hr, hl, hu, hleaf⟩

theorem unreported_iff_plane :
    ∃ P, Partition.buildWith roundRobin {} ⟨2, [[3, 4], [1, 2], [1, 6], [3, 4], [0, 0]]⟩ = .ok P ∧
      ((({} : Navigator).update P [.l, .u]).1.path ≠ [] ∧ (({} : Navigator).update P [.l, .u]).2 = false ↔
        (.l ∈ [Key.l, .u] ∧ .u ∈ [Key.l, .u] ∧ .p ∉ [Key.l, .u] ∧ .r ∉ [Key.l, .u]) ∧
          ∃ cut l u n, (({} : Navigator).current P).content = .split cut l u ∧ P.node? l = some n ∧
            n.isLeaf = true) ∧
      (({} : Navigator).update P [.l, .u]).1.path = [.lower, .upper] := by
  obtain ⟨P, root, tree, hb, h⟩ : ∃ P root tree,
      Partition.buildWith roundRobin {} ⟨2, [[3, 4], [1, 2], [1, 6], [3, 4], [0, 0]]⟩ = .ok P ∧ _ :=
    Partition.exists_holds (by decide) (roundRobin_lt (by decide)) rfl
  have hroot : (({} : Navigator).current P).isLeaf = false := by
    rw [h.isLeaf_current {} .lower]
    simp [Path.leads_cons, Path.leads_nil, Config.Divides, Side.share, PointSet.size]
  have hlow : ((⟨[.lower]⟩ : Navigator).current P).isLeaf = false := by
    rw [h.isLeaf_current ⟨[.lower]⟩ .upper]
    simp [Path.leads_cons, Path.leads_nil, Config.Divides, Side.share, PointSet.size]
  refine ⟨P, hb, unreported_iff ⟨_, _, _, by decide, hb⟩ {} [.l, .u], ?_⟩
  simp [update, descend_of_not_isLeaf hroot, descend_of_not_isLeaf hlow]

/-- Of two points each part is a leaf: the first key leads to the lower one, the second leads nowhere and hides that. -/
theorem unreported_at_leaf :
    ∃ P, Partition.buildWith roundRobin {} ⟨1, [[1], [3]]⟩ = .ok P ∧
      ({} : Navigator).update P [.l, .u] = (⟨[.lower]⟩, false) := by
  obtain ⟨P, root, tree, hb, h⟩ : ∃ P root tree, Partition.buildWith roundRobin {} ⟨1, [[1], [3]]⟩ = .ok P ∧ _ :=
    Partition.exists_holds (by decide) (roundRobin_lt (by decide)) rfl
  have hroot : (({} : Navigator).current P).isLeaf = false := by
    rw [h.isLeaf_current {} .lower]
    simp [Path.leads_cons, Path.leads_nil, Config.Divides, Side.share, PointSet.size]
  have hlow : ((⟨[.lower]⟩ : Navigator).current P).isLeaf = true := by
    rw [← Bool.not_eq_false, h.isLeaf_current ⟨[.lower]⟩ .upper]
    simp [Path.leads_cons, Path.leads_nil, Config.Divides, Side.share, PointSet.size]
  refine ⟨P, hb, ?_⟩
  simp [update, descend_of_not_isLeaf hroot, descend_of_isLeaf hlow]

end View.Navigator

end Bisection
