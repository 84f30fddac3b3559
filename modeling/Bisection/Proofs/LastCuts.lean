import Mathlib
import Bisection.Proofs.Ancestry

namespace Bisection

variable {config : Config} {rule : AxisRule} {D : Nat}

/-- A way goes through a node that is cut across dimension `d`, and on to its part on one side. -/
structure Turns (way : List Node) (side : Side) (d : Nat) (a : Node) (cut : Cut) : Prop where
  mem : a ∈ way
  axis : cut.axis = d
  part : ∃ l u, a.content = .split cut l u ∧ ∃ b ∈ way, b.id = side.choose l u

/-- The coordinate of the deepest cut across dimension `d` at which a way turns to one side, or `default`. -/
def LastCut (way : List Node) (side : Side) (d : Nat) (default x : Float) : Prop :=
  (∃ a cut, Turns way side d a cut ∧ (∀ b c, Turns way side d b c → b.depth ≤ a.depth) ∧ x = cut.coord) ∨
    (∀ a cut, ¬Turns way side d a cut) ∧ x = default

theorem Turns.mono {way way' : List Node} {side : Side} {d : Nat} {a : Node} {cut : Cut} (h : Turns way side d a cut)
    (hsub : way ⊆ way') : Turns way' side d a cut := by
  obtain ⟨l, u, hc, b, hb, hid⟩ := h.part
  exact ⟨hsub h.mem, h.axis, l, u, hc, b, hsub hb, hid⟩

theorem Node.PartOf.bound {nodes : List Node} {s : Side} {cut : Cut} {a n : Node}
    (h : PartOf rule D nodes s cut a n) (side : Side) (d : Nat) :
    n.bounds.bound side d = if side = s ∧ cut.axis = d then cut.coord else a.bounds.bound side d := by
  rw [h.bounds]
  exact h.spans.bound_part h.axis_lt s side d

namespace Partition

variable {points : PointSet} {P : Partition} {root : Region} {tree : Tree} {id d : Nat} {n a b : Node} {side s : Side}
  {cut c : Cut} {way : List Node}

theorem Way.prefix_of_mem (h : P.Way n way) (ha : a ∈ way) : a.path <+: n.path := by
  apply (List.mem_inits ..).1
  rw [← h.paths]
  exact List.mem_map_of_mem ha

namespace Holds

theorem exists_part_of_turns (h : Holds rule config points P root tree) (hway : P.Way n way)
    (ht : Turns way side d a cut) : ∃ b ∈ way, Node.PartOf rule points.dimensions P.nodes side cut a b := by
  obtain ⟨l, u, hc, b, hb, hid⟩ := ht.part
  obtain ⟨m, hm, hp⟩ := h.exists_part (hway.nodes a ht.mem) hc side
  have hbelow := hp.below
  rw [hm, ← hid, hway.nodes b hb] at hbelow
  cases hbelow
  exact ⟨b, hb, hp⟩

theorem turns_above (h : Holds rule config points P root tree) (hway : P.Way n way) (ht : Turns way side d a cut) :
    a.depth < n.depth := by
  obtain ⟨b, hb, hp⟩ := h.exists_part_of_turns hway ht
  have hlen := (hway.prefix_of_mem hb).length_le
  rw [hp.path, List.length_append] at hlen
  exact hlen

theorem turns_concat_iff (h : Holds rule config points P root tree) (hway : P.Way a way)
    (hp : Node.PartOf rule points.dimensions P.nodes s c a n) :
    Turns (way ++ [n]) side d b cut ↔ Turns way side d b cut ∨ b = a ∧ cut = c ∧ side = s ∧ cut.axis = d := by
  constructor
  · intro ht
    obtain ⟨m, hm, hq⟩ := h.exists_part_of_turns (hway.concat hp) ht
    have hb : b ∈ way := by
      rcases List.mem_append.1 ht.mem with hb | hb
      · exact hb
      · have hlt := h.turns_above (hway.concat hp) ht
        rw [List.mem_singleton.1 hb] at hlt
        exact absurd hlt (lt_irrefl _)
    rcases List.mem_append.1 hm with hm | hm
    · obtain ⟨l, u, hc, hid⟩ := hq.link
      exact .inl ⟨hb, ht.axis, l, u, hc, m, hm, hid⟩
    · -- the new node has one parent only
      cases List.mem_singleton.1 hm
      have hsame : b = a := by
        have hid := Option.some.inj (hq.parent.symm.trans hp.parent)
        have habove := hq.above
        rw [hid] at habove
        exact Option.some.inj (habove.symm.trans hp.above)
      subst hsame
      obtain ⟨l, u, hc, -⟩ := hp.link
      obtain ⟨l', u', hc', -⟩ := hq.link
      cases hc.symm.trans hc'
      have hside := List.append_cancel_left (hq.path.symm.trans hp.path)
      exact .inr ⟨rfl, rfl, List.singleton_inj.1 hside, ht.axis⟩
  · rintro (ht | ⟨rfl, rfl, rfl, hd⟩)
    · exact ht.mono (List.subset_append_left ..)
    · obtain ⟨l, u, hc, hid⟩ := hp.link
      have hb : b ∈ way := List.mem_of_getLast? hway.goal
      exact ⟨List.mem_append_left _ hb, hd, l, u, hc, n, by simp, hid⟩

theorem lastCut_concat (h : Holds rule config points P root tree) (hway : P.Way a way)
    (hp : Node.PartOf rule points.dimensions P.nodes s c a n) {default : Float}
    (hlast : LastCut way side d default (a.bounds.bound side d)) :
    LastCut (way ++ [n]) side d default (n.bounds.bound side d) := by
  rw [hp.bound]
  by_cases hnew : side = s ∧ c.axis = d
  · rw [if_pos hnew]
    refine .inl ⟨a, c, (h.turns_concat_iff hway hp).2 (.inr ⟨rfl, rfl, hnew⟩), ?_, rfl⟩
    intro b cut ht
    rcases (h.turns_concat_iff hway hp).1 ht with ht | ⟨rfl, -⟩
    · exact (h.turns_above hway ht).le
    · exact le_rfl
  · rw [if_neg hnew]
    have hold (b : Node) (cut : Cut) : Turns (way ++ [n]) side d b cut ↔ Turns way side d b cut := by
      rw [h.turns_concat_iff hway hp, or_iff_left]
      rintro ⟨-, rfl, hturn⟩
      exact hnew hturn
    simpa only [LastCut, hold] using hlast

theorem bound_root (h : Holds rule config points P root tree) (hd : d < points.dimensions) (side : Side) :
    P.bounds.bound side d = side.choose config.fieldSize (-config.fieldSize) := by
  rw [h.bounds_eq, ← h.root_eq, h.region_bounds]
  cases side <;> simp [Box.bound, Side.choose, Config.field, Box.cube, hd]

theorem lastCut (h : Holds rule config points P root tree) (hn : P.nodes[id]? = some n) (hd : d < points.dimensions)
    (side : Side) :
    LastCut (P.pathTo id) side d (side.choose config.fieldSize (-config.fieldSize)) (n.bounds.bound side d) := by
  refine (h.way_induction (M := fun n way => P.Way n way ∧ LastCut way side d _ (n.bounds.bound side d)) ?_ ?_ hn).2
  · refine ⟨h.way_root, .inr ⟨fun a cut ht => ?_, h.bound_root hd side⟩⟩
    have hlt := h.turns_above h.way_root ht
    rw [List.mem_singleton.1 ht.mem] at hlt
    exact lt_irrefl _ hlt
  · rintro s c a n way hp ⟨hway, hlast⟩
    exact ⟨hway.concat hp, h.lastCut_concat hway hp hlast⟩

theorem axis_eq (h : Holds rule config points P root tree) (hn : P.nodes[id]? = some n) {l u : Nat}
    (hc : n.content = .split cut l u) : cut.axis = rule n.depth points.dimensions := by
  obtain ⟨m, -, hp⟩ := h.exists_part hn hc .lower
  exact hp.axis

theorem bound_of_depth_le (h : Holds roundRobin config points P root tree) (hn : P.nodes[id]? = some n)
    (hd : d < points.dimensions) (hdepth : n.depth ≤ d) (side : Side) :
    n.bounds.bound side d = side.choose config.fieldSize (-config.fieldSize) := by
  rcases h.lastCut hn hd side with ⟨a, cut, ht, -⟩ | ⟨-, hx⟩
  · obtain ⟨b, -, hp⟩ := h.exists_part_of_turns (h.way_pathTo hn) ht
    have hlt := h.turns_above (h.way_pathTo hn) ht
    have haxis : d = a.depth % points.dimensions := ht.axis.symm.trans hp.axis
    have hle := Nat.mod_le a.depth points.dimensions
    omega
  · exact hx

end Holds

/-- Every bound of every node lies at the deepest cut across its dimension above the node at which the way to it turns
to the lower side, for an upper bound, or to the upper side, for a lower one; without such a cut it is a bound of the
field. Cuts go across the dimensions that the rule names for their depths; taken in turn, a node has the bounds of the
root in all dimensions from its depth on. -/
theorem bounds_lie_at_last_cuts (hv : points.Valid) (hb : buildWith rule config points = .ok P) :
    (∀ n ∈ P.nodes, n.bounds.Spans P.dimensions ∧ ∀ d < P.dimensions,
      LastCut (P.pathTo n.id) .lower d config.fieldSize (n.bounds.high.getD d 0) ∧
      LastCut (P.pathTo n.id) .upper d (-config.fieldSize) (n.bounds.low.getD d 0)) ∧
    (∀ n ∈ P.nodes, ∀ cut l u, n.content = .split cut l u → cut.axis = rule n.depth P.dimensions) ∧
    (rule = roundRobin → ∀ n ∈ P.nodes, ∀ d < P.dimensions, n.depth ≤ d →
      n.bounds.high.getD d 0 = P.bounds.high.getD d 0 ∧ n.bounds.low.getD d 0 = P.bounds.low.getD d 0) := by
  obtain ⟨root, tree, h⟩ := holds_of_ok hv hb
  have hD : P.dimensions = points.dimensions := by rw [dimensions, h.input]
  rw [hD]
  refine ⟨fun n hn => ⟨?_, fun d hd => ⟨?_, ?_⟩⟩, fun n hn cut l u => h.axis_eq (h.getElem?_id hn), ?_⟩
  · obtain ⟨parent, first, t, ht, -, hr⟩ := h.subtree (h.getElem?_id hn)
    rw [ht]
    exact hr.ready.spans
  · exact h.lastCut (h.getElem?_id hn) hd .lower
  · exact h.lastCut (h.getElem?_id hn) hd .upper
  · rintro rfl n hn d hd hdepth
    have hbound (side : Side) : n.bounds.bound side d = P.bounds.bound side d :=
      (h.bound_of_depth_le (h.getElem?_id hn) hd hdepth side).trans (h.bound_root hd side).symm
    exact ⟨hbound .lower, hbound .upper⟩

theorem bounds_lie_at_last_cuts_plane :
    ∃ P n m, buildWith roundRobin {} ⟨2, [[3, 4], [1, 2], [1, 6], [3, 4], [0, 0]]⟩ = .ok P ∧
      n ∈ P.nodes ∧ n.label = "110" ∧ m ∈ P.nodes ∧ m.label = "1" ∧
      LastCut (P.pathTo n.id) .lower 0 1000 (n.bounds.high.getD 0 0) ∧
      LastCut (P.pathTo n.id) .upper 0 (-1000) (n.bounds.low.getD 0 0) ∧
      m.bounds.high.getD 1 0 = P.bounds.high.getD 1 0 ∧ m.bounds.low.getD 1 0 = P.bounds.low.getD 1 0 := by
  obtain ⟨P, root, tree, hb, h⟩ : ∃ P root tree,
      buildWith roundRobin {} ⟨2, [[3, 4], [1, 2], [1, 6], [3, 4], [0, 0]]⟩ = .ok P ∧ _ :=
    exists_holds (by decide) (roundRobin_lt (by decide)) rfl
  have hdeep : Path.Leads {} 0 5 [.upper, .upper, .lower] := by
    simp [Path.leads_cons, Path.leads_nil, Config.Divides, Side.share]
  have hfirst : Path.Leads {} 0 5 [.upper] := by
    simp [Path.leads_cons, Path.leads_nil, Config.Divides]
  obtain ⟨n, hn, hpath⟩ := List.mem_map.1 (h.mem_paths.2 hdeep)
  obtain ⟨m, hm, hpath'⟩ := List.mem_map.1 (h.mem_paths.2 hfirst)
  have hD : P.dimensions = 2 := by rw [dimensions, h.input]
  obtain ⟨hbounds, -, hturn⟩ := bounds_lie_at_last_cuts (by decide) hb
  obtain ⟨hhigh, hlow⟩ := (hbounds n hn).2 0 (by omega)
  have hsame := hturn rfl m hm 1 (by omega) (by rw [Node.depth, hpath']; rfl)
  refine ⟨P, n, m, hb, hn, ?_, hm, ?_, hhigh, hlow, hsame⟩
  · rw [Node.label, hpath]
    decide
  · rw [Node.label, hpath']
    decide

end Partition

end Bisection
