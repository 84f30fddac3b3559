import Mathlib
import Bisection.Proofs.Growth

namespace Bisection

open Floating Double

namespace PointSet

variable {s : PointSet}

theorem Valid.isFinite_getD (hv : s.Valid) {p : Point} (hp : p ∈ s.points) (d : Nat) :
    (p.getD d 0).isFinite = true := by
  by_cases hd : d < p.length
  · rw [List.getD_eq_getElem _ _ hd]
    exact (hv.2 p hp).2 _ (List.getElem_mem hd)
  · rw [List.getD_eq_default _ _ (by omega)]
    rfl

theorem Valid.le_of_sorted (hv : s.Valid) {axis i j : Nat} (hs : Sorted axis s.points) (hij : i ≤ j)
    (hj : j < s.points.length) : s.points[i].getD axis 0 ≤ s.points[j].getD axis 0 := by
  have hnum (k : Nat) (hk : k < s.points.length) : (s.points[k].getD axis 0).isNaN = false :=
    isNaN_of_isFinite (hv.isFinite_getD (List.getElem_mem hk) axis)
  rcases Nat.eq_or_lt_of_le hij with rfl | hlt
  · exact le_refl (hnum i hj)
  · exact le_of_rank_le (hnum i _) (hnum j hj) (List.pairwise_iff_getElem.1 hs i j _ hj hlt)

end PointSet

namespace Region

variable {config : Config} {rule : AxisRule} {r : Region} {s : PointSet} {h : Halves} {lo up : Option PointSet}
  {D : Nat} {p : Point}

theorem Ready.isFinite_getD (hr : Ready rule D r) (hp : p ∈ r.held) (d : Nat) : (p.getD d 0).isFinite = true := by
  cases hs : r.points with
  | none => simp [held, hs] at hp
  | some s => exact (hr.points s hs).1.isFinite_getD (held_of_points hs ▸ hp) d

theorem Keeps.mem {axis : Nat} {half : PointSet} {kept : Option PointSet} {side : Side} {cut : Cut}
    (hk : Keeps config axis half kept) (hp : p ∈ (r.child side cut kept).held) : p ∈ half.points := by
  obtain ⟨-, rfl⟩ | ⟨-, t, ht, rfl⟩ := hk
  · simp [held, child] at hp
  · exact (PointSet.sortBy_spec ht).2.1.mem_iff.1 hp

namespace Halved

theorem exists_middle (hh : Halved config rule r s h lo up) (hr : Ready rule D r) {cut : Cut}
    (hcut : cut = ⟨rule r.depth s.dimensions, h.coord⟩) :
    ∃ p ∈ h.lower.points, ∃ q ∈ h.upper.points, cut.coord = midpoint (p.getD cut.axis 0) (q.getD cut.axis 0) ∧
      p.getD cut.axis 0 ≤ q.getD cut.axis 0 ∧ (∀ x ∈ h.lower.points, x.getD cut.axis 0 ≤ p.getD cut.axis 0) ∧
      ∀ x ∈ h.upper.points, q.getD cut.axis 0 ≤ x.getD cut.axis 0 := by
  subst hcut
  obtain ⟨hv, rfl, hs⟩ := hr.points s hh.points
  have hsize : 2 ≤ s.points.length := hh.size_ge
  have hlt : s.points.length / 2 < s.points.length := by omega
  have hlt' : s.points.length / 2 - 1 < s.points.length := by omega
  rw [hh.lower_eq, hh.upper_eq, hh.coord_eq]
  refine ⟨s.points[s.points.length / 2 - 1], ?_, s.points[s.points.length / 2], ?_, ?_, ?_, ?_, ?_⟩
  · exact List.mem_take_iff_getElem.2 ⟨_, by simp only [PointSet.size]; omega, rfl⟩
  · exact List.mem_drop_iff_getElem.2 ⟨0, by simpa [PointSet.size] using hlt, rfl⟩
  · rw [PointSet.middle, PointSet.size, List.getD_eq_getElem _ _ hlt, List.getD_eq_getElem _ _ hlt']
  · exact hv.le_of_sorted hs (by omega) hlt
  · intro x hx
    obtain ⟨j, hj, rfl⟩ := List.mem_take_iff_getElem.1 hx
    rw [PointSet.size] at hj
    exact hv.le_of_sorted hs (by omega) hlt'
  · intro x hx
    obtain ⟨j, hj, rfl⟩ := List.mem_drop_iff_getElem.1 hx
    exact hv.le_of_sorted hs (Nat.le_add_right _ _) _

/-- A finite cut lies between the two halves. -/
theorem cut_between_halves (hh : Halved config rule r s h lo up) (hr : Ready rule D r) {cut : Cut}
    (hcut : cut = ⟨rule r.depth s.dimensions, h.coord⟩) (hfin : cut.coord.isFinite = true) :
    (∀ x ∈ h.lower.points, x.getD cut.axis 0 ≤ cut.coord) ∧ ∀ x ∈ h.upper.points, cut.coord ≤ x.getD cut.axis 0 := by
  obtain ⟨p, hp, q, hq, he, hpq, hlo, hup⟩ := hh.exists_middle hr hcut
  have hmid : p.getD cut.axis 0 ≤ cut.coord ∧ cut.coord ≤ q.getD cut.axis 0 := by
    rw [he] at hfin ⊢
    exact midpoint_between (hr.isFinite_getD (hh.subset .lower hp) _) (hr.isFinite_getD (hh.subset .upper hq) _) hpq hfin
  exact ⟨fun x hx => le_trans (hlo x hx) hmid.1, fun x hx => le_trans hmid.2 (hup x hx)⟩

end Halved

end Region

namespace Tree

variable {config : Config} {rule : AxisRule} {D : Nat} {t lower upper : Tree} {r : Region} {cut : Cut}

def cuts : Tree → List Cut
  | .leaf _ => []
  | .fork _ cut lower upper => cut :: (lower.cuts ++ upper.cuts)

theorem Regular.axis_lt (h : Regular config rule D (.fork r cut lower upper)) : cut.axis < D := by
  obtain ⟨s, hv, lo, up, hh, rfl, -⟩ := h.parts
  obtain ⟨-, rfl, -⟩ := h.ready.points s hh.points
  exact hh.axis_lt

theorem Regular.exists_of_mem_cuts (h : t.Regular config rule D) {c : Cut} (hc : c ∈ t.cuts) : c.axis < D ∧
    ∃ p ∈ t.region.held, ∃ q ∈ t.region.held, c.coord = midpoint (p.getD c.axis 0) (q.getD c.axis 0) := by
  induction t with
  | leaf r => simp [cuts] at hc
  | fork r cut lower upper ihl ihu =>
      obtain ⟨s, hv, lo, up, hh, hcut, hrl, hru, hl, hu⟩ := h.parts
      simp only [cuts, List.mem_cons, List.mem_append] at hc
      rcases hc with rfl | hc | hc
      · obtain ⟨p, hp, q, hq, he, -⟩ := hh.exists_middle h.ready hcut
        exact ⟨h.axis_lt, p, hh.subset .lower hp, q, hh.subset .upper hq, he⟩
      · obtain ⟨haxis, p, hp, q, hq, he⟩ := ihl hl hc
        rw [hrl] at hp hq
        exact ⟨haxis, p, hh.subset .lower (hh.lower.mem hp), q, hh.subset .lower (hh.lower.mem hq), he⟩
      · obtain ⟨haxis, p, hp, q, hq, he⟩ := ihu hu hc
        rw [hru] at hp hq
        exact ⟨haxis, p, hh.subset .upper (hh.upper.mem hp), q, hh.subset .upper (hh.upper.mem hq), he⟩

/-- Where all points of a tree are on one side of a number, so are its cuts, but for the rounding of a mean. -/
theorem Regular.cuts_on (h : t.Regular config rule D) (side : Side) {d : Nat} {v : Float} (hv : v.isFinite = true)
    (hon : ∀ x ∈ t.region.held, side.On v (x.getD d 0)) {c : Cut} (hc : c ∈ t.cuts) (hd : c.axis = d) :
    side.On (midpoint v v) c.coord := by
  obtain ⟨-, p, hp, q, hq, he⟩ := h.exists_of_mem_cuts hc
  have hfp := h.ready.isFinite_getD hp d
  have hfq := h.ready.isFinite_getD hq d
  rw [he, hd]
  cases side with
  | lower => exact midpoint_mono hfp hv hfq hv (hon p hp) (hon q hq)
  | upper => exact midpoint_mono hv hfp hv hfq (hon p hp) (hon q hq)

/-- How a cut separates the two trees below it: each has its part of the box, and later cuts along the same axis
stay on their side. -/
structure Parted (config : Config) (rule : AxisRule) (D : Nat) (r : Region) (cut : Cut) (lower upper : Tree) :
    Prop where
  lower_regular : lower.Regular config rule D
  upper_regular : upper.Regular config rule D
  spans : r.bounds.Spans D
  axis_lt : cut.axis < D
  number : cut.coord.isNaN = false
  bounds : ∀ side : Side, (side.choose lower upper).region.bounds = r.bounds.part side cut.axis cut.coord
  cuts : ∀ side : Side, ∀ c ∈ (side.choose lower upper).cuts, c.axis = cut.axis → side.On cut.coord c.coord

theorem Regular.parted (h : Regular config rule D (.fork r cut lower upper)) :
    Parted config rule D r cut lower upper := by
  obtain ⟨s, hv, lo, up, hh, hcut, hrl, hru, hl, hu⟩ := h.parts
  obtain ⟨p, hp, q, hq, he, hpq, hlo, hup⟩ := hh.exists_middle h.ready hcut
  have hfp := h.ready.isFinite_getD (hh.subset .lower hp) cut.axis
  have hfq := h.ready.isFinite_getD (hh.subset .upper hq) cut.axis
  refine ⟨hl, hu, h.ready.spans, h.axis_lt, he ▸ isNaN_midpoint hfp hfq, ?_, ?_⟩
  · rintro (_ | _)
    · exact congrArg Region.bounds hrl
    · exact congrArg Region.bounds hru
  · rintro (_ | _) c hc hd
    · have hle : c.coord ≤ midpoint _ _ := hl.cuts_on .lower hfp (fun x hx => hlo x (hh.lower.mem (hrl ▸ hx))) hc hd
      rw [he]
      exact le_trans hle (midpoint_mono hfp hfp hfp hfq (le_refl (isNaN_of_isFinite hfp)) hpq)
    · have hle : midpoint _ _ ≤ c.coord := hu.cuts_on .upper hfq (fun x hx => hup x (hh.upper.mem (hru ▸ hx))) hc hd
      rw [he]
      exact le_trans (midpoint_mono hfp hfq hfq hfq hpq (le_refl (isNaN_of_isFinite hfq))) hle

theorem Parted.contains_iff (h : Parted config rule D r cut lower upper) (side : Side) {p : Point}
    (hp : r.bounds.contains p = true) :
    (side.choose lower upper).region.bounds.contains p = true ↔ side.On cut.coord (p.getD cut.axis 0) := by
  rw [h.bounds]
  exact h.spans.contains_part_iff h.axis_lt hp side

end Tree

end Bisection
