import Mathlib
import Bisection.Proofs.Boxes
import Bisection.Proofs.Products

namespace Bisection

open Floating Double Rounding
open Unpacked (clamp clamp_mono)

theorem first_of_two {α : Type} [LinearOrder α] (place : Float → α) {x y : Float} (hx : x.isFinite = true)
    (hy : y.isFinite = true) {p : Bool} (hp : p = true ↔ place y < place x) :
    (if p then y else x).isFinite = true ∧ place (if p then y else x) = min (place x) (place y) := by
  split
  · rename_i h
    exact ⟨hy, (min_eq_right (hp.1 h).le).symm⟩
  · rename_i h
    exact ⟨hx, (min_eq_left (not_lt.1 (mt hp.2 h))).symm⟩

theorem value_smaller {x y : Float} (hx : x.isFinite = true) (hy : y.isFinite = true) :
    (smaller x y).isFinite = true ∧ value (smaller x y) = min (value x) (value y) := by
  apply first_of_two value hx hy
  rw [isNaN_of_isFinite hx, Bool.or_false, decide_eq_true_eq, lt_iff_value hy hx]

theorem value_larger {x y : Float} (hx : x.isFinite = true) (hy : y.isFinite = true) :
    (larger x y).isFinite = true ∧ value (larger x y) = max (value x) (value y) := by
  apply first_of_two (fun z => OrderDual.toDual (value z)) hx hy
  rw [isNaN_of_isFinite hx, Bool.or_false, decide_eq_true_eq, lt_iff_value hx hy]
  rfl

namespace Box

theorem isNaN_sharedExtent (p q : Float × Float) : (sharedExtent p q).isNaN = false := by
  rw [sharedExtent]
  split_ifs with h
  · exact (lt_iff.1 h).2.1
  · rfl

/-- The exact extent, rounded and cut off, or nothing. -/
theorem value_sharedExtent {p q : Float × Float} (hp : p.1.isFinite = true ∧ p.2.isFinite = true)
    (hq : q.1.isFinite = true ∧ q.2.isFinite = true) : value (sharedExtent p q) =
      max 0 (clamp .binary64 (nearest .binary64 (min (value p.2) (value q.2) - max (value p.1) (value q.1)))) := by
  obtain ⟨hhigh, hmin⟩ := value_smaller hp.2 hq.2
  obtain ⟨hlow, hmax⟩ := value_larger hp.1 hq.1
  obtain ⟨hn, hv⟩ := value_sub hhigh hlow
  rw [hmin, hmax] at hv
  rw [sharedExtent, ← hv]
  by_cases h : 0 < smaller p.2 q.2 - larger p.1 q.1
  · rw [if_pos h, max_eq_right (value_pos h).le]
  · have hle : value (smaller p.2 q.2 - larger p.1 q.1) ≤ 0 := not_lt.1 fun hlt => h (lt_iff.2 ⟨rfl, hn, hlt⟩)
    rw [if_neg h, max_eq_left hle]
    rfl

def interval (b : Box) (d : Nat) : Float × Float := (b.low.getD d 0, b.high.getD d 0)

def sharedExtents (a b : Box) : List Float := List.zipWith sharedExtent (a.low.zip a.high) (b.low.zip b.high)

theorem overlap_eq (a b : Box) : a.overlap b = product (sharedExtents a b) := rfl

variable {a b : Box} {D : Nat}

theorem Spans.zip_eq (h : b.Spans D) : b.low.zip b.high = (List.range D).map b.interval := by
  apply List.ext_getElem
  · simp [h.low, h.high]
  · intro d hd hd'
    have hlow : d < b.low.length := by
      rw [h.low]
      simpa using hd'
    have hhigh : d < b.high.length := by
      rw [h.high]
      simpa using hd'
    simp [interval, hlow, hhigh]

theorem sharedExtents_eq (ha : a.Spans D) (hb : b.Spans D) :
    sharedExtents a b = (List.range D).map fun d => sharedExtent (a.interval d) (b.interval d) := by
  rw [sharedExtents, ha.zip_eq, hb.zip_eq, List.zipWith_map, List.zipWith_self]

theorem volume_eq (h : b.Spans D) :
    b.volume = product ((List.range D).map fun d => (b.interval d).2 - (b.interval d).1) := by
  rw [volume, h.zip_eq, product, List.foldl_map, List.foldl_map]

section Extents

variable {p q : Float × Float} (hp : p.1.isFinite = true ∧ p.2.isFinite = true)
  (hq : q.1.isFinite = true ∧ q.2.isFinite = true)

include hp hq

theorem sharedExtent_comm : Agree (sharedExtent p q) (sharedExtent q p) := by
  apply agree_of_value (isNaN_sharedExtent p q) (isNaN_sharedExtent q p)
  rw [value_sharedExtent hp hq, value_sharedExtent hq hp, min_comm, max_comm (value p.1)]

theorem sharedExtent_of_le (h : smaller p.2 q.2 ≤ larger p.1 q.1) : (sharedExtent p q == 0) = true := by
  have hle := (le_iff.1 h).2.2
  rw [(value_smaller hp.2 hq.2).2, (value_larger hp.1 hq.1).2] at hle
  have hnonpos := clamp_mono .binary64 (nearest_mono .binary64 (sub_nonpos.2 hle))
  rw [clamp_nearest_zero] at hnonpos
  have hzero : value (sharedExtent p q) = value 0 := by
    rw [value_sharedExtent hp hq, max_eq_left hnonpos]
    rfl
  have hn := isNaN_sharedExtent p q
  exact (agree_of_value hn rfl hzero).beq hn

theorem bounded_sharedExtent {m : ℕ} (hm : m ≤ 1023) (h : value p.2 - value p.1 ≤ 2 ^ m) :
    Bounded m (sharedExtent p q) := by
  have hle : min (value p.2) (value q.2) - max (value p.1) (value q.1) ≤ 2 ^ m :=
    (sub_le_sub (min_le_left _ _) (le_max_left _ _)).trans h
  have hround := clamp_mono .binary64 (nearest_mono .binary64 hle)
  rw [clamp_nearest_two_pow hm] at hround
  apply bounded_of_value hm (isNaN_sharedExtent p q)
  · rw [value_sharedExtent hp hq]
    exact le_max_left _ _
  · rw [value_sharedExtent hp hq]
    exact max_le (by positivity) hround

theorem sharedExtent_of_within (hlow : q.1 ≤ p.1) (hhigh : p.2 ≤ q.2) (h : p.1 ≤ p.2) :
    Agree (sharedExtent p q) (p.2 - p.1) := by
  obtain ⟨hn, hv⟩ := value_sub hp.2 hp.1
  apply agree_of_value (isNaN_sharedExtent p q) hn
  rw [le_iff] at hlow hhigh h
  have hnonneg := clamp_mono .binary64 (nearest_mono .binary64 (sub_nonneg.2 h.2.2))
  rw [clamp_nearest_zero] at hnonneg
  rw [value_sharedExtent hp hq, min_eq_left hhigh.2.2, max_eq_left hlow.2.2, hv]
  exact max_eq_right hnonneg

end Extents

/-- In some dimension the boxes have at most a bound in common. -/
def Touching (D : Nat) (a b : Box) : Prop :=
  ∃ d < D, smaller (a.high.getD d 0) (b.high.getD d 0) ≤ larger (a.low.getD d 0) (b.low.getD d 0)

theorem overlap_comm (ha : a.Proper D) (hb : b.Proper D) : Agree (a.overlap b) (b.overlap a) := by
  rw [overlap_eq, overlap_eq, sharedExtents_eq ha.spans hb.spans, sharedExtents_eq hb.spans ha.spans]
  apply product_map_agree
  intro d hd
  exact sharedExtent_comm (ha.finite d hd) (hb.finite d hd)

theorem overlap_of_within (ha : a.Proper D) (hb : b.Proper D) (h : a.Within D b) : Agree (a.overlap b) a.volume := by
  rw [overlap_eq, volume_eq ha.spans, sharedExtents_eq ha.spans hb.spans]
  apply product_map_agree
  intro d hd
  exact sharedExtent_of_within (ha.finite d hd) (hb.finite d hd) (h d hd).1 (h d hd).2 (ha.ordered d hd)

/-- The overlap with an enclosing box is the volume, in either order. -/
theorem overlap_with_enclosing (ha : a.Proper D) (hb : b.Proper D) (h : a.Within D b) :
    ((a.overlap b == b.overlap a) = true ∧ (a.overlap b == a.volume) = true ∧ (b.overlap a == a.volume) = true) ∨
      ((a.overlap b).isNaN = true ∧ (b.overlap a).isNaN = true ∧ a.volume.isNaN = true) := by
  have hcomm := overlap_comm ha hb
  have hvolume := overlap_of_within ha hb h
  cases hn : (a.overlap b).isNaN with
  | true => exact Or.inr ⟨rfl, hcomm.isNaN_eq ▸ hn, hvolume.isNaN_eq ▸ hn⟩
  | false =>
      have hswapped : Agree (b.overlap a) a.volume := hcomm.symm.trans hvolume
      exact Or.inl ⟨hcomm.beq hn, hvolume.beq hn, hswapped.beq (hcomm.isNaN_eq ▸ hn)⟩

theorem overlap_with_enclosing_flat :
    (Box.mk [0, -1] [-0.0, 1]).Proper 2 ∧ (Box.mk [-0.0, -1] [0, 2]).Proper 2 ∧
      (Box.mk [0, -1] [-0.0, 1]).Within 2 (Box.mk [-0.0, -1] [0, 2]) ∧
      ((Box.mk [0, -1] [-0.0, 1]).overlap (Box.mk [-0.0, -1] [0, 2]) == (Box.mk [0, -1] [-0.0, 1]).volume) = true := by
  have ha : (Box.mk [0, -1] [-0.0, 1]).Proper 2 := ⟨⟨rfl, rfl⟩, by decide +kernel, by decide +kernel⟩
  have hb : (Box.mk [-0.0, -1] [0, 2]).Proper 2 := ⟨⟨rfl, rfl⟩, by decide +kernel, by decide +kernel⟩
  have h : (Box.mk [0, -1] [-0.0, 1]).Within 2 (Box.mk [-0.0, -1] [0, 2]) := by
    unfold Within
    decide +kernel
  rcases overlap_with_enclosing ha hb h with heq | hnan
  · exact ⟨ha, hb, h, heq.2.1⟩
  · exact absurd hnan.1 (by decide +kernel)

theorem not_overflows_sharedExtents (ha : a.Proper D) (hb : b.Proper D) {m : ℕ} (hm : D * m ≤ 1023)
    (h : ∀ d < D, value (a.high.getD d 0) - value (a.low.getD d 0) ≤ 2 ^ m) : ¬Overflows (sharedExtents a b) := by
  rw [sharedExtents_eq ha.spans hb.spans]
  refine (bounded_product (m := m) ?_ ?_).2
  · intro x hx
    obtain ⟨d, hd, rfl⟩ := List.mem_map.1 hx
    rw [List.mem_range] at hd
    have hle : m ≤ D * m := Nat.le_mul_of_pos_left m (by omega)
    exact bounded_sharedExtent (p := a.interval d) (q := b.interval d) (ha.finite d hd) (hb.finite d hd)
      (hle.trans hm) (h d hd)
  · rw [List.length_map, List.length_range]
    exact hm

theorem exists_sharedExtent_zero (ha : a.Proper D) (hb : b.Proper D) (h : Touching D a b) :
    ∃ x ∈ sharedExtents a b, (x == 0) = true := by
  obtain ⟨d, hd, hle⟩ := h
  rw [sharedExtents_eq ha.spans hb.spans]
  exact ⟨_, List.mem_map.2 ⟨d, List.mem_range.2 hd, rfl⟩, sharedExtent_of_le (ha.finite d hd) (hb.finite d hd) hle⟩

/-- The overlap of boxes that touch is zero exactly as long as no extent and no product of extents is out of range,
and undefined beyond that. Extents up to `2 ^ m` in `D` dimensions are in range for `D * m ≤ 1023`. -/
theorem overlap_of_touching (ha : a.Proper D) (hb : b.Proper D) (h : Touching D a b) :
    ((a.overlap b == 0) = true ↔ ¬Overflows (sharedExtents a b)) ∧
      ((a.overlap b).isNaN = true ↔ Overflows (sharedExtents a b)) ∧
      ∀ m, D * m ≤ 1023 → (∀ d < D, value (a.high.getD d 0) - value (a.low.getD d 0) ≤ 2 ^ m) →
        (a.overlap b == 0) = true := by
  have hdef : ∀ x ∈ sharedExtents a b, x.isNaN = false := by
    intro x hx
    rw [sharedExtents_eq ha.spans hb.spans] at hx
    obtain ⟨e, -, rfl⟩ := List.mem_map.1 hx
    exact isNaN_sharedExtent _ _
  obtain ⟨hzero, hnan⟩ := product_cases hdef (exists_sharedExtent_zero ha hb h)
  rw [overlap_eq]
  exact ⟨hzero, hnan, fun m hm hle => hzero.2 (not_overflows_sharedExtents ha hb hm hle)⟩

theorem overlap_of_touching_halves :
    ((cube 3 1e153).below 2 0).Proper 3 ∧ ((cube 3 1e153).above 2 0).Proper 3 ∧
      Touching 3 ((cube 3 1e153).below 2 0) ((cube 3 1e153).above 2 0) ∧
      (((cube 3 1e153).below 2 0).overlap ((cube 3 1e153).above 2 0) == 0) = true := by
  have ha : ((cube 3 1e153).below 2 0).Proper 3 := ⟨⟨rfl, rfl⟩, by decide +kernel, by decide +kernel⟩
  have hb : ((cube 3 1e153).above 2 0).Proper 3 := ⟨⟨rfl, rfl⟩, by decide +kernel, by decide +kernel⟩
  have h : Touching 3 ((cube 3 1e153).below 2 0) ((cube 3 1e153).above 2 0) := ⟨2, by decide, by decide +kernel⟩
  exact ⟨ha, hb, h, (overlap_of_touching ha hb h).1.2 (by decide +kernel)⟩

/-- The halves of a cube touch, but the product of their first two extents is out of range. -/
theorem overlap_of_large_halves :
    ((cube 3 1e155).below 2 0).Proper 3 ∧ ((cube 3 1e155).above 2 0).Proper 3 ∧
      Touching 3 ((cube 3 1e155).below 2 0) ((cube 3 1e155).above 2 0) ∧
      ¬(((cube 3 1e155).below 2 0).overlap ((cube 3 1e155).above 2 0) == 0) = true :=
  ⟨⟨⟨rfl, rfl⟩, by decide +kernel, by decide +kernel⟩, ⟨⟨rfl, rfl⟩, by decide +kernel, by decide +kernel⟩,
    ⟨2, by decide, by decide +kernel⟩, by decide +kernel⟩

end Box

end Bisection
