import Mathlib
import Bisection.Partition.Region
import Bisection.Proofs.Double

namespace Bisection

open Floating Double

namespace Side

def choose {α : Type} (lower upper : α) : Side → α
  | .lower => lower
  | .upper => upper

theorem forall_iff {Q : Side → Prop} : (∀ side, Q side) ↔ Q .upper ∧ Q .lower := by
  refine ⟨fun h => ⟨h .upper, h .lower⟩, ?_⟩
  rintro ⟨hu, hl⟩ (_ | _)
  · exact hl
  · exact hu

/-- The number lies on one side of the coordinate, or at it. -/
def On (side : Side) (coord x : Float) : Prop := side.choose (x ≤ coord) (coord ≤ x)

theorem on_refl (side : Side) {x : Float} (h : x.isNaN = false) : side.On x x := by
  cases side with
  | lower => exact le_refl h
  | upper => exact le_refl h

end Side

namespace Box

/-- There is a lower and an upper bound in each of `D` dimensions. -/
structure Spans (D : Nat) (b : Box) : Prop where
  low : b.low.length = D
  high : b.high.length = D

structure Proper (D : Nat) (b : Box) : Prop where
  spans : b.Spans D
  finite : ∀ d < D, (b.low.getD d 0).isFinite = true ∧ (b.high.getD d 0).isFinite = true
  ordered : ∀ d < D, b.low.getD d 0 ≤ b.high.getD d 0

def Within (D : Nat) (a b : Box) : Prop :=
  ∀ d < D, b.low.getD d 0 ≤ a.low.getD d 0 ∧ a.high.getD d 0 ≤ b.high.getD d 0

/-- The point lies strictly between the bounds in every dimension. -/
def Inside (D : Nat) (b : Box) (p : Point) : Prop :=
  ∀ d < D, b.low.getD d 0 < p.getD d 0 ∧ p.getD d 0 < b.high.getD d 0

/-- Along some axis the first box ends before the second one begins. -/
def Apart (D : Nat) (a b : Box) : Prop := ∃ d < D, a.high.getD d 0 ≤ b.low.getD d 0

def bound (b : Box) (side : Side) (d : Nat) : Float := side.choose (b.high.getD d 0) (b.low.getD d 0)

/-- The part of a box on one side of a cut. -/
def part (b : Box) (side : Side) (axis : Nat) (coord : Float) : Box :=
  side.choose (b.below axis coord) (b.above axis coord)

variable {a b c : Box} {D axis : Nat} {p : Point} {coord : Float}

theorem within_iff : a.Within D b ↔ ∀ d < D, ∀ side : Side, side.On (b.bound side d) (a.bound side d) := by
  simp only [Side.forall_iff]
  rfl

theorem getD_set {l : Point} (h : axis < l.length) (v : Float) (d : Nat) :
    (l.set axis v).getD d 0 = if d = axis then v else l.getD d 0 := by
  grind

namespace Spans

theorem part (h : b.Spans D) (side : Side) : (b.part side axis coord).Spans D := by
  cases side with
  | lower => exact ⟨h.low, by simpa [Box.part, Side.choose, Box.below] using h.high⟩
  | upper => exact ⟨by simpa [Box.part, Side.choose, Box.above] using h.low, h.high⟩

theorem bound_part (h : b.Spans D) (haxis : axis < D) (s side : Side) (d : Nat) :
    (b.part s axis coord).bound side d = if side = s ∧ axis = d then coord else b.bound side d := by
  cases s with
  | lower =>
      cases side with
      | lower =>
          refine (getD_set (h.high ▸ haxis) coord d).trans ?_
          simp [eq_comm, bound, Side.choose]
      | upper => rfl
  | upper =>
      cases side with
      | lower => rfl
      | upper =>
          refine (getD_set (h.low ▸ haxis) coord d).trans ?_
          simp [eq_comm, bound, Side.choose]

theorem contains_iff (h : b.Spans D) : b.contains p = true ↔
    p.length = D ∧ ∀ d < D, b.low.getD d 0 ≤ p.getD d 0 ∧ p.getD d 0 ≤ b.high.getD d 0 := by
  rw [contains, dimensions, Bool.and_eq_true, beq_iff_eq, h.low]
  apply and_congr_right
  intro hp
  simp only [List.all_eq_true, List.forall_mem_iff_getElem]
  simp +contextual [h.low, h.high, hp]

theorem contains_iff_on (h : b.Spans D) : b.contains p = true ↔
    p.length = D ∧ ∀ d < D, ∀ side : Side, side.On (b.bound side d) (p.getD d 0) := by
  rw [h.contains_iff]
  simp only [Side.forall_iff]
  rfl

theorem contains_part_iff (h : b.Spans D) (haxis : axis < D) (hp : b.contains p = true) (side : Side) :
    (b.part side axis coord).contains p = true ↔ side.On coord (p.getD axis 0) := by
  obtain ⟨hlen, hin⟩ := h.contains_iff_on.1 hp
  rw [(h.part side).contains_iff_on]
  simp only [h.bound_part haxis]
  constructor
  · intro hc
    simpa using hc.2 axis haxis side
  · intro hc
    refine ⟨hlen, ?_⟩
    intro d hd s
    split
    · rename_i he
      obtain ⟨rfl, rfl⟩ := he
      exact hc
    · exact hin d hd s

end Spans

theorem not_inside_of_on (side : Side) {d : Nat} (hd : d < D) (h : side.On (p.getD d 0) (b.bound side d)) :
    ¬b.Inside D p := by
  intro hin
  cases side with
  | lower => exact not_lt_of_le h (hin d hd).2
  | upper => exact not_lt_of_le h (hin d hd).1

theorem Apart.not_inside (h : a.Apart D b) (p : Point) : ¬(a.Inside D p ∧ b.Inside D p) := by
  rintro ⟨ha, hb⟩
  obtain ⟨d, hd, hle⟩ := h
  have hpa := (lt_iff.1 (ha d hd).2).2.2
  have hbp := (lt_iff.1 (hb d hd).1).2.2
  exact absurd (hpa.trans_le ((le_iff.1 hle).2.2.trans hbp.le)) (lt_irrefl _)

theorem Within.trans (h : a.Within D b) (h' : b.Within D c) : a.Within D c := fun d hd =>
  ⟨le_trans (h' d hd).1 (h d hd).1, le_trans (h d hd).2 (h' d hd).2⟩

theorem Within.contains (h : a.Within D b) (ha : a.Spans D) (hb : b.Spans D) (hp : a.contains p = true) :
    b.contains p = true := by
  obtain ⟨hlen, hin⟩ := ha.contains_iff.1 hp
  exact hb.contains_iff.2 ⟨hlen, fun d hd => ⟨le_trans (h d hd).1 (hin d hd).1, le_trans (hin d hd).2 (h d hd).2⟩⟩

namespace Proper

theorem isFinite_of_mem (h : b.Proper D) {v : Float} (hv : v ∈ b.low ++ b.high) : v.isFinite = true := by
  rcases List.mem_append.1 hv with hv | hv
  · obtain ⟨d, hd, rfl⟩ := List.getElem_of_mem hv
    simpa [hd] using (h.finite d (h.spans.low ▸ hd)).1
  · obtain ⟨d, hd, rfl⟩ := List.getElem_of_mem hv
    simpa [hd] using (h.finite d (h.spans.high ▸ hd)).2

theorem within_refl (h : b.Proper D) : b.Within D b := fun d hd =>
  ⟨le_refl (isNaN_of_isFinite (h.finite d hd).1), le_refl (isNaN_of_isFinite (h.finite d hd).2)⟩

theorem finite_bound (h : b.Proper D) {d : Nat} (hd : d < D) (side : Side) : (b.bound side d).isFinite = true := by
  cases side with
  | lower => exact (h.finite d hd).2
  | upper => exact (h.finite d hd).1

theorem part (h : b.Proper D) (haxis : axis < D) (hin : ∀ side : Side, side.On (b.bound side axis) coord)
    (side : Side) : (b.part side axis coord).Proper D ∧ (b.part side axis coord).Within D b := by
  have hcoord : coord.isFinite = true :=
    isFinite_of_between (h.finite axis haxis).1 (h.finite axis haxis).2 (hin .upper) (hin .lower)
  have hfinite (s : Side) (d : Nat) (hd : d < D) : ((b.part side axis coord).bound s d).isFinite = true := by
    rw [h.spans.bound_part haxis]
    split
    · exact hcoord
    · exact h.finite_bound hd s
  have hordered (d : Nat) (hd : d < D) :
      (b.part side axis coord).bound .upper d ≤ (b.part side axis coord).bound .lower d := by
    rw [h.spans.bound_part haxis, h.spans.bound_part haxis]
    have hold : b.bound .upper d ≤ b.bound .lower d := h.ordered d hd
    by_cases he : axis = d
    · subst he
      have hlow : b.bound .upper axis ≤ coord := hin .upper
      have hhigh : coord ≤ b.bound .lower axis := hin .lower
      cases side with
      | lower => simpa using hlow
      | upper => simpa using hhigh
    · simpa [he] using hold
  refine ⟨⟨h.spans.part side, fun d hd => ⟨hfinite .upper d hd, hfinite .lower d hd⟩, hordered⟩, within_iff.2 ?_⟩
  intro d hd s
  rw [h.spans.bound_part haxis]
  split
  · rename_i he
    obtain ⟨rfl, rfl⟩ := he
    exact hin s
  · exact s.on_refl (isNaN_of_isFinite (h.finite_bound hd s))

end Proper

end Box

end Bisection
