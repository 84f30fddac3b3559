import Mathlib
import Bisection.Proofs.Arithmetic

namespace Bisection

open Float.Model (Format UnpackedFloat)
open Float.Model.UnpackedFloat Rounding Arithmetic
open Unpacked hiding le_iff lt_iff isFinite_iff abs_value_le value_neg

/-- Numbers in a floating format: each of them has an unpacked form, and the order and the operations are those of the
unpacked forms, rounded to the format. Infinities count as the number where the format ends, with their sign. -/
class Floating (α : Type) [LE α] [LT α] [Add α] [Sub α] [Mul α] [Div α] [Neg α] (F : outParam Format)
    (isNaN isFinite : outParam (α → Bool)) (value : outParam (α → ℚ)) where
  unpacked : α → UnpackedFloat
  packed : UnpackedFloat → α
  wide : 2 ≤ F.exponentBits
  fractional : F.minExponent ≤ 0
  proper (x : α) : Proper F (unpacked x)
  unpacked_packed (u : UnpackedFloat) : unpacked (packed u) = unpack F (pack F u)
  isNaN_def (x : α) : isNaN x = (unpacked x).isNaN
  isFinite_def (x : α) : isFinite x = (unpacked x).isFinite
  value_def (x : α) : value x = Unpacked.value F (unpacked x)
  le_def (x y : α) : x ≤ y ↔ (unpacked x).le (unpacked y) = true
  lt_def (x y : α) : x < y ↔ (unpacked x).lt (unpacked y) = true
  add_def (x y : α) : x + y = packed (add F (unpacked x) (unpacked y))
  sub_def (x y : α) : x - y = packed (sub F (unpacked x) (unpacked y))
  mul_def (x y : α) : x * y = packed (mul F (unpacked x) (unpacked y))
  div_def (x y : α) : x / y = packed (div F (unpacked x) (unpacked y))
  neg_def (x : α) : -x = packed (unpacked x).neg

namespace Floating

variable {α : Type} [LE α] [LT α] [Add α] [Sub α] [Mul α] [Div α] [Neg α] {F : Format} {isNaN isFinite : α → Bool}
  {value : α → ℚ} [I : Floating α F isNaN isFinite value] {x x' y y' z : α}

include I

theorem canonical (x : α) : Canonical F (I.unpacked x) := (I.proper x).canonical

theorem isNaN_eq_false : isNaN x = false ↔ I.unpacked x ≠ .notANumber := by
  rw [I.isNaN_def, ← Bool.not_eq_true, isNaN_iff]

section Order

theorem le_iff : x ≤ y ↔ isNaN x = false ∧ isNaN y = false ∧ value x ≤ value y := by
  rw [isNaN_eq_false, isNaN_eq_false, I.value_def, I.value_def, I.le_def]
  exact Unpacked.le_iff (I.proper x) (I.proper y)

theorem lt_iff : x < y ↔ isNaN x = false ∧ isNaN y = false ∧ value x < value y := by
  rw [isNaN_eq_false, isNaN_eq_false, I.value_def, I.value_def, I.lt_def]
  exact Unpacked.lt_iff (I.proper x) (I.proper y)

theorem isFinite_iff : isFinite x = true ↔ isNaN x = false ∧ |value x| < top F := by
  rw [isNaN_eq_false, I.value_def, I.isFinite_def]
  exact Unpacked.isFinite_iff (I.proper x)

theorem abs_value_le (x : α) : |value x| ≤ top F := by
  rw [I.value_def]
  exact Unpacked.abs_value_le (I.proper x)

theorem isNaN_of_isFinite (h : isFinite x = true) : isNaN x = false := (isFinite_iff.1 h).1

theorem lt_iff_value (hx : isFinite x = true) (hy : isFinite y = true) : x < y ↔ value x < value y :=
  ⟨fun h => (lt_iff.1 h).2.2, fun h => lt_iff.2 ⟨isNaN_of_isFinite hx, isNaN_of_isFinite hy, h⟩⟩

theorem isNaN_of_le (h : x ≤ y) : isNaN x = false ∧ isNaN y = false := ⟨(le_iff.1 h).1, (le_iff.1 h).2.1⟩

theorem le_refl (h : isNaN x = false) : x ≤ x := le_iff.2 ⟨h, h, le_rfl⟩

theorem le_trans (h : x ≤ y) (h' : y ≤ z) : x ≤ z := by
  rw [le_iff] at *
  exact ⟨h.1, h'.2.1, h.2.2.trans h'.2.2⟩

theorem le_of_lt (h : x < y) : x ≤ y := by
  rw [lt_iff] at h
  exact le_iff.2 ⟨h.1, h.2.1, h.2.2.le⟩

theorem lt_of_lt_of_le (h : x < y) (h' : y ≤ z) : x < z := by
  rw [le_iff] at h'
  rw [lt_iff] at *
  exact ⟨h.1, h'.2.1, h.2.2.trans_le h'.2.2⟩

theorem lt_of_le_of_lt (h : x ≤ y) (h' : y < z) : x < z := by
  rw [le_iff] at h
  rw [lt_iff] at *
  exact ⟨h.1, h'.2.1, h.2.2.trans_lt h'.2.2⟩

theorem not_lt_of_le (h : x ≤ y) : ¬y < x := fun hlt =>
  absurd (lt_iff.1 hlt).2.2 (not_lt.2 (le_iff.1 h).2.2)

theorem le_of_not_lt (hx : isNaN x = false) (hy : isNaN y = false) (h : ¬x < y) : y ≤ x :=
  le_iff.2 ⟨hy, hx, not_lt.1 fun hlt => h (lt_iff.2 ⟨hx, hy, hlt⟩)⟩

theorem le_of_not_le (hx : isNaN x = false) (hy : isNaN y = false) (h : ¬x ≤ y) : y ≤ x :=
  le_of_not_lt hx hy fun hlt => h (le_of_lt hlt)

theorem isFinite_of_between (hx : isFinite x = true) (hz : isFinite z = true) (hxy : x ≤ y) (hyz : y ≤ z) :
    isFinite y = true := by
  rw [le_iff] at hxy hyz
  rw [isFinite_iff, abs_lt] at *
  exact ⟨hyz.1, hx.2.1.trans_le hxy.2.2, hyz.2.2.trans_lt hz.2.2⟩

end Order

section Operations

theorem value_of_rounds {u : UnpackedFloat} {v : ℚ} (h : Rounds F u v) :
    isNaN (I.packed u) = false ∧ value (I.packed u) = clamp F (nearest F v) := by
  rw [isNaN_eq_false, I.value_def, I.unpacked_packed]
  exact h.packed I.wide

theorem value_add (hx : isFinite x = true) (hy : isFinite y = true) :
    isNaN (x + y) = false ∧ value (x + y) = clamp F (nearest F (value x + value y)) := by
  rw [I.isFinite_def] at hx hy
  rw [I.add_def, I.value_def x, I.value_def y]
  exact value_of_rounds (rounds_add (canonical x) (canonical y) hx hy)

theorem value_mul (hx : isFinite x = true) (hy : isFinite y = true) :
    isNaN (x * y) = false ∧ value (x * y) = clamp F (nearest F (value x * value y)) := by
  rw [I.isFinite_def] at hx hy
  rw [I.mul_def, I.value_def x, I.value_def y]
  exact value_of_rounds (rounds_mul_finite I.fractional (canonical x) (canonical y) hx hy)

theorem unpacked_neg (x : α) : I.unpacked (-x) = (I.unpacked x).neg := by
  rw [I.neg_def, I.unpacked_packed]
  exact unpack_pack I.wide (I.proper x).neg

theorem value_neg (x : α) : isNaN (-x) = isNaN x ∧ value (-x) = -value x := by
  rw [Bool.eq_iff_iff, I.isNaN_def, I.isNaN_def, I.value_def, I.value_def, unpacked_neg, isNaN_iff, isNaN_iff]
  exact ⟨neg_eq_notANumber, Unpacked.value_neg _⟩

theorem isFinite_neg (h : isFinite x = true) : isFinite (-x) = true := by
  rw [isFinite_iff] at *
  rw [(value_neg x).1, (value_neg x).2, abs_neg]
  exact h

theorem le_neg_comm : x ≤ -y ↔ y ≤ -x := by
  rw [le_iff (x := x), le_iff (x := y), (value_neg x).1, (value_neg x).2, (value_neg y).1, (value_neg y).2, le_neg,
    and_left_comm]

theorem neg_le_comm : -x ≤ y ↔ -y ≤ x := by
  rw [le_iff (y := y), le_iff (y := x), (value_neg x).1, (value_neg x).2, (value_neg y).1, (value_neg y).2, neg_le,
    and_left_comm]

theorem lt_neg_comm : x < -y ↔ y < -x := by
  rw [lt_iff (x := x), lt_iff (x := y), (value_neg x).1, (value_neg x).2, (value_neg y).1, (value_neg y).2, lt_neg,
    and_left_comm]

theorem sub_eq (x y : α) : x - y = x + -y := by
  rw [I.sub_def, I.add_def, unpacked_neg, Arithmetic.sub_eq]

theorem value_sub (hx : isFinite x = true) (hy : isFinite y = true) :
    isNaN (x - y) = false ∧ value (x - y) = clamp F (nearest F (value x - value y)) := by
  have h := value_add hx (isFinite_neg hy)
  rwa [(value_neg y).2, ← sub_eq, ← sub_eq_add_neg] at h

theorem add_mono (hx : isFinite x = true) (hx' : isFinite x' = true) (hy : isFinite y = true)
    (hy' : isFinite y' = true) (h : x ≤ x') (h' : y ≤ y') : x + y ≤ x' + y' := by
  have hs := value_add hx hy
  have hs' := value_add hx' hy'
  rw [le_iff] at *
  refine ⟨hs.1, hs'.1, ?_⟩
  rw [hs.2, hs'.2]
  exact clamp_mono _ (nearest_mono _ (add_le_add h.2.2 h'.2.2))

theorem add_le_add_right (hx : isFinite x = true) (hy : isFinite y = true) (hz : isFinite z = true) (h : x ≤ y) :
    x + z ≤ y + z := add_mono hx hy hz hz h (le_refl (isNaN_of_isFinite hz))

theorem sub_le_sub_right (hx : isFinite x = true) (hy : isFinite y = true) (hz : isFinite z = true) (h : x ≤ y) :
    x - z ≤ y - z := by
  rw [sub_eq, sub_eq]
  exact add_le_add_right hx hy (isFinite_neg hz) h

theorem isNaN_sub (hx : isFinite x = true) (hy : isNaN y = false) : isNaN (x - y) = false := by
  by_cases h : isFinite y = true
  · exact (value_sub hx h).1
  · rw [I.isFinite_def] at hx h
    rw [isNaN_eq_false] at *
    rw [I.sub_def, I.unpacked_packed]
    revert hx hy h
    cases I.unpacked x <;> cases I.unpacked y <;>
      simp [UnpackedFloat.isFinite, UnpackedFloat.sub, UnpackedFloat.pack]

theorem nearest_value (hx : isFinite x = true) : nearest F (value x) = value x := by
  have hc : Canonical F (I.unpacked x) := canonical x
  rw [I.isFinite_def] at hx
  rw [I.value_def]
  revert hx hc
  cases I.unpacked x with
  | notANumber | infinity => simp [UnpackedFloat.isFinite]
  | zero s => exact fun _ _ => (rounds_zero s).value_eq.symm
  | finite s m e hm => exact fun _ hc => (rounds_finite hc).value_eq.symm

theorem nearest_double (hx : isFinite x = true) : nearest F (2 * value x) = 2 * value x := by
  have hc : Canonical F (I.unpacked x) := canonical x
  rw [I.isFinite_def] at hx
  rw [I.value_def]
  revert hx hc
  cases I.unpacked x with
  | notANumber | infinity => simp [UnpackedFloat.isFinite]
  | zero s => simp [Unpacked.value, nearest]
  | finite s m e hm =>
      intro _ hc
      have hpos := scaled_pos hm e
      have hlast : lastPlace F (2 * (m * 2 ^ e)) ≤ e + 1 := by
        have h := lastPlace_double F hpos
        rwa [lastPlace_finite hm, hc] at h
      have hexact : roundMagnitude F (2 * (m * 2 ^ e)) = 2 * (m * 2 ^ e) :=
        roundMagnitude_exact _ (k := m) (by rw [zpow_add₀ (by norm_num)]; push_cast; ring) hlast
      have hsign : 2 * Unpacked.value F (.finite s m e hm) = withSign s (2 * (m * 2 ^ e)) := by
        cases s <;> simp [Unpacked.value, withSign]
      rw [hsign, nearest_withSign s (mul_pos two_pos hpos).le, hexact]

end Operations

end Floating

end Bisection
