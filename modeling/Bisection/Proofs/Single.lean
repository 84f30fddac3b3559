import Mathlib
import Bisection.View.Vector
import Bisection.Proofs.Floating

namespace Bisection.Single

open Float.Model (Format UnpackedFloat)
open Float.Model.UnpackedFloat Rounding Arithmetic Floating
open Unpacked hiding le_iff lt_iff isFinite_iff abs_value_le value_neg

/-- The number of a single; infinities count as `2 ^ 128`, with their sign. -/
def value (x : Float32) : ℚ := Unpacked.value .binary32 x.toModel.unpack

instance : Floating Float32 .binary32 Float32.isNaN Float32.isFinite value where
  unpacked x := x.toModel.unpack
  packed u := .ofModel (.pack u)
  wide := by decide
  fractional := by decide
  proper _ := proper_unpack (by decide) _
  unpacked_packed _ := rfl
  isNaN_def _ := rfl
  isFinite_def _ := rfl
  value_def _ := rfl
  le_def _ _ := decide_eq_true_iff
  lt_def _ _ := decide_eq_true_iff
  add_def _ _ := rfl
  sub_def _ _ := rfl
  mul_def _ _ := rfl
  div_def _ _ := rfl
  neg_def _ := rfl

variable {x y : Float32}

theorem value_one : value 1 = 1 := by
  change ((8388608 : ℕ) : ℚ) * 2 ^ (-23 : ℤ) = 1
  norm_num

theorem value_two : value 2 = 2 := by
  change ((8388608 : ℕ) : ℚ) * 2 ^ (-22 : ℤ) = 2
  norm_num

theorem lastPlace_of_mem {v : ℚ} (h : 1 ≤ v) (h' : v < 2) : lastPlace .binary32 v = -23 := by
  have hpos : 0 < v := by linarith
  have hlow : 0 ≤ Int.log 2 v := (Int.zpow_le_iff_le_log (by norm_num) hpos).1 (by simpa using h)
  have hhigh : Int.log 2 v < 1 := (Int.lt_zpow_iff_log_lt (by norm_num) hpos).1 (by simpa using h')
  rw [lastPlace_eq, show Int.log 2 v = 0 by omega]
  rfl

/-- Between one and two the numbers are multiples of `2 ^ (-23)`. -/
theorem exists_value_eq (h : 1 ≤ x) (h' : x < 2) : ∃ m : ℕ, value x = m * 2 ^ (-23 : ℤ) := by
  have hone : (1 : Float32).isFinite = true := rfl
  have htwo : (2 : Float32).isFinite = true := rfl
  have hfin := isFinite_of_between hone htwo h (le_of_lt h')
  have hlow := (le_iff.1 h).2.2
  have hhigh := (lt_iff.1 h').2.2
  have hc : Canonical .binary32 (unpacked x) := canonical x
  rw [isFinite_def x] at hfin
  rw [value_one, value_def x] at hlow
  rw [value_two, value_def x] at hhigh
  rw [value_def x]
  revert hfin hlow hhigh hc
  cases unpacked x with
  | notANumber | infinity => exact fun hfin => absurd hfin (by simp [UnpackedFloat.isFinite])
  | zero => exact fun _ hlow => absurd hlow (by norm_num [Unpacked.value])
  | finite s m e hm =>
      intro _ hlow hhigh hc
      cases s with
      | negative =>
          have hpos := scaled_pos hm e
          rw [Unpacked.value, withSign] at hlow
          linarith
      | positive =>
          rw [Unpacked.value, withSign] at hlow hhigh ⊢
          have he : lastPlace .binary32 ((m : ℚ) * 2 ^ e) = e := (lastPlace_finite hm e).trans hc
          rw [lastPlace_of_mem hlow hhigh] at he
          exact ⟨m, by rw [← he]⟩

theorem next_le {w : Float32} {n : ℕ} (hx : value x = n * 2 ^ (-23 : ℤ)) (hw : w.isNaN = false)
    (hnext : value w = (n + 1 : ℕ) * 2 ^ (-23 : ℤ)) (h : 1 ≤ x) (hxy : x < y) (h' : y < 2) : w ≤ y := by
  obtain ⟨m, hm⟩ := exists_value_eq (le_trans h (le_of_lt hxy)) h'
  obtain ⟨-, hy, hlt⟩ := lt_iff.1 hxy
  rw [hx, hm] at hlt
  have hnm : n < m := by exact_mod_cast lt_of_mul_lt_mul_right hlt (zpow_two_pos _).le
  refine le_iff.2 ⟨hw, hy, ?_⟩
  rw [hnext, hm]
  exact mul_le_mul_of_nonneg_right (by exact_mod_cast hnm) (zpow_two_pos _).le

end Bisection.Single
