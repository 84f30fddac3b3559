import Mathlib
import Bisection.Geometry.PointSet
import Bisection.Proofs.Floating

namespace Bisection.Double

open Float.Model (Format UnpackedFloat)
open Float.Model.UnpackedFloat Rounding Arithmetic Floating
open Unpacked hiding le_iff lt_iff isFinite_iff abs_value_le value_neg

/-- The number of a double; infinities count as `2 ^ 1024`, with their sign. -/
def value (x : Float) : ℚ := Unpacked.value .binary64 x.toModel.unpack

theorem wide : 2 ≤ Format.binary64.exponentBits := by decide

theorem proper (x : Float) : Proper .binary64 x.toModel.unpack := proper_unpack wide _

instance : Floating Float .binary64 Float.isNaN Float.isFinite value where
  unpacked x := x.toModel.unpack
  packed u := .ofModel (.pack u)
  wide := wide
  fractional := by decide
  proper := proper
  unpacked_packed _ := rfl
  isNaN_def _ := rfl
  isFinite_def _ := rfl
  value_def _ := rfl
  le_def _ _ := decide_eq_true_iff
  lt_def _ _ := decide_eq_true_iff
  add_def _ _ := rfl
  sub_def _ _ := rfl
  mul_def _ _ := rfl
  div_def _ _ := rfl
  neg_def _ := rfl

theorem top_eq : top .binary64 = 2 ^ 1024 := rfl

theorem value_pos {x : Float} (h : 0 < x) : 0 < value x := (lt_iff.1 h).2.2

theorem beq_of_le_of_le {x y : Float} (h : x ≤ y) (h' : y ≤ x) : (x == y) = true := by
  rw [le_iff] at h h'
  have hcompare : (unpacked x).compare (unpacked y) = some (compare (value x) (value y)) :=
    compare_eq (proper x) (proper y) (isNaN_eq_false.1 h.1) (isNaN_eq_false.1 h.2.1)
  change ((unpacked x).compare (unpacked y) == some .eq) = true
  rw [hcompare, beq_iff_eq, Option.some.injEq, compare_eq_iff_eq]
  exact le_antisymm h.2.2 h'.2.2

theorem unpacked_two : unpacked (2 : Float) = .finite .positive (2 ^ 52) (-51) (by norm_num) := rfl

theorem value_half {x : Float} (hx : x.isFinite = true) :
    (x / 2).isNaN = false ∧ value (x / 2) = clamp .binary64 (nearest .binary64 (value x / 2)) := by
  rw [isFinite_def x] at hx
  rw [div_def, unpacked_two, value_def x]
  apply value_of_rounds
  revert hx
  cases unpacked x with
  | notANumber | infinity => simp [UnpackedFloat.isFinite]
  | zero s => exact fun _ => by simpa [div, Unpacked.value] using rounds_zero _
  | finite s m e hm =>
      intro _
      have h := rounds_div (F := .binary64) (s := s) (t := .positive) (e := e) (f := -51) hm
        (n := 2 ^ 52) (by norm_num)
      have htwo : (((2 ^ 52 : ℕ) : ℚ)) * 2 ^ (-51 : ℤ) = 2 := by norm_num
      rw [htwo] at h
      cases s with
      | negative => rwa [Unpacked.value, withSign, neg_div]
      | positive => exact h

theorem value_half_infinite {x : Float} (hn : x.isNaN = false) (hx : x.isFinite = false) :
    (x / 2).isNaN = false ∧ value (x / 2) = value x ∧ |value x| = top .binary64 := by
  have habs : |value x| = top .binary64 := by
    refine (abs_value_le x).antisymm (not_lt.1 fun hlt => ?_)
    rw [isFinite_iff.2 ⟨hn, hlt⟩] at hx
    exact absurd hx (by simp)
  suffices h : unpacked (x / 2) = unpacked x by
    rw [isNaN_eq_false] at hn ⊢
    rw [value_def (x / 2), value_def x, h]
    exact ⟨hn, rfl, habs⟩
  rw [isNaN_eq_false] at hn
  rw [isFinite_def x] at hx
  rw [div_def, unpacked_packed, unpacked_two]
  revert hn hx
  cases unpacked x with
  | notANumber => exact fun h => absurd rfl h
  | zero | finite => exact fun _ h => absurd h (by simp [UnpackedFloat.isFinite])
  | infinity s =>
      intro _ _
      cases s <;> exact unpack_packedInfinity _

theorem isNaN_half {x : Float} (h : x.isNaN = false) : (x / 2).isNaN = false := by
  cases hx : x.isFinite with
  | true => exact (value_half hx).1
  | false => exact (value_half_infinite h hx).1

theorem half_mono {x y : Float} (h : x ≤ y) : x / 2 ≤ y / 2 := by
  obtain ⟨hnx, hny, hv⟩ := le_iff.1 h
  refine le_iff.2 ⟨isNaN_half hnx, isNaN_half hny, ?_⟩
  have hlx := abs_le.1 (abs_value_le (x / 2))
  have hly := abs_le.1 (abs_value_le (y / 2))
  cases hx : x.isFinite with
  | true =>
      cases hy : y.isFinite with
      | true =>
          rw [(value_half hx).2, (value_half hy).2]
          exact clamp_mono _ (nearest_mono _ (by linarith))
      | false =>
          obtain ⟨-, he, habs⟩ := value_half_infinite hny hy
          have hfin := abs_lt.1 (isFinite_iff.1 hx).2
          rcases abs_choice (value y) with hc | hc <;> linarith
  | false =>
      obtain ⟨-, he, habs⟩ := value_half_infinite hnx hx
      rcases abs_choice (value x) with hc | hc
      · have hy : y.isFinite = false := by
          by_contra hy
          have hfin := abs_lt.1 (isFinite_iff.1 (Bool.eq_true_of_not_eq_false hy)).2
          linarith
        rw [he, (value_half_infinite hny hy).2.1]
        exact hv
      · linarith

def midpoint (x y : Float) : Float := (x + y) / 2

theorem isNaN_midpoint {x y : Float} (hx : x.isFinite = true) (hy : y.isFinite = true) :
    (midpoint x y).isNaN = false :=
  isNaN_half (value_add hx hy).1

theorem midpoint_mono {x x' y y' : Float} (hx : x.isFinite = true) (hx' : x'.isFinite = true)
    (hy : y.isFinite = true) (hy' : y'.isFinite = true) (h : x ≤ x') (h' : y ≤ y') : midpoint x y ≤ midpoint x' y' :=
  half_mono (add_mono hx hx' hy hy' h h')

theorem isFinite_add_of_midpoint {x y : Float} (hx : x.isFinite = true) (hy : y.isFinite = true)
    (h : (midpoint x y).isFinite = true) : (x + y).isFinite = true := by
  by_contra hc
  obtain ⟨-, he, habs⟩ := value_half_infinite (value_add hx hy).1 (Bool.eq_false_of_not_eq_true hc)
  rw [isFinite_iff, midpoint, he, habs] at h
  exact lt_irrefl _ h.2

/-- A finite midpoint lies between the two doubles. -/
theorem midpoint_between {x y : Float} (hx : x.isFinite = true) (hy : y.isFinite = true) (h : x ≤ y)
    (hm : (midpoint x y).isFinite = true) : x ≤ midpoint x y ∧ midpoint x y ≤ y := by
  have hs := isFinite_add_of_midpoint hx hy hm
  obtain ⟨hsn, hsv⟩ := value_add hx hy
  obtain ⟨hmn, hmv⟩ := value_half hs
  change (midpoint x y).isNaN = false at hmn
  change value (midpoint x y) = _ at hmv
  have hsum : value (x + y) = nearest .binary64 (value x + value y) := by
    have hlt := (isFinite_iff.1 hs).2
    rw [hsv] at hlt
    rw [hsv, clamp_eq_of_abs_lt hlt]
  have hmid : value (midpoint x y) = nearest .binary64 (value (x + y) / 2) := by
    have hlt := (isFinite_iff.1 hm).2
    rw [hmv] at hlt
    rw [hmv, clamp_eq_of_abs_lt hlt]
  obtain ⟨hnx, hny, hv⟩ := le_iff.1 h
  have hlo : 2 * value x ≤ value (x + y) := by
    rw [hsum, ← nearest_double hx]
    exact nearest_mono _ (by linarith)
  have hup : value (x + y) ≤ 2 * value y := by
    rw [hsum, ← nearest_double hy]
    exact nearest_mono _ (by linarith)
  constructor
  · refine le_iff.2 ⟨hnx, hmn, ?_⟩
    rw [hmid, ← nearest_value hx]
    exact nearest_mono _ (by linarith)
  · refine le_iff.2 ⟨hmn, hny, ?_⟩
    rw [hmid, ← nearest_value hy]
    exact nearest_mono _ (by linarith)

theorem isFinite_midpoint_self {x : Float} (hx : x.isFinite = true) (h : 2 * |value x| < top .binary64) :
    (midpoint x x).isFinite = true := by
  obtain ⟨hn, hlt⟩ := isFinite_iff.1 hx
  have htwo : |2 * value x| < top .binary64 := by rwa [abs_mul, abs_two]
  obtain ⟨hsn, hsv⟩ := value_add hx hx
  rw [← two_mul, nearest_double hx, clamp_of_abs_le htwo.le] at hsv
  have hs : (x + x).isFinite = true := isFinite_iff.2 ⟨hsn, hsv ▸ htwo⟩
  obtain ⟨hmn, hmv⟩ := value_half hs
  rw [hsv, mul_div_cancel_left₀ _ two_ne_zero, nearest_value hx, clamp_of_abs_le hlt.le] at hmv
  exact isFinite_iff.2 ⟨hmn, hmv ▸ hlt⟩

def assemble (exponent fraction : ℕ) : ℚ :=
  match exponent with
  | 0 => fraction * 2 ^ (-1074 : ℤ)
  | q + 1 => (2 ^ 52 + fraction) * 2 ^ ((q : ℤ) - 1074)

theorem assemble_mono (exponent : ℕ) {r r' : ℕ} (h : r ≤ r') : assemble exponent r ≤ assemble exponent r' := by
  have hr : (r : ℚ) ≤ r' := by exact_mod_cast h
  cases exponent with
  | zero => exact mul_le_mul_of_nonneg_right hr (zpow_two_pos _).le
  | succ q => exact mul_le_mul_of_nonneg_right (by linarith) (zpow_two_pos _).le

theorem assemble_next (exponent : ℕ) : assemble exponent (2 ^ 52 - 1) ≤ assemble (exponent + 1) 0 := by
  cases exponent with
  | zero =>
      simp only [assemble]
      norm_num
  | succ q =>
      have he : ((q + 1 : ℕ) : ℤ) - 1074 = q - 1074 + 1 := by push_cast; ring
      have hp := zpow_two_pos ((q : ℤ) - 1074)
      rw [assemble, assemble, he, zpow_add₀ (by norm_num)]
      norm_num
      linarith

/-- The number of the double with sign bit zero and the other bits `k`. -/
def magnitude (k : ℕ) : ℚ := assemble (k / 2 ^ 52) (k % 2 ^ 52)

theorem magnitude_nonneg (k : ℕ) : 0 ≤ magnitude k := by
  rw [magnitude]
  cases k / 2 ^ 52 with
  | zero => exact mul_nonneg (Nat.cast_nonneg _) (zpow_two_pos _).le
  | succ q => exact mul_nonneg (by positivity) (zpow_two_pos _).le

theorem magnitude_mono : Monotone magnitude := by
  apply monotone_nat_of_le_succ
  intro k
  rw [magnitude, magnitude]
  rcases Nat.lt_or_ge (k % 2 ^ 52 + 1) (2 ^ 52) with h | h
  · rw [show (k + 1) / 2 ^ 52 = k / 2 ^ 52 by omega]
    exact assemble_mono _ (by omega)
  · rw [show (k + 1) / 2 ^ 52 = k / 2 ^ 52 + 1 by omega, show (k + 1) % 2 ^ 52 = 0 by omega,
      show k % 2 ^ 52 = 2 ^ 52 - 1 by omega]
    exact assemble_next _

theorem bias_eq : Format.binary64.exponentBias = 1023 := rfl

theorem assemble_top : assemble 2047 0 = top .binary64 := by
  rw [assemble, top, bias_eq, show ((1023 : ℕ) : ℤ) + 1 = 52 + ((2046 : ℕ) - 1074) by norm_num,
    zpow_add₀ (by norm_num)]
  norm_num

theorem value_unpack (b : BitVec 64) (hb : UnpackedFloat.unpack .binary64 b ≠ .notANumber) :
    Unpacked.value .binary64 (UnpackedFloat.unpack .binary64 b) =
      withSign (.ofBitVec (@unpackSign .binary64 b))
        (assemble (@unpackExponent .binary64 b).toNat (@unpackMantissa .binary64 b).toNat) := by
  revert hb
  fun_cases UnpackedFloat.unpack .binary64 b with
  | case1 M E sign s hE hM =>
      have hE' : E.toNat = 2047 := by rw [hE]; rfl
      have hM' : M.toNat = 0 := by rw [hM]; rfl
      intro _
      change withSign s (top .binary64) = withSign s (assemble E.toNat M.toNat)
      rw [hE', hM', assemble_top]
  | case2 => exact fun h => absurd rfl h
  | case3 M E sign s hinf hE hM =>
      have hE' : E.toNat = 0 := by rw [hE]; rfl
      have hM' : M.toNat = 0 := by rw [hM]; rfl
      intro _
      change 0 = withSign s (assemble E.toNat M.toNat)
      rw [hE', hM', assemble]
      cases s <;> simp [withSign]
  | case4 M E e sign s hinf hE hM =>
      have hE' : E.toNat = 0 := by rw [hE]; rfl
      intro _
      change withSign s (M.toNat * 2 ^ (e + 1)) = withSign s (assemble E.toNat M.toNat)
      have he : e + 1 = -1074 := by
        simp only [e, hE', bias_eq]
        norm_num
      rw [hE', he, assemble]
  | case5 M E e sign s hinf hE =>
      intro _
      change withSign s ((1#1 ++ M).toNat * 2 ^ e) = withSign s (assemble E.toNat M.toNat)
      obtain ⟨q, hq⟩ : ∃ q, E.toNat = q + 1 := by
        refine Nat.exists_eq_succ_of_ne_zero fun h => hE ?_
        exact BitVec.eq_of_toNat_eq h
      have he : e = q - 1074 := by
        simp only [e, hq, bias_eq]
        push_cast
        ring
      rw [hq, he, assemble, toNat_implicit]
      push_cast
      rfl

theorem sign_eq (x : Float) : Sign.ofBitVec (@unpackSign .binary64 x.toBits.toBitVec) =
    if x.toBits.toNat < 2 ^ 63 then .positive else .negative := by
  have hlt : x.toBits.toNat < 2 ^ 64 := x.toBits.toNat_lt
  have hs : (@unpackSign .binary64 x.toBits.toBitVec).toNat = x.toBits.toNat / 2 ^ 63 % 2 := by
    simp [unpackSign, Nat.shiftRight_eq_div_pow]
  have hz : @unpackSign .binary64 x.toBits.toBitVec = 0#1 ↔ x.toBits.toNat < 2 ^ 63 := by
    rw [← BitVec.toNat_inj, hs, BitVec.toNat_ofNat]
    omega
  rw [Sign.ofBitVec]
  exact if_congr hz rfl rfl

theorem value_eq_magnitude {x : Float} (hx : x.isNaN = false) :
    value x = if x.toBits.toNat < 2 ^ 63 then magnitude x.toBits.toNat
      else -magnitude (x.toBits.toNat - 2 ^ 63) := by
  rw [isNaN_eq_false] at hx
  have h := value_unpack x.toBits.toBitVec hx
  have hlt : x.toBits.toNat < 2 ^ 64 := x.toBits.toNat_lt
  have hE : (@unpackExponent .binary64 x.toBits.toBitVec).toNat = x.toBits.toNat / 2 ^ 52 % 2 ^ 11 := by
    simp [unpackExponent, Nat.shiftRight_eq_div_pow]
  have hM : (@unpackMantissa .binary64 x.toBits.toBitVec).toNat = x.toBits.toNat % 2 ^ 52 := by
    simp [unpackMantissa]
  rw [hE, hM, sign_eq] at h
  refine h.trans ?_
  split_ifs with hs
  · rw [withSign, magnitude, show x.toBits.toNat / 2 ^ 52 % 2 ^ 11 = x.toBits.toNat / 2 ^ 52 by omega]
  · rw [withSign, magnitude,
      show x.toBits.toNat / 2 ^ 52 % 2 ^ 11 = (x.toBits.toNat - 2 ^ 63) / 2 ^ 52 by omega,
      show x.toBits.toNat % 2 ^ 52 = (x.toBits.toNat - 2 ^ 63) % 2 ^ 52 by omega]

/-- The total order of doubles refines the order of their numbers. -/
theorem le_of_rank_le {x y : Float} (hx : x.isNaN = false) (hy : y.isNaN = false) (h : rank x ≤ rank y) : x ≤ y := by
  have hrank (z : Float) : rank z = if z.toBits.toNat < 2 ^ 63 then (z.toBits.toNat : ℤ)
      else 2 ^ 63 - 1 - z.toBits.toNat := rfl
  refine le_iff.2 ⟨hx, hy, ?_⟩
  rw [value_eq_magnitude hx, value_eq_magnitude hy]
  rw [hrank, hrank] at h
  by_cases hsx : x.toBits.toNat < 2 ^ 63 <;> by_cases hsy : y.toBits.toNat < 2 ^ 63
  · rw [if_pos hsx, if_pos hsy] at h ⊢
    exact magnitude_mono (by omega)
  · rw [if_pos hsx, if_neg hsy] at h
    omega
  · rw [if_neg hsx, if_pos hsy]
    have hpx := magnitude_nonneg (x.toBits.toNat - 2 ^ 63)
    have hpy := magnitude_nonneg y.toBits.toNat
    linarith
  · rw [if_neg hsx, if_neg hsy] at h ⊢
    exact neg_le_neg (magnitude_mono (by omega))

end Bisection.Double
