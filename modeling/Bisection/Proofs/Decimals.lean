import Mathlib
import Bisection.Number.Shortest
import Bisection.Proofs.Double

namespace Bisection

open Float.Model (Format UnpackedFloat totalExponent)
open Float.Model.UnpackedFloat Rounding Unpacked Arithmetic

namespace Unpacked

variable {F : Format} {u a b : UnpackedFloat}

def Unsigned : UnpackedFloat → Prop
  | .infinity s => s = .positive
  | .notANumber => False
  | .zero s => s = .positive
  | .finite s _ _ _ => s = .positive

theorem Unsigned.ne_notANumber (h : Unsigned u) : u ≠ .notANumber := by
  rintro rfl
  exact h

/-- Without a sign there is one float for each number. -/
theorem Unsigned.eq_of_value (ha : Unsigned a) (hb : Unsigned b) (hpa : Proper F a) (hpb : Proper F b)
    (h : value F a = value F b) : a = b := by
  have hcompare := compare_eq hpa hpb ha.ne_notANumber hb.ne_notANumber
  rw [compare_eq_iff_eq.2 h] at hcompare
  cases a with
  | notANumber => exact ha.elim
  | infinity s =>
      cases ha
      cases b with
      | notANumber => exact hb.elim
      | infinity t => exact congrArg _ hb.symm
      | zero t | finite t n f hn => cases hb; simp [UnpackedFloat.compare] at hcompare
  | zero s =>
      cases ha
      cases b with
      | notANumber => exact hb.elim
      | zero t => exact congrArg _ hb.symm
      | infinity t | finite t n f hn => cases hb; simp [UnpackedFloat.compare] at hcompare
  | finite s m e hm =>
      cases ha
      cases b with
      | notANumber => exact hb.elim
      | infinity t | zero t => cases hb; simp [UnpackedFloat.compare] at hcompare
      | finite t n f hn =>
          cases hb
          simp only [UnpackedFloat.compare, Option.some.injEq, Ordering.then_eq_eq, compare_eq_iff_eq] at hcompare
          obtain ⟨rfl, rfl⟩ := hcompare
          rfl

theorem Unsigned.unpack_pack (hF : 2 ≤ F.exponentBits) (hc : Canonical F u) (hu : Unsigned u) :
    Unsigned (unpack F (pack F u)) := by
  rcases unpack_pack_cases hF hc with ⟨-, he⟩ | ⟨s, m, e, hm, rfl, -, he⟩
  · rwa [he]
  · rw [he]
    exact hu

theorem unsigned_roundWithAccuracy (m : ℕ) (e : ℤ) (acc : Accuracy) :
    Unsigned (roundWithAccuracy F .positive m e acc) := by
  unfold roundWithAccuracy
  dsimp only
  split
  · rfl
  · rfl

theorem Unsigned.abs_eq (h : Unsigned u) : u.abs = u := by
  cases u with
  | notANumber => rfl
  | infinity s | zero s | finite s m e hm => rw [show s = .positive from h]; rfl

theorem neg_abs_eq (hn : u ≠ .notANumber) (h : ¬Unsigned u) : u.abs.neg = u := by
  cases u with
  | notANumber => exact absurd rfl hn
  | infinity s | zero s | finite s m e hm =>
      cases s with
      | positive => exact absurd rfl h
      | negative => rfl

theorem unsigned_abs (hn : u ≠ .notANumber) : Unsigned u.abs := by
  cases u with
  | notANumber => exact absurd rfl hn
  | infinity s | zero s | finite s m e hm => rfl

theorem value_abs (u : UnpackedFloat) : value F u.abs = |value F u| := by
  cases u with
  | notANumber => simp [UnpackedFloat.abs, value]
  | zero s => simp [UnpackedFloat.abs, value]
  | infinity s => cases s <;> simp [UnpackedFloat.abs, value, withSign, abs_of_pos (top_pos F)]
  | finite s m e hm => cases s <;> simp [UnpackedFloat.abs, value, withSign, abs_mul, abs_of_pos (zpow_two_pos e)]

theorem proper_abs (h : Proper F u) : Proper F u.abs := by
  cases u <;> exact h

theorem unsigned_mul {m n : ℕ} {e f : ℤ} (hm : 0 < m) (hn : 0 < n) :
    Unsigned (mul F (.finite .positive m e hm) (.finite .positive n f hn)) := unsigned_roundWithAccuracy ..

theorem unsigned_div {m n : ℕ} {e f : ℤ} (hm : 0 < m) (hn : 0 < n) :
    Unsigned (div F (.finite .positive m e hm) (.finite .positive n f hn)) := unsigned_roundWithAccuracy ..

end Unpacked

namespace Double

open Floating (isNaN_eq_false)

variable {x y : Float}

theorem eq_of_unpack (h : x.toModel.unpack = y.toModel.unpack) : x = y := by
  obtain ⟨⟨bits, valid⟩⟩ := x
  obtain ⟨⟨bits', valid'⟩⟩ := y
  have hbits := (unpack_inj_of_valid valid valid').1 h
  cases bits
  cases bits'
  cases hbits
  rfl

theorem eq_of_beq (hx : Unsigned x.toModel.unpack) (hy : Unsigned y.toModel.unpack) (h : (x == y) = true) : x = y := by
  have hcompare := compare_eq (proper x) (proper y) hx.ne_notANumber hy.ne_notANumber
  change (x.toModel.unpack.compare y.toModel.unpack == some .eq) = true at h
  rw [hcompare, beq_iff_eq, Option.some.injEq, compare_eq_iff_eq] at h
  exact eq_of_unpack (hx.eq_of_value hy (proper x) (proper y) h)

theorem unpack_abs (x : Float) : x.abs.toModel.unpack = x.toModel.unpack.abs := unpack_pack wide (proper_abs (proper x))

theorem unsigned_abs (hn : x.isNaN = false) : Unsigned x.abs.toModel.unpack := by
  rw [unpack_abs]
  exact Unpacked.unsigned_abs (isNaN_eq_false.1 hn)

theorem value_abs (x : Float) : value x.abs = |value x| := by
  rw [value, unpack_abs, Unpacked.value_abs, ← value]

theorem isFinite_abs (h : x.isFinite = true) : x.abs.isFinite = true := by
  obtain ⟨hn, hlt⟩ := Floating.isFinite_iff.1 h
  refine Floating.isFinite_iff.2 ⟨isNaN_eq_false.2 (unsigned_abs hn).ne_notANumber, ?_⟩
  rwa [value_abs, abs_abs]

theorem unsigned_unpack {b : BitVec 64} (hn : UnpackedFloat.unpack .binary64 b ≠ .notANumber) :
    Unsigned (UnpackedFloat.unpack .binary64 b) ↔ Sign.ofBitVec (@unpackSign .binary64 b) = .positive := by
  revert hn
  fun_cases UnpackedFloat.unpack .binary64 b with
  | case2 => exact fun h => absurd rfl h
  | case1 | case3 | case4 | case5 => exact fun _ => Iff.rfl

theorem unsigned_iff (hn : x.isNaN = false) : Unsigned x.toModel.unpack ↔ isNegative x = false := by
  have hbits : isNegative x = false ↔ x.toBits.toNat < 2 ^ 63 := by
    simp [isNegative, UInt64.le_iff_toNat_le]
  rw [hbits, Float.Model.unpack]
  refine (unsigned_unpack (isNaN_eq_false.1 hn)).trans ?_
  rw [← Float.toBits, sign_eq]
  split_ifs with h
  · exact iff_of_true rfl h
  · exact iff_of_false (by simp) h

theorem eq_signed_abs (hn : x.isNaN = false) : x = if isNegative x then -x.abs else x.abs := by
  apply eq_of_unpack
  split
  · rename_i hneg
    have hs : ¬Unsigned x.toModel.unpack := by simp [unsigned_iff hn, hneg]
    have hunpack : (-x.abs).toModel.unpack = x.abs.toModel.unpack.neg := Floating.unpacked_neg x.abs
    rw [hunpack, unpack_abs]
    exact (neg_abs_eq (isNaN_eq_false.1 hn) hs).symm
  · rename_i hpos
    rw [unpack_abs, ((unsigned_iff hn).2 (Bool.eq_false_of_not_eq_true hpos)).abs_eq]

end Double

namespace Decimal

def value (d : Decimal) : ℚ := d.digits * 10 ^ d.exponent

theorem rounds_ofScientific {m : ℕ} {e : ℤ} (hm : 0 < m) (hmax : e ≤ 2048) (hmin : -(2048 + (m.log2 : ℤ)) ≤ e) :
    Rounds .binary64 (UnpackedFloat.ofScientific .binary64 m e) (m * 10 ^ e) ∧
      Unsigned (UnpackedFloat.ofScientific .binary64 m e) := by
  have hexp : (2 : ℤ) ^ Format.binary64.exponentBits = 2048 := rfl
  rw [UnpackedFloat.ofScientific, dif_neg hm.ne', hexp, if_neg (by omega), if_neg (by omega)]
  have hm' : (0 : ℚ) < m := by exact_mod_cast hm
  split
  · rename_i he
    obtain ⟨k, rfl⟩ : ∃ k : ℕ, e = k := ⟨e.toNat, by omega⟩
    refine ⟨?_, unsigned_mul ..⟩
    have hv : (((m <<< Format.binary64.mantissaBits : ℕ) : ℚ)) * 2 ^ (-(Format.binary64.mantissaBits : ℤ)) *
        (((10 ^ k : ℕ) : ℚ) * 2 ^ (0 : ℤ)) = m * 10 ^ (k : ℤ) := by
      rw [Nat.shiftLeft_eq, zpow_neg, zpow_natCast]
      push_cast
      field_simp
      norm_num
    have hlast : -(Format.binary64.mantissaBits : ℤ) + 0 ≤ lastPlace .binary64 ((m : ℚ) * 10 ^ (k : ℤ)) := by
      have hone : (1 : ℚ) ≤ m * 10 ^ (k : ℤ) := by exact_mod_cast Nat.mul_pos hm (pow_pos (by norm_num) k)
      have hlog : 0 ≤ Int.log 2 ((m : ℚ) * 10 ^ (k : ℤ)) := by
        rw [← Int.zpow_le_iff_le_log (by norm_num) (by linarith)]
        simpa using hone
      rw [lastPlace_eq]
      exact le_max_of_le_left (by omega)
    rw [← hv] at hlast ⊢
    exact rounds_mul _ _ hlast
  · rename_i he
    refine ⟨?_, unsigned_div ..⟩
    have hv : (m : ℚ) * 2 ^ (0 : ℤ) / ((10 ^ (-e).toNat : ℕ) * 2 ^ (0 : ℤ)) = m * 10 ^ e := by
      have he' : e = -((-e).toNat : ℤ) := by omega
      conv_rhs => rw [he', zpow_neg, zpow_natCast]
      rw [zpow_zero, mul_one, mul_one, div_eq_mul_inv]
      push_cast
      rfl
    rw [← hv]
    exact rounds_div hm _

theorem clamp_nearest_of_top_le {v : ℚ} (h : top .binary64 ≤ v) :
    clamp .binary64 (nearest .binary64 v) = top .binary64 := by
  have htop := top_pos .binary64
  have hexact : nearest .binary64 (top .binary64) = top .binary64 := by
    rw [nearest_of_nonneg _ htop.le]
    refine roundMagnitude_exact _ (k := 1) (e := 1024) (by simp [top, Double.bias_eq]) ?_
    have hlog : Int.log 2 (top .binary64) = 1024 := Int.log_zpow (R := ℚ) one_lt_two 1024
    rw [lastPlace_eq, hlog]
    decide
  have hle : top .binary64 ≤ nearest .binary64 v := by
    rw [← hexact]
    exact nearest_mono _ h
  rw [clamp, min_eq_left hle, max_eq_right (by linarith)]

theorem nearest_of_lt {v : ℚ} (hv : 0 ≤ v) (h : v < 2 ^ (-1075 : ℤ)) : nearest .binary64 v = 0 := by
  rw [nearest_of_nonneg _ hv]
  rcases hv.eq_or_lt with rfl | hpos
  · exact roundMagnitude_zero _
  · have hlog : Int.log 2 v < -1075 := by
      rw [← Int.lt_zpow_iff_log_lt (by norm_num) hpos]
      exact_mod_cast h
    have hlast : lastPlace .binary64 v = -1074 := by
      rw [lastPlace_eq]
      exact max_eq_right (by simp [Format.mantissaBits, Format.minExponent]; omega)
    have hhalf : v / 2 ^ (-1074 : ℤ) < 1 / 2 := by
      rw [div_lt_iff₀ (zpow_two_pos _), one_div, ← zpow_neg_one, ← zpow_add₀ two_ne_zero]
      exact h
    have hfloor : ⌊v / 2 ^ (-1074 : ℤ)⌋ = 0 := by
      rw [Int.floor_eq_zero_iff]
      exact ⟨by positivity, by linarith⟩
    rw [roundMagnitude, hlast, nearestEven, hfloor, Int.cast_zero, sub_zero, if_pos hhalf, Int.cast_zero, zero_mul]

theorem unpack_toFloat {d : Decimal} {u : UnpackedFloat}
    (h : UnpackedFloat.ofScientific .binary64 d.digits d.exponent = u) (hu : Proper .binary64 u) :
    d.toFloat.toModel.unpack = u := by
  rw [← h] at hu ⊢
  exact unpack_pack Double.wide hu

/-- Reading a decimal gives the exact number, rounded and cut off, without a sign. -/
theorem toFloat_spec (d : Decimal) : Unsigned d.toFloat.toModel.unpack ∧
    Double.value d.toFloat = clamp .binary64 (nearest .binary64 d.value) := by
  have hzero (h : UnpackedFloat.ofScientific .binary64 d.digits d.exponent = .zero .positive)
      (hn : nearest .binary64 d.value = 0) : Unsigned d.toFloat.toModel.unpack ∧
        Double.value d.toFloat = clamp .binary64 (nearest .binary64 d.value) := by
    rw [Double.value, unpack_toFloat h trivial, hn]
    exact ⟨rfl, (clamp_of_abs_le (v := 0) (by rw [abs_zero]; exact (top_pos _).le)).symm⟩
  have hexp : (2 : ℤ) ^ Format.binary64.exponentBits = 2048 := rfl
  obtain ⟨m, e⟩ := d
  rcases Nat.eq_zero_or_pos m with rfl | hm
  · refine hzero (dif_pos rfl) ?_
    rw [value, Nat.cast_zero, zero_mul, nearest_of_nonneg _ le_rfl, roundMagnitude_zero]
  have hm' : (1 : ℚ) ≤ m := by exact_mod_cast hm
  -- beyond an exponent of 2048, and below one that the digits cannot make up for, no power of ten is formed
  rcases lt_or_ge 2048 e with hmax | hmax
  · have hinf : UnpackedFloat.ofScientific .binary64 m e = .infinity .positive := by
      rw [UnpackedFloat.ofScientific, dif_neg hm.ne', hexp, if_pos hmax]
    have hu : (toFloat ⟨m, e⟩).toModel.unpack = .infinity .positive := unpack_toFloat hinf trivial
    rw [Double.value, hu]
    refine ⟨rfl, (clamp_nearest_of_top_le ?_).symm⟩
    calc top .binary64 = 2 ^ (1024 : ℤ) := rfl
      _ ≤ 2 ^ e := zpow_le_zpow_right₀ one_le_two (by omega)
      _ ≤ 10 ^ e := zpow_le_zpow_left₀ (by omega) two_pos.le (by norm_num)
      _ ≤ m * 10 ^ e := le_mul_of_one_le_left (by positivity) hm'
  rcases lt_or_ge e (-(2048 + (m.log2 : ℤ))) with hmin | hmin
  · refine hzero ?_ (nearest_of_lt (by rw [value]; positivity) ?_)
    · change UnpackedFloat.ofScientific .binary64 m e = _
      rw [UnpackedFloat.ofScientific, dif_neg hm.ne', hexp, if_neg (by omega), if_pos hmin]
    · have hten : (10 : ℚ) ^ e ≤ 2 ^ e := by
        obtain ⟨n, rfl⟩ : ∃ n : ℕ, e = -n := ⟨(-e).toNat, by omega⟩
        rw [zpow_neg, zpow_neg, zpow_natCast, zpow_natCast]
        exact inv_anti₀ (by positivity) (pow_le_pow_left₀ two_pos.le (by norm_num) n)
      calc (m : ℚ) * 10 ^ e ≤ m * 2 ^ e := mul_le_mul_of_nonneg_left hten (by positivity)
        _ < 2 ^ ((m.log2 : ℤ) + 1) * 2 ^ e :=
          mul_lt_mul_of_pos_right (by linarith [lt_zpow_log2 m]) (zpow_two_pos e)
        _ = 2 ^ ((m.log2 : ℤ) + 1 + e) := (zpow_add₀ two_ne_zero _ _).symm
        _ ≤ 2 ^ (-1075 : ℤ) := zpow_le_zpow_right₀ one_le_two (by omega)
  · obtain ⟨hr, hs⟩ := rounds_ofScientific hm hmax hmin
    exact ⟨hs.unpack_pack Double.wide hr.canonical, (Floating.value_of_rounds hr).2⟩

theorem toFloat_eq {d : Decimal} {x : Float} (hx : Unsigned x.toModel.unpack)
    (h : Double.value x = clamp .binary64 (nearest .binary64 d.value)) : d.toFloat = x := by
  obtain ⟨hs, hv⟩ := d.toFloat_spec
  exact Double.eq_of_unpack (hs.eq_of_value hx (Double.proper _) (Double.proper _) (hv.trans h.symm))

theorem toFloat_congr {d d' : Decimal} (h : d.value = d'.value) : d.toFloat = d'.toFloat := by
  obtain ⟨hs, hv⟩ := d'.toFloat_spec
  exact toFloat_eq hs (by rw [hv, h])

end Decimal

namespace Binary

def value (b : Binary) : ℚ := b.mantissa * 2 ^ b.exponent

theorem value_ofFloat {x : Float} (hx : x.isNaN = false) : (ofFloat x).value = |Double.value x| := by
  have hlt : x.toBits.toNat < 2 ^ 64 := x.toBits.toNat_lt
  have habs : |Double.value x| = Double.magnitude (x.toBits.toNat % 2 ^ 63) := by
    rw [Double.value_eq_magnitude hx]
    split
    · rw [abs_of_nonneg (Double.magnitude_nonneg _), Nat.mod_eq_of_lt ‹_›]
    · rw [abs_neg, abs_of_nonneg (Double.magnitude_nonneg _),
        show x.toBits.toNat - 2 ^ 63 = x.toBits.toNat % 2 ^ 63 by omega]
  have hfraction : x.toBits.toNat % 2 ^ 63 % 2 ^ 52 = x.toBits.toNat % 0x10000000000000 := by omega
  have hbiased : x.toBits.toNat % 2 ^ 63 / 2 ^ 52 = x.toBits.toNat / 0x10000000000000 % 0x800 := by omega
  rw [habs, Double.magnitude, hfraction, hbiased, ofFloat]
  cases x.toBits.toNat / 0x10000000000000 % 0x800 with
  | zero => rfl
  | succ q =>
      rw [if_neg (Nat.succ_ne_zero q), value, Double.assemble]
      push_cast
      rw [show (q : ℤ) + 1 - 1075 = q - 1074 by ring, add_comm]
      norm_num

theorem value_toDecimal (b : Binary) : b.toDecimal.value = b.value := by
  simp only [toDecimal, Decimal.value, value, numerator, Nat.pow_eq]
  obtain ⟨n, hn | hn⟩ : ∃ n : ℕ, b.exponent = n ∨ b.exponent = -n := ⟨b.exponent.natAbs, by omega⟩
  · rw [hn, Int.toNat_natCast, min_eq_right (Int.natCast_nonneg n), show (-(n : ℤ)).toNat = 0 by omega, zpow_natCast]
    push_cast
    simp
  · have hten : (10 : ℚ) ^ n = 2 ^ n * 5 ^ n := by rw [← mul_pow]; norm_num
    rw [hn, Int.neg_neg, Int.toNat_natCast, min_eq_left (by omega), show (-(n : ℤ)).toNat = 0 by omega, zpow_neg,
      zpow_neg, zpow_natCast, zpow_natCast, hten]
    push_cast
    field_simp

end Binary

namespace Decimal

theorem toFloat_of_value {d : Decimal} {x : Float} (hx : x.isFinite = true) (h : d.value = |Double.value x|) :
    d.toFloat = x.abs := by
  refine toFloat_eq (Double.unsigned_abs (Floating.isNaN_of_isFinite hx)) ?_
  rw [h, ← Double.value_abs, Floating.nearest_value (Double.isFinite_abs hx), clamp_of_abs_le (Floating.abs_value_le _)]

theorem beq_of_pick? {g : Neighbours} {x : Float} {d : Decimal} (h : g.pick? x = some d) :
    (d.toFloat == x) = true := by
  unfold Neighbours.pick? at h
  grind

theorem toFloat_search {b : Binary} {x : Float} (hx : Unsigned x.toModel.unpack) (hb : b.toDecimal.toFloat = x)
    (fuel : ℕ) (e : ℤ) : (search b x fuel e).toFloat = x := by
  induction fuel generalizing e with
  | zero => exact hb
  | succ fuel ih =>
      rw [search]
      split
      · rename_i d hd
        exact Double.eq_of_beq d.toFloat_spec.1 hx (beq_of_pick? hd)
      · exact ih _

/-- The digits chosen for a double stand for its magnitude. -/
theorem toFloat_shortest {x : Float} (hx : x.isFinite = true) : (shortest x).toFloat = x.abs := by
  have hvalue := Binary.value_ofFloat (Floating.isNaN_of_isFinite hx)
  rw [shortest]
  split
  · rename_i hzero
    refine toFloat_of_value hx ?_
    rw [← hvalue, Binary.value, hzero]
    simp [value]
  · refine toFloat_search ?_ (toFloat_of_value hx ?_) _ _
    · exact Double.unsigned_abs (Floating.isNaN_of_isFinite hx)
    · rw [Binary.value_toDecimal, hvalue]

end Decimal

end Bisection
