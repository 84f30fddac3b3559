import Mathlib
import Bisection.Proofs.Rounding

namespace Bisection.Unpacked

open Float.Model (Format UnpackedFloat totalExponent)
open Float.Model.UnpackedFloat Rounding

variable {F : Format}

/-- The first power of two out of range. -/
def top (F : Format) : ℚ := 2 ^ ((F.exponentBias : ℤ) + 1)

theorem top_pos (F : Format) : 0 < top F := zpow_two_pos _

def withSign : Sign → ℚ → ℚ
  | .negative, q => -q
  | .positive, q => q

def value (F : Format) : UnpackedFloat → ℚ
  | .infinity s => withSign s (top F)
  | .notANumber => 0
  | .zero _ => 0
  | .finite s m e _ => withSign s (m * 2 ^ e)

/-- The exponent of a finite float is the one that the format asks for. -/
def Canonical (F : Format) : UnpackedFloat → Prop
  | .finite _ m e _ => F.targetExponent (totalExponent m e) = e
  | _ => True

def Proper (F : Format) : UnpackedFloat → Prop
  | .finite _ m e _ => F.targetExponent (totalExponent m e) = e ∧ (m : ℚ) * 2 ^ e < top F
  | _ => True

theorem Proper.canonical {u : UnpackedFloat} (h : Proper F u) : Canonical F u := by
  cases u with
  | notANumber | infinity | zero => trivial
  | finite => exact h.1

theorem Proper.neg {u : UnpackedFloat} (h : Proper F u) : Proper F u.neg := by
  cases u <;> exact h

theorem neg_eq_notANumber {u : UnpackedFloat} : u.neg = .notANumber ↔ u = .notANumber := by
  cases u <;> simp [UnpackedFloat.neg]

theorem value_neg (u : UnpackedFloat) : value F u.neg = -value F u := by
  cases u with
  | notANumber | zero => simp [UnpackedFloat.neg, value]
  | infinity s | finite s => cases s <;> simp [UnpackedFloat.neg, value, withSign]

theorem zpow_log2_le {m : ℕ} (hm : 0 < m) : (2 : ℚ) ^ (m.log2 : ℤ) ≤ m := by
  rw [zpow_natCast]
  exact_mod_cast Nat.log2_self_le hm.ne'

theorem lt_zpow_log2 (m : ℕ) : (m : ℚ) + 1 ≤ 2 ^ ((m.log2 : ℤ) + 1) := by
  have h : m + 1 ≤ 2 ^ (m.log2 + 1) := Nat.lt_log2_self
  exact_mod_cast h

theorem log_scaled {m : ℕ} {e : ℤ} {q : ℚ} (hm : 0 < m) (hl : m ≤ q) (hu : q < m + 1) :
    Int.log 2 (q * 2 ^ e) = m.log2 + e := by
  have hq : (0 : ℚ) < q := lt_of_lt_of_le (by exact_mod_cast hm) hl
  have hv : 0 < q * 2 ^ e := mul_pos hq (zpow_two_pos e)
  have hlo : (2 : ℕ) ^ ((m.log2 : ℤ) + e) ≤ q * 2 ^ e := by
    push_cast
    rw [zpow_add₀ (by norm_num)]
    exact mul_le_mul_of_nonneg_right ((zpow_log2_le hm).trans hl) (zpow_two_pos e).le
  have hup : q * 2 ^ e < (2 : ℕ) ^ ((m.log2 : ℤ) + e + 1) := by
    push_cast
    rw [add_right_comm, zpow_add₀ (by norm_num)]
    exact mul_lt_mul_of_pos_right (hu.trans_le (lt_zpow_log2 m)) (zpow_two_pos e)
  rw [Int.zpow_le_iff_le_log (by norm_num) hv] at hlo
  rw [Int.lt_zpow_iff_log_lt (by norm_num) hv] at hup
  omega

theorem lastPlace_finite {m : ℕ} (hm : 0 < m) (e : ℤ) :
    lastPlace F ((m : ℚ) * 2 ^ e) = F.targetExponent (totalExponent m e) := by
  rw [lastPlace, log_scaled hm le_rfl (by linarith), totalExponent]
  congr 1
  omega

theorem mantissaBits_eq (F : Format) : F.mantissaBits = F.mantissaBitsWithoutImplicit + 1 := by
  rw [Format.mantissaBits, Nat.add_comm]

theorem minExponent_eq (F : Format) :
    F.minExponent = 1 - (F.exponentBias : ℤ) - F.mantissaBitsWithoutImplicit := by
  have hp : 1 ≤ 2 ^ (F.exponentBits - 1) := Nat.one_le_two_pow
  have hb : (F.exponentBias : ℤ) = 2 ^ (F.exponentBits - 1) - 1 := by
    rw [Format.exponentBias, Nat.cast_sub hp]
    push_cast
    rfl
  rw [Format.minExponent, mantissaBits_eq, hb]
  push_cast
  ring

theorem two_pow_exponentBits (F : Format) : 2 ^ F.exponentBits = 2 * F.exponentBias + 2 := by
  have he := F.he
  have hp : 1 ≤ 2 ^ (F.exponentBits - 1) := Nat.one_le_two_pow
  have hs : 2 ^ F.exponentBits = 2 * 2 ^ (F.exponentBits - 1) := by
    conv_lhs => rw [show F.exponentBits = F.exponentBits - 1 + 1 by omega, pow_succ]
    ring
  rw [hs, Format.exponentBias]
  omega

theorem exponentBias_pos (hF : 2 ≤ F.exponentBits) : 1 ≤ F.exponentBias := by
  have h := Nat.pow_le_pow_right (n := 2) (by norm_num) hF
  have hb := two_pow_exponentBits F
  omega

theorem canonical_iff {s : Sign} {m : ℕ} {e : ℤ} {hm : 0 < m} : Canonical F (.finite s m e hm) ↔
    m.log2 ≤ F.mantissaBitsWithoutImplicit ∧ F.minExponent ≤ e ∧
      (m.log2 = F.mantissaBitsWithoutImplicit ∨ e = F.minExponent) := by
  rw [Canonical, Format.targetExponent, totalExponent, mantissaBits_eq]
  push_cast
  omega

theorem canonical_of_bounds {s : Sign} {m : ℕ} {e : ℤ} {hm : 0 < m} (hlt : m < 2 ^ F.mantissaBits)
    (he : F.minExponent ≤ e) (hge : 2 ^ F.mantissaBitsWithoutImplicit ≤ m ∨ e = F.minExponent) :
    Canonical F (.finite s m e hm) := by
  have hu := (Nat.log2_lt hm.ne').2 hlt
  rw [mantissaBits_eq] at hu
  refine canonical_iff.2 ⟨by omega, he, hge.imp_left fun hg => ?_⟩
  have hl := (Nat.le_log2 hm.ne').2 hg
  omega

theorem scaled_pos {m : ℕ} (hm : 0 < m) (e : ℤ) : 0 < (m : ℚ) * 2 ^ e :=
  mul_pos (by exact_mod_cast hm) (zpow_two_pos e)

theorem scaled_lt {m n : ℕ} {e f : ℤ} (hm : 0 < m) (hn : 0 < n) (he : F.targetExponent (totalExponent m e) = e)
    (hf : F.targetExponent (totalExponent n f) = f) (h : e < f) : (m : ℚ) * 2 ^ e < n * 2 ^ f := by
  by_contra hc
  have hl := lastPlace_mono F (scaled_pos hn f) (not_lt.1 hc)
  rw [lastPlace_finite hm, lastPlace_finite hn, he, hf] at hl
  omega

theorem compare_scaled {m n : ℕ} {e f : ℤ} (hm : 0 < m) (hn : 0 < n)
    (he : F.targetExponent (totalExponent m e) = e) (hf : F.targetExponent (totalExponent n f) = f) :
    (compare e f).then (compare m n) = compare ((m : ℚ) * 2 ^ e) (n * 2 ^ f) := by
  rcases lt_trichotomy e f with h | rfl | h
  · rw [compare_lt_iff_lt.2 h, compare_lt_iff_lt.2 (scaled_lt hm hn he hf h)]
    rfl
  · rw [compare_eq_iff_eq.2 rfl]
    have hp := zpow_two_pos e
    rcases lt_trichotomy m n with h | rfl | h
    · have hq : (m : ℚ) * 2 ^ e < n * 2 ^ e := mul_lt_mul_of_pos_right (by exact_mod_cast h) hp
      rw [compare_lt_iff_lt.2 h, compare_lt_iff_lt.2 hq]
      rfl
    · simp
    · have hq : (n : ℚ) * 2 ^ e < m * 2 ^ e := mul_lt_mul_of_pos_right (by exact_mod_cast h) hp
      rw [compare_gt_iff_gt.2 h, compare_gt_iff_gt.2 hq]
      rfl
  · rw [compare_gt_iff_gt.2 h, compare_gt_iff_gt.2 (scaled_lt hn hm hf he h)]
    rfl

theorem compare_neg_neg (v w : ℚ) : compare (-v) (-w) = (compare v w).swap := by
  rcases lt_trichotomy v w with h | rfl | h
  · rw [compare_lt_iff_lt.2 h, compare_gt_iff_gt.2 (neg_lt_neg h)]
    rfl
  · simp
  · rw [compare_gt_iff_gt.2 h, compare_lt_iff_lt.2 (neg_lt_neg h)]
    rfl

@[simp] theorem lt_eq_compare {v w : ℚ} : Ordering.lt = compare v w ↔ v < w := by
  rw [eq_comm, compare_lt_iff_lt]

@[simp] theorem gt_eq_compare {v w : ℚ} : Ordering.gt = compare v w ↔ w < v := by
  rw [eq_comm, compare_gt_iff_gt]

@[simp] theorem eq_eq_compare {v w : ℚ} : Ordering.eq = compare v w ↔ v = w := by
  rw [eq_comm, compare_eq_iff_eq]

theorem compare_infinity (s t : Sign) : compare s t = compare (withSign s (top F)) (withSign t (top F)) := by
  have ht := top_pos F
  cases s <;> cases t
  · exact eq_eq_compare.2 rfl
  · exact lt_eq_compare.2 (by simp only [withSign]; linarith)
  · exact gt_eq_compare.2 (by simp only [withSign]; linarith)
  · exact eq_eq_compare.2 rfl

theorem compare_eq {a b : UnpackedFloat} (ha : Proper F a) (hb : Proper F b) (hna : a ≠ .notANumber)
    (hnb : b ≠ .notANumber) : a.compare b = some (compare (value F a) (value F b)) := by
  have ht := top_pos F
  cases a with
  | notANumber => exact absurd rfl hna
  | infinity s =>
      cases b with
      | notANumber => exact absurd rfl hnb
      | infinity t => exact congrArg some (compare_infinity s t)
      | zero t => cases s <;> simp [UnpackedFloat.compare, value, withSign, ht]
      | finite t n f hn =>
          have hp := scaled_pos hn f
          have hl := hb.2
          cases s <;> cases t <;> simp [UnpackedFloat.compare, value, withSign] <;> linarith
  | zero s =>
      cases b with
      | notANumber => exact absurd rfl hnb
      | infinity t => cases t <;> simp [UnpackedFloat.compare, value, withSign, ht]
      | zero t => simp [UnpackedFloat.compare, value]
      | finite t n f hn => cases t <;> simp [UnpackedFloat.compare, value, withSign, hn, zpow_two_pos]
  | finite s m e hm =>
      have hp := scaled_pos hm e
      have hl := ha.2
      cases b with
      | notANumber => exact absurd rfl hnb
      | infinity t => cases s <;> cases t <;> simp [UnpackedFloat.compare, value, withSign] <;> linarith
      | zero t => cases s <;> simp [UnpackedFloat.compare, value, withSign, hm, zpow_two_pos]
      | finite t n f hn =>
          have hq := scaled_pos hn f
          have hc := compare_scaled hm hn ha.1 hb.1
          cases s <;> cases t <;> simp [UnpackedFloat.compare, value, withSign, hc, compare_neg_neg] <;> linarith

theorem le_iff {a b : UnpackedFloat} (ha : Proper F a) (hb : Proper F b) :
    a.le b = true ↔ a ≠ .notANumber ∧ b ≠ .notANumber ∧ value F a ≤ value F b := by
  by_cases hna : a = .notANumber
  · subst hna
    simp [UnpackedFloat.le, UnpackedFloat.compare]
  by_cases hnb : b = .notANumber
  · subst hnb
    cases a <;> simp [UnpackedFloat.le, UnpackedFloat.compare]
  · simp [UnpackedFloat.le, compare_eq ha hb hna hnb, hna, hnb, Ordering.isLE_iff_ne_gt, compare_gt_iff_gt]

theorem lt_iff {a b : UnpackedFloat} (ha : Proper F a) (hb : Proper F b) :
    a.lt b = true ↔ a ≠ .notANumber ∧ b ≠ .notANumber ∧ value F a < value F b := by
  by_cases hna : a = .notANumber
  · subst hna
    simp [UnpackedFloat.lt, UnpackedFloat.compare]
  by_cases hnb : b = .notANumber
  · subst hnb
    cases a <;> simp [UnpackedFloat.lt, UnpackedFloat.compare]
  · simp [UnpackedFloat.lt, compare_eq ha hb hna hnb, hna, hnb, compare_lt_iff_lt]

theorem lt_top_iff (hF : 2 ≤ F.exponentBits) {s : Sign} {m : ℕ} {e : ℤ} {hm : 0 < m}
    (hc : Canonical F (.finite s m e hm)) :
    (m : ℚ) * 2 ^ e < top F ↔ e + F.mantissaBitsWithoutImplicit ≤ F.exponentBias := by
  obtain ⟨hlog, hmin, hfull⟩ := canonical_iff.1 hc
  have hb := exponentBias_pos hF
  rw [minExponent_eq] at hmin hfull
  have hl := log_scaled (e := e) hm le_rfl (lt_add_one (m : ℚ))
  have hi := Int.lt_zpow_iff_log_lt (b := 2) (by norm_num) (x := F.exponentBias + 1) (scaled_pos hm e)
  rw [hl] at hi
  rw [top]
  push_cast at hi
  rw [hi]
  omega

theorem ne_neg_one_iff {E : BitVec F.exponentBits} : E ≠ -1#_ ↔ E.toNat ≤ 2 * F.exponentBias := by
  have h := two_pow_exponentBits F
  have hE := E.isLt
  rw [BitVec.neg_one_eq_allOnes, ne_eq, ← BitVec.toNat_inj, BitVec.toNat_allOnes]
  omega

theorem toNat_implicit {w : ℕ} (M : BitVec w) : (1#1 ++ M).toNat = 2 ^ w + M.toNat := by
  rw [BitVec.toNat_append, ← Nat.shiftLeft_add_eq_or_of_lt M.isLt]
  simp [Nat.shiftLeft_eq]

theorem log2_implicit {w : ℕ} (M : BitVec w) : (1#1 ++ M).toNat.log2 = w := by
  rw [toNat_implicit, Nat.log2_eq_iff (by positivity)]
  have := M.isLt
  rw [pow_succ]
  omega

theorem proper_unpack (hF : 2 ≤ F.exponentBits) (b : BitVec F.numBits) : Proper F (unpack F b) := by
  fun_cases unpack with
  | case1 | case2 | case3 => trivial
  | case4 M E e sign s hinf hzero hM =>
      -- subnormal
      have hb := exponentBias_pos hF
      have hc : Canonical F (.finite s M.toNat (e + 1)
          (by simpa [BitVec.toNat_pos, BitVec.pos_iff_ne_zero] using hM)) := by
        have hlog : M.toNat.log2 < F.mantissaBitsWithoutImplicit :=
          (Nat.log2_lt (by simpa [← BitVec.toNat_inj] using hM)).2 M.isLt
        refine canonical_iff.2 ⟨hlog.le, ?_, Or.inr ?_⟩ <;> simp [minExponent_eq, e, hzero] <;> omega
      exact ⟨hc, (lt_top_iff hF hc).2 (by simp [e, hzero]; omega)⟩
  | case5 M E e sign s hinf hzero =>
      have hE := ne_neg_one_iff.1 hinf
      have hE' : E.toNat ≠ 0 := by simpa [← BitVec.toNat_inj] using hzero
      have hc : Canonical F (.finite s (1#1 ++ M).toNat e (by simp)) :=
        canonical_iff.2 ⟨(log2_implicit M).le, by simp [minExponent_eq, e]; omega, Or.inl (log2_implicit M)⟩
      exact ⟨hc, (lt_top_iff hF hc).2 (by simp [e]; omega)⟩

@[simp] theorem unpack_packedInfinity (s : Sign) : unpack F (packedInfinity F s) = .infinity s := by
  simp [unpack, packedInfinity]

theorem biased_eq {s : Sign} {m : ℕ} {e : ℤ} {hm : 0 < m} (hc : Canonical F (.finite s m e hm)) :
    ((e + F.exponentBias + F.mantissaBitsWithoutImplicit).toNat : ℤ) =
      e + F.exponentBias + F.mantissaBitsWithoutImplicit := by
  have hmin := (canonical_iff.1 hc).2.1
  rw [minExponent_eq] at hmin
  omega

theorem unpack_pack_normal {s : Sign} {m : ℕ} {e : ℤ} {hm : 0 < m} (hc : Canonical F (.finite s m e hm))
    (hr : e + F.mantissaBitsWithoutImplicit ≤ F.exponentBias) (hn : m.log2 = F.mantissaBitsWithoutImplicit) :
    unpack F (pack F (.finite s m e hm)) = .finite s m e hm := by
  have hcap := two_pow_exponentBits F
  have hmin := (canonical_iff.1 hc).2.1
  rw [minExponent_eq] at hmin
  have hb := biased_eq hc
  set b := (e + F.exponentBias + F.mantissaBitsWithoutImplicit).toNat with hbdef
  have hlt : b % 2 ^ F.exponentBits = b := Nat.mod_eq_of_lt (by omega)
  have hz : BitVec.ofNat F.exponentBits b ≠ 0#_ := by
    rw [ne_eq, ← BitVec.toNat_inj, BitVec.toNat_ofNat, hlt]
    simp
    omega
  have hi : BitVec.ofNat F.exponentBits b ≠ -1#_ := by
    rw [ne_neg_one_iff, BitVec.toNat_ofNat, hlt]
    omega
  have hm' : (1#1 ++ BitVec.ofNat F.mantissaBitsWithoutImplicit m).toNat = m := by
    rw [Nat.log2_eq_iff hm.ne', pow_succ] at hn
    rw [toNat_implicit, BitVec.toNat_ofNat, Nat.mod_eq_sub_mod hn.1, Nat.mod_eq_of_lt (by omega)]
    omega
  have hp : pack F (.finite s m e hm) =
      packComponents F s (BitVec.ofNat _ b) (BitVec.ofNat _ m) := by
    rw [pack]
    simp only [← hbdef]
    rw [if_neg (by omega), if_pos (by rw [mantissaBits_eq, hn])]
  rw [hp, unpack]
  simp [hz, hi, hlt, hm']
  omega

theorem unpack_pack_subnormal (hF : 2 ≤ F.exponentBits) {s : Sign} {m : ℕ} {e : ℤ} {hm : 0 < m}
    (he : e = F.minExponent) (hn : m.log2 < F.mantissaBitsWithoutImplicit) :
    unpack F (pack F (.finite s m e hm)) = .finite s m e hm := by
  have hcap := two_pow_exponentBits F
  have hbias := exponentBias_pos hF
  rw [minExponent_eq] at he
  have hmod : m % 2 ^ F.mantissaBitsWithoutImplicit = m := Nat.mod_eq_of_lt ((Nat.log2_lt hm.ne').1 hn)
  have hz : BitVec.ofNat F.mantissaBitsWithoutImplicit m ≠ 0#_ := by
    rw [ne_eq, ← BitVec.toNat_inj, BitVec.toNat_ofNat, hmod]
    simp
    omega
  have hp : pack F (.finite s m e hm) = packComponents F s 0#_ (BitVec.ofNat _ m) := by
    rw [pack]
    rw [if_neg (by omega), if_neg (by rw [mantissaBits_eq]; omega)]
  rw [hp, unpack]
  simp [hz, hmod, he, F.he.ne']
  omega

/-- Packing loses nothing of a float that fits the format. -/
theorem unpack_pack (hF : 2 ≤ F.exponentBits) {u : UnpackedFloat} (h : Proper F u) : unpack F (pack F u) = u := by
  cases u with
  | notANumber => exact unpack_packedNaN
  | infinity s => exact unpack_packedInfinity s
  | zero s => exact unpack_packedZero
  | finite s m e hm =>
      have hc : Canonical F (.finite s m e hm) := h.1
      obtain ⟨hlog, hmin, hfull⟩ := canonical_iff.1 hc
      rcases hlog.lt_or_eq with hlt | heq
      · exact unpack_pack_subnormal hF (hfull.resolve_left hlt.ne) hlt
      · exact unpack_pack_normal hc ((lt_top_iff hF hc).1 h.2) heq

/-- Cuts off at both ends of the range. -/
def clamp (F : Format) (v : ℚ) : ℚ := max (-top F) (min (top F) v)

theorem clamp_mono (F : Format) {v w : ℚ} (h : v ≤ w) : clamp F v ≤ clamp F w :=
  max_le_max le_rfl (min_le_min le_rfl h)

theorem clamp_of_abs_le {v : ℚ} (h : |v| ≤ top F) : clamp F v = v := by
  rw [abs_le] at h
  rw [clamp, min_eq_right h.2, max_eq_right h.1]

theorem clamp_eq_of_abs_lt {v : ℚ} (h : |clamp F v| < top F) : clamp F v = v := by
  unfold clamp at *
  rw [abs_lt] at h
  grind

theorem clamp_withSign (s : Sign) {v : ℚ} (hv : top F ≤ v) : clamp F (withSign s v) = withSign s (top F) := by
  have ht := top_pos F
  cases s with
  | positive => rw [withSign, clamp, min_eq_left hv, max_eq_right (by linarith), withSign]
  | negative => rw [withSign, clamp, min_eq_right (by linarith), max_eq_left (by linarith), withSign]

theorem abs_value_le {u : UnpackedFloat} (h : Proper F u) : |value F u| ≤ top F := by
  have ht := top_pos F
  cases u with
  | notANumber => simp [value, ht.le]
  | infinity s => cases s <;> simp [value, withSign, abs_of_pos ht]
  | zero s => simp [value, ht.le]
  | finite s m e hm => cases s <;> simpa [value, withSign, abs_mul, abs_of_pos (zpow_two_pos e)] using h.2.le

/-- Packing keeps a float that fits the format and turns all others into infinities. -/
theorem unpack_pack_cases (hF : 2 ≤ F.exponentBits) {u : UnpackedFloat} (h : Canonical F u) :
    Proper F u ∧ unpack F (pack F u) = u ∨
      ∃ s m e hm, u = .finite s m e hm ∧ top F ≤ m * 2 ^ e ∧ unpack F (pack F u) = .infinity s := by
  have hproper (hp : Proper F u) : Proper F u ∧ unpack F (pack F u) = u := ⟨hp, unpack_pack hF hp⟩
  cases u with
  | notANumber | infinity | zero => exact Or.inl (hproper trivial)
  | finite s m e hm =>
      by_cases hr : (m : ℚ) * 2 ^ e < top F
      · exact Or.inl (hproper ⟨h, hr⟩)
      · have hover : pack F (.finite s m e hm) = packedInfinity F s := by
          have hb := biased_eq h
          have hcap := two_pow_exponentBits F
          have hr' := (lt_top_iff hF h).not.1 hr
          rw [pack]
          exact if_pos (by omega)
        exact Or.inr ⟨s, m, e, hm, rfl, not_lt.1 hr, by rw [hover, unpack_packedInfinity]⟩

theorem value_unpack_pack (hF : 2 ≤ F.exponentBits) {u : UnpackedFloat} (h : Canonical F u) :
    value F (unpack F (pack F u)) = clamp F (value F u) := by
  rcases unpack_pack_cases hF h with ⟨hp, he⟩ | ⟨s, m, e, hm, rfl, ht, he⟩
  · rw [he, clamp_of_abs_le (abs_value_le hp)]
  · rw [he, value, value, clamp_withSign s ht]

theorem unpack_pack_ne_notANumber (hF : 2 ≤ F.exponentBits) {u : UnpackedFloat} (h : Canonical F u)
    (hu : u ≠ .notANumber) : unpack F (pack F u) ≠ .notANumber := by
  rcases unpack_pack_cases hF h with ⟨_, he⟩ | ⟨s, m, e, hm, rfl, _, he⟩
  · rwa [he]
  · rw [he]
    exact nofun

theorem isFinite_iff {u : UnpackedFloat} (h : Proper F u) :
    u.isFinite = true ↔ u ≠ .notANumber ∧ |value F u| < top F := by
  have ht := top_pos F
  cases u with
  | notANumber => simp [UnpackedFloat.isFinite]
  | infinity s => cases s <;> simp [UnpackedFloat.isFinite, value, withSign, abs_of_pos ht]
  | zero s => simp [UnpackedFloat.isFinite, value, ht]
  | finite s m e hm =>
      cases s <;> simpa [UnpackedFloat.isFinite, value, withSign, abs_mul, abs_of_pos (zpow_two_pos e)] using h.2

end Bisection.Unpacked
