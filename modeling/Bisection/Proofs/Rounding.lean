import Mathlib

namespace Bisection.Rounding

open Float.Model (Format)

/-- The nearest integer, the even one of two equally near. -/
def nearestEven (q : ℚ) : ℤ :=
  if q - ⌊q⌋ < 1 / 2 then ⌊q⌋ else if 1 / 2 < q - ⌊q⌋ then ⌊q⌋ + 1 else ⌊q⌋ + ⌊q⌋ % 2

theorem nearestEven_intCast (z : ℤ) : nearestEven z = z := by
  simp [nearestEven]

theorem floor_le_nearestEven (q : ℚ) : ⌊q⌋ ≤ nearestEven q := by
  unfold nearestEven
  split_ifs <;> omega

theorem nearestEven_le_floor (q : ℚ) : nearestEven q ≤ ⌊q⌋ + 1 := by
  unfold nearestEven
  split_ifs <;> omega

theorem nearestEven_mono {q r : ℚ} (h : q ≤ r) : nearestEven q ≤ nearestEven r := by
  rcases (Int.floor_mono h).lt_or_eq with hlt | heq
  · have hq := nearestEven_le_floor q
    have hr := floor_le_nearestEven r
    omega
  · unfold nearestEven
    rw [heq]
    split_ifs <;> grind

theorem nearestEven_le {q : ℚ} {z : ℤ} (h : q ≤ z) : nearestEven q ≤ z := by
  simpa only [nearestEven_intCast] using nearestEven_mono h

theorem le_nearestEven {q : ℚ} {z : ℤ} (h : z ≤ q) : z ≤ nearestEven q := by
  simpa only [nearestEven_intCast] using nearestEven_mono h

theorem nearestEven_nonneg {q : ℚ} (h : 0 ≤ q) : 0 ≤ nearestEven q :=
  (Int.floor_nonneg.2 h).trans (floor_le_nearestEven q)

theorem zpow_two_pos (e : ℤ) : (0 : ℚ) < 2 ^ e := zpow_pos (by norm_num) e

/-- The exponent of the last place that the format keeps of a positive number. -/
def lastPlace (F : Format) (v : ℚ) : ℤ := F.targetExponent (Int.log 2 v + 1)

theorem lastPlace_eq (F : Format) (v : ℚ) :
    lastPlace F v = max (Int.log 2 v + 1 - F.mantissaBits) F.minExponent := rfl

theorem lastPlace_mono (F : Format) {v w : ℚ} (hv : 0 < v) (h : v ≤ w) : lastPlace F v ≤ lastPlace F w := by
  have hl := Int.log_mono_right (b := 2) hv h
  rw [lastPlace_eq, lastPlace_eq]
  omega

theorem lastPlace_double (F : Format) {v : ℚ} (hv : 0 < v) : lastPlace F (2 * v) ≤ lastPlace F v + 1 := by
  have hl : Int.log 2 (2 * v) < Int.log 2 v + 1 + 1 := by
    rw [← Int.lt_zpow_iff_log_lt (by norm_num) (by linarith)]
    have h := Int.lt_zpow_succ_log_self (b := 2) (by norm_num) v
    push_cast at h ⊢
    rw [zpow_add₀ (by norm_num) (Int.log 2 v + 1) 1, zpow_one]
    linarith
  rw [lastPlace_eq, lastPlace_eq]
  omega

def roundMagnitude (F : Format) (v : ℚ) : ℚ := nearestEven (v / 2 ^ lastPlace F v) * 2 ^ lastPlace F v

theorem roundMagnitude_nonneg (F : Format) {v : ℚ} (hv : 0 ≤ v) : 0 ≤ roundMagnitude F v := by
  have hn : 0 ≤ nearestEven (v / 2 ^ lastPlace F v) :=
    nearestEven_nonneg (div_nonneg hv (zpow_two_pos _).le)
  exact mul_nonneg (by exact_mod_cast hn) (zpow_two_pos _).le

@[simp] theorem roundMagnitude_zero (F : Format) : roundMagnitude F 0 = 0 := by
  simp [roundMagnitude, nearestEven]

theorem exists_int_mul_zpow {t e : ℤ} (k : ℤ) (h : t ≤ e) : ∃ z : ℤ, (k : ℚ) * 2 ^ e = z * 2 ^ t := by
  obtain ⟨n, rfl⟩ : ∃ n : ℕ, e = n + t := ⟨(e - t).toNat, by omega⟩
  refine ⟨k * 2 ^ n, ?_⟩
  rw [zpow_add₀ (by norm_num), zpow_natCast]
  push_cast
  ring

/-- Rounding does not go past a multiple of a place that the format keeps. -/
theorem roundMagnitude_le (F : Format) {v : ℚ} {k e : ℤ} (h : v ≤ k * 2 ^ e) (he : lastPlace F v ≤ e) :
    roundMagnitude F v ≤ k * 2 ^ e := by
  obtain ⟨z, hz⟩ := exists_int_mul_zpow k he
  rw [hz] at h ⊢
  have hq : v / 2 ^ lastPlace F v ≤ z := (div_le_iff₀ (zpow_two_pos _)).2 h
  have hn := nearestEven_le hq
  exact mul_le_mul_of_nonneg_right (by exact_mod_cast hn) (zpow_two_pos _).le

theorem le_roundMagnitude (F : Format) {v : ℚ} {k e : ℤ} (h : k * 2 ^ e ≤ v) (he : lastPlace F v ≤ e) :
    k * 2 ^ e ≤ roundMagnitude F v := by
  obtain ⟨z, hz⟩ := exists_int_mul_zpow k he
  rw [hz] at h ⊢
  have hq : (z : ℚ) ≤ v / 2 ^ lastPlace F v := (le_div_iff₀ (zpow_two_pos _)).2 h
  have hn := le_nearestEven hq
  exact mul_le_mul_of_nonneg_right (by exact_mod_cast hn) (zpow_two_pos _).le

theorem roundMagnitude_exact (F : Format) {v : ℚ} {k e : ℤ} (hv : v = k * 2 ^ e) (he : lastPlace F v ≤ e) :
    roundMagnitude F v = v := by
  conv_rhs => rw [hv]
  exact le_antisymm (roundMagnitude_le F hv.le he) (le_roundMagnitude F hv.ge he)

theorem roundMagnitude_mono (F : Format) {v w : ℚ} (hv : 0 ≤ v) (h : v ≤ w) :
    roundMagnitude F v ≤ roundMagnitude F w := by
  rcases hv.eq_or_lt with rfl | hv
  · rw [roundMagnitude_zero]
    exact roundMagnitude_nonneg F h
  rcases (lastPlace_mono F hv h).lt_or_eq with hlt | heq
  · -- the power of two at the head of `w` lies between the two numbers, and neither rounds past it
    have hm : 0 < F.mantissaBits := by simp [Format.mantissaBits]
    have hplace : lastPlace F w ≤ Int.log 2 w := by
      rw [lastPlace_eq, lastPlace_eq] at hlt
      rw [lastPlace_eq]
      omega
    have hlog : Int.log 2 v + 1 ≤ Int.log 2 w := by
      rw [lastPlace_eq, lastPlace_eq] at hlt
      omega
    have hvw : v ≤ (1 : ℤ) * 2 ^ Int.log 2 w := by
      have hs := Int.lt_zpow_succ_log_self (b := 2) (by norm_num) v
      have hp : (2 : ℚ) ^ (Int.log 2 v + 1) ≤ 2 ^ Int.log 2 w := zpow_le_zpow_right₀ (by norm_num) hlog
      push_cast at hs ⊢
      linarith
    have hww : (1 : ℤ) * 2 ^ Int.log 2 w ≤ w := by
      simpa using Int.zpow_log_le_self (b := 2) (by norm_num) (hv.trans_le h)
    exact (roundMagnitude_le F hvw (hlt.le.trans hplace)).trans (le_roundMagnitude F hww hplace)
  · unfold roundMagnitude
    rw [heq]
    have hd : v / 2 ^ lastPlace F w ≤ w / 2 ^ lastPlace F w := div_le_div_of_nonneg_right h (zpow_two_pos _).le
    exact mul_le_mul_of_nonneg_right (by exact_mod_cast nearestEven_mono hd) (zpow_two_pos _).le

/-- Rounding of any number: the magnitude is rounded, the sign stays. -/
def nearest (F : Format) (v : ℚ) : ℚ := if 0 ≤ v then roundMagnitude F v else -roundMagnitude F (-v)

theorem nearest_of_nonneg (F : Format) {v : ℚ} (h : 0 ≤ v) : nearest F v = roundMagnitude F v := if_pos h

theorem nearest_neg (F : Format) (v : ℚ) : nearest F (-v) = -nearest F v := by
  unfold nearest
  rcases lt_trichotomy v 0 with h | rfl | h
  · rw [if_pos (by linarith), if_neg (by linarith), neg_neg]
  · simp
  · rw [if_neg (by linarith), if_pos h.le, neg_neg]

theorem nearest_mono (F : Format) {v w : ℚ} (h : v ≤ w) : nearest F v ≤ nearest F w := by
  unfold nearest
  split_ifs with hv hw hw
  · exact roundMagnitude_mono F hv h
  · linarith
  · have hv' := roundMagnitude_nonneg F (v := -v) (by linarith)
    have hw' := roundMagnitude_nonneg F hw
    linarith
  · have hn := roundMagnitude_mono F (v := -w) (w := -v) (by linarith) (by linarith)
    linarith

end Bisection.Rounding
