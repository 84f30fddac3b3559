import Mathlib
import Bisection.Proofs.Unpacked

namespace Bisection.Arithmetic

open Float.Model (Format UnpackedFloat totalExponent)
open Float.Model.UnpackedFloat Rounding Unpacked

variable {F : Format}

/-- A mantissa with its residual bits tells of `q` what rounding needs: the whole part, whether the rest reaches
one half, and whether it is neither nothing nor one half. -/
structure Shows (em : ExtendedMantissa) (q : ℚ) : Prop where
  whole : em.mantissa ≤ q
  next : q < em.mantissa + 1
  half : em.roundBit = true ↔ em.mantissa + 1 / 2 ≤ q
  between : em.stickyBit = true ↔ q ≠ em.mantissa ∧ q ≠ em.mantissa + 1 / 2

theorem shows_exact (m : ℕ) : Shows (.ofMantissaAndAccuracy m .exact) m := by
  constructor <;> simp [ExtendedMantissa.ofMantissaAndAccuracy]

theorem shows_fraction (m : ℕ) {num den : ℕ} (h : num < den) :
    Shows (.ofMantissaAndAccuracy m (accuracyOfFraction num den)) (m + num / den) := by
  have hd : (0 : ℚ) < den := by exact_mod_cast Nat.zero_lt_of_lt h
  by_cases hz : num = 0
  · subst hz
    simpa [accuracyOfFraction] using shows_exact m
  have hpos : (0 : ℚ) < num / den := div_pos (by exact_mod_cast Nat.pos_of_ne_zero hz) hd
  have hlt : (num : ℚ) / den < 1 := (div_lt_one hd).2 (by exact_mod_cast h)
  rw [accuracyOfFraction, if_neg hz]
  rcases lt_trichotomy (2 * num) den with hc | hc | hc
  · have hh : (num : ℚ) / den < 1 / 2 := by
      rw [div_lt_iff₀ hd]
      have : (2 : ℚ) * num < den := by exact_mod_cast hc
      linarith
    rw [compare_lt_iff_lt.2 hc]
    constructor <;> simp [ExtendedMantissa.ofMantissaAndAccuracy] <;> grind
  · have hh : (num : ℚ) / den = 1 / 2 := by
      rw [div_eq_iff hd.ne']
      have : (2 : ℚ) * num = den := by exact_mod_cast hc
      linarith
    rw [compare_eq_iff_eq.2 hc, hh]
    constructor <;> norm_num [ExtendedMantissa.ofMantissaAndAccuracy]
  · have hh : 1 / 2 < (num : ℚ) / den := by
      rw [lt_div_iff₀ hd]
      have : (den : ℚ) < 2 * num := by exact_mod_cast hc
      linarith
    rw [compare_gt_iff_gt.2 hc]
    constructor <;> simp [ExtendedMantissa.ofMantissaAndAccuracy] <;> grind

theorem Shows.shiftRightOne {em : ExtendedMantissa} {q : ℚ} (h : Shows em q) : Shows em.shiftRightOne (q / 2) := by
  obtain ⟨hw, hn, hh, hb⟩ := h
  have hany : (em.roundBit || em.stickyBit) = true ↔ q ≠ em.mantissa := by
    rw [Bool.or_eq_true, hh, hb]
    grind
  obtain ⟨k, hk | hk⟩ := Nat.even_or_odd' em.mantissa
  · have hd : em.mantissa / 2 = k := by omega
    have hr : em.mantissa % 2 = 0 := by omega
    rw [hk] at hw hn hany
    push_cast at hw hn hany
    constructor <;> simp only [ExtendedMantissa.shiftRightOne, hd, hr, hany] <;> grind
  · have hd : em.mantissa / 2 = k := by omega
    have hr : em.mantissa % 2 = 1 := by omega
    rw [hk] at hw hn hany
    push_cast at hw hn hany
    constructor <;> simp only [ExtendedMantissa.shiftRightOne, hd, hr, hany] <;> grind

theorem Shows.shiftRight {em : ExtendedMantissa} {q : ℚ} (h : Shows em q) (n : ℕ) :
    Shows (em >>> n) (q / 2 ^ n) := by
  induction n with
  | zero =>
      rw [pow_zero, div_one]
      exact h
  | succ n ih =>
      rw [pow_succ, ← div_div]
      exact ih.shiftRightOne

theorem Shows.roundedMantissa {em : ExtendedMantissa} {q : ℚ} (h : Shows em q) :
    (em.roundedMantissa : ℤ) = nearestEven q := by
  obtain ⟨hw, hn, hh, hb⟩ := h
  have hf : ⌊q⌋ = em.mantissa := Int.floor_eq_iff.2 ⟨by exact_mod_cast hw, by exact_mod_cast hn⟩
  rw [nearestEven, hf]
  obtain ⟨m, r, s⟩ := em
  cases r <;> cases s <;>
    simp [ExtendedMantissa.roundedMantissa, ExtendedMantissa.accuracy, Accuracy.roundToNearestEven] at * <;>
    grind

theorem targetExponent_eq {m : ℕ} {e : ℤ} {q : ℚ} (hq : 0 < q) (hw : m ≤ q) (hn : q < m + 1)
    (he : e ≤ lastPlace F (q * 2 ^ e)) : F.targetExponent (totalExponent m e) = lastPlace F (q * 2 ^ e) := by
  rcases Nat.eq_zero_or_pos m with rfl | hm
  · have hlog : Int.log 2 (q * 2 ^ e) < e := by
      rw [← Int.lt_zpow_iff_log_lt (by norm_num) (mul_pos hq (zpow_two_pos e))]
      push_cast at hn ⊢
      exact mul_lt_of_lt_one_left (zpow_two_pos e) (by linarith)
    have hbits := mantissaBits_eq F
    rw [lastPlace_eq] at he ⊢
    rw [Format.targetExponent, totalExponent, Nat.log2_zero]
    push_cast
    omega
  · rw [lastPlace, log_scaled hm hw hn, totalExponent]
    congr 1
    omega

theorem scaled_lt_two_pow (F : Format) (v : ℚ) : v / 2 ^ lastPlace F v < 2 ^ F.mantissaBits := by
  rw [div_lt_iff₀ (zpow_two_pos _), ← zpow_natCast, ← zpow_add₀ (by norm_num)]
  have hl := Int.lt_zpow_succ_log_self (b := 2) (by norm_num) v
  have hp : (2 : ℚ) ^ (Int.log 2 v + 1) ≤ 2 ^ ((F.mantissaBits : ℤ) + lastPlace F v) :=
    zpow_le_zpow_right₀ (by norm_num) (by rw [lastPlace_eq]; omega)
  exact lt_of_lt_of_le (by exact_mod_cast hl) hp

theorem two_pow_le_scaled {v : ℚ} (hv : 0 < v) (h : lastPlace F v ≠ F.minExponent) :
    2 ^ F.mantissaBitsWithoutImplicit ≤ v / 2 ^ lastPlace F v := by
  rw [le_div_iff₀ (zpow_two_pos _), ← zpow_natCast, ← zpow_add₀ (by norm_num)]
  have hbits := mantissaBits_eq F
  have hl := Int.zpow_log_le_self (b := 2) (by norm_num) hv
  have hp : (F.mantissaBitsWithoutImplicit : ℤ) + lastPlace F v = Int.log 2 v := by
    rw [lastPlace_eq] at h ⊢
    omega
  rw [hp]
  exact_mod_cast hl

theorem shift_rounded {k : ℕ} {t : ℤ} (hk : k ≤ 2 ^ F.mantissaBits) (ht : F.minExponent ≤ t) :
    k < 2 ^ F.mantissaBits ∧ shiftToTargetExponent F k t .exact = (.ofMantissaAndAccuracy k .exact, t) ∨
      k = 2 ^ F.mantissaBits ∧ shiftToTargetExponent F k t .exact =
        (.ofMantissaAndAccuracy (2 ^ F.mantissaBitsWithoutImplicit) .exact, t + 1) := by
  have hbits := mantissaBits_eq F
  rcases hk.lt_or_eq with hlt | heq
  · have hlog : k.log2 < F.mantissaBits := by
      rcases Nat.eq_zero_or_pos k with rfl | hpos
      · simp [hbits]
      · exact (Nat.log2_lt hpos.ne').2 hlt
    have hz : (F.targetExponent (totalExponent k t) - t).toNat = 0 := by
      rw [Format.targetExponent, totalExponent]
      omega
    refine Or.inl ⟨hlt, ?_⟩
    rw [shiftToTargetExponent, shiftToExponent, hz]
    exact Prod.ext rfl (Int.add_zero t)
  · have hone : (F.targetExponent (totalExponent k t) - t).toNat = 1 := by
      rw [heq, Format.targetExponent, totalExponent, Nat.log2_two_pow]
      omega
    refine Or.inr ⟨heq, ?_⟩
    rw [shiftToTargetExponent, shiftToExponent, hone, heq]
    refine Prod.ext ?_ rfl
    change ExtendedMantissa.shiftRightOne (.ofMantissaAndAccuracy (2 ^ F.mantissaBits) .exact) = _
    simp [ExtendedMantissa.shiftRightOne, ExtendedMantissa.ofMantissaAndAccuracy, hbits, pow_succ]

@[simp] theorem mantissa_ofMantissaAndAccuracy (m : ℕ) (acc : Accuracy) :
    (ExtendedMantissa.ofMantissaAndAccuracy m acc).mantissa = m := by
  cases acc with
  | exact => rfl
  | inexact o => cases o <;> rfl

theorem shift_first {m : ℕ} {e : ℤ} {acc : Accuracy} {q : ℚ} (hq : 0 < q)
    (h : Shows (.ofMantissaAndAccuracy m acc) q) (he : e ≤ lastPlace F (q * 2 ^ e)) :
    (shiftToTargetExponent F m e acc).2 = lastPlace F (q * 2 ^ e) ∧
      ((shiftToTargetExponent F m e acc).1.roundedMantissa : ℤ) =
        nearestEven (q * 2 ^ e / 2 ^ lastPlace F (q * 2 ^ e)) := by
  have hw := h.whole
  have hn := h.next
  rw [mantissa_ofMantissaAndAccuracy] at hw hn
  have ht := targetExponent_eq hq hw hn he
  obtain ⟨n, hn'⟩ : ∃ n : ℕ, lastPlace F (q * 2 ^ e) = e + n := ⟨(lastPlace F (q * 2 ^ e) - e).toNat, by omega⟩
  have hshift : (lastPlace F (q * 2 ^ e) - e).toNat = n := by omega
  have hscale : q * 2 ^ e / 2 ^ lastPlace F (q * 2 ^ e) = q / 2 ^ n := by
    rw [hn', zpow_add₀ (by norm_num), zpow_natCast]
    have := (zpow_two_pos e).ne'
    field_simp
  rw [shiftToTargetExponent, shiftToExponent, ht, hshift, hscale]
  exact ⟨hn'.symm, (h.shiftRight n).roundedMantissa⟩

theorem roundWithAccuracy_eq (s : Sign) {m : ℕ} {e : ℤ} {acc : Accuracy} {em : ExtendedMantissa} {t : ℤ}
    (h : shiftToTargetExponent F m e acc = (em, t)) {k : ℕ} {f : ℤ}
    (h' : shiftToTargetExponent F em.roundedMantissa t .exact = (.ofMantissaAndAccuracy k .exact, f)) :
    roundWithAccuracy F s m e acc = if hk : k = 0 then .zero s else .finite s k f (Nat.pos_of_ne_zero hk) := by
  rw [roundWithAccuracy, h]
  dsimp only
  rw [h']
  simp only [mantissa_ofMantissaAndAccuracy]

/-- Rounding from a mantissa and its accuracy is rounding of the number that they show. -/
theorem roundWithAccuracy_spec (s : Sign) {m : ℕ} {e : ℤ} {acc : Accuracy} {q : ℚ} (hq : 0 < q)
    (h : Shows (.ofMantissaAndAccuracy m acc) q) (he : e ≤ lastPlace F (q * 2 ^ e)) :
    Canonical F (roundWithAccuracy F s m e acc) ∧ roundWithAccuracy F s m e acc ≠ .notANumber ∧
      value F (roundWithAccuracy F s m e acc) = withSign s (roundMagnitude F (q * 2 ^ e)) := by
  have hv : 0 < q * 2 ^ e := mul_pos hq (zpow_two_pos e)
  obtain ⟨ht, hk⟩ := shift_first hq h he
  rcases hfirst : shiftToTargetExponent F m e acc with ⟨em, t⟩
  rw [hfirst] at ht hk
  dsimp only at ht hk
  have hmin : F.minExponent ≤ t := by rw [ht, lastPlace_eq]; exact le_max_right _ _
  have hround : roundMagnitude F (q * 2 ^ e) = em.roundedMantissa * 2 ^ t := by
    rw [roundMagnitude, ← hk, ht]
    rfl
  have hle : em.roundedMantissa ≤ 2 ^ F.mantissaBits := by
    have hs := nearestEven_le (z := 2 ^ F.mantissaBits) (by exact_mod_cast (scaled_lt_two_pow F (q * 2 ^ e)).le)
    rw [← hk] at hs
    exact_mod_cast hs
  have hge : 2 ^ F.mantissaBitsWithoutImplicit ≤ em.roundedMantissa ∨ t = F.minExponent := by
    by_cases hm : t = F.minExponent
    · exact Or.inr hm
    · have hs := le_nearestEven (z := 2 ^ F.mantissaBitsWithoutImplicit)
        (by exact_mod_cast two_pow_le_scaled hv (ht ▸ hm))
      rw [← hk] at hs
      exact Or.inl (by exact_mod_cast hs)
  rcases shift_rounded hle hmin with ⟨hlt, hsecond⟩ | ⟨heq, hsecond⟩
  · rw [roundWithAccuracy_eq s hfirst hsecond, hround]
    split_ifs with hz
    · rw [hz]
      exact ⟨trivial, by simp, by cases s <;> simp [value, withSign]⟩
    · exact ⟨canonical_of_bounds hlt hmin hge, by simp, rfl⟩
  · have hpos : 2 ^ F.mantissaBitsWithoutImplicit ≠ 0 := by positivity
    have hlt : 2 ^ F.mantissaBitsWithoutImplicit < 2 ^ F.mantissaBits :=
      Nat.pow_lt_pow_right (by norm_num) (by rw [mantissaBits_eq]; omega)
    rw [roundWithAccuracy_eq s hfirst hsecond, hround, dif_neg hpos, heq]
    refine ⟨canonical_of_bounds hlt (by omega) (Or.inl le_rfl), by simp, ?_⟩
    rw [value, mantissaBits_eq, zpow_add₀ (by norm_num)]
    congr 1
    push_cast
    ring

/-- What an operation with the exact result `v` has to deliver before it is packed. -/
structure Rounds (F : Format) (u : UnpackedFloat) (v : ℚ) : Prop where
  canonical : Canonical F u
  ne_notANumber : u ≠ .notANumber
  value_eq : value F u = nearest F v

theorem Rounds.packed (hF : 2 ≤ F.exponentBits) {u : UnpackedFloat} {v : ℚ} (h : Rounds F u v) :
    unpack F (pack F u) ≠ .notANumber ∧ value F (unpack F (pack F u)) = clamp F (nearest F v) :=
  ⟨unpack_pack_ne_notANumber hF h.canonical h.ne_notANumber, by rw [value_unpack_pack hF h.canonical, h.value_eq]⟩

theorem nearest_withSign (s : Sign) {v : ℚ} (hv : 0 ≤ v) :
    nearest F (withSign s v) = withSign s (roundMagnitude F v) := by
  cases s with
  | positive => exact nearest_of_nonneg F hv
  | negative => rw [withSign, nearest_neg, nearest_of_nonneg F hv, withSign]

theorem rounds_zero (s : Sign) : Rounds F (.zero s) 0 :=
  ⟨trivial, nofun, by rw [value, nearest_of_nonneg F le_rfl, roundMagnitude_zero]⟩

theorem rounds_finite {s : Sign} {m : ℕ} {e : ℤ} {hm : 0 < m} (hc : Canonical F (.finite s m e hm)) :
    Rounds F (.finite s m e hm) (withSign s (m * 2 ^ e)) := by
  refine ⟨hc, nofun, ?_⟩
  have hlast : lastPlace F ((m : ℚ) * 2 ^ e) ≤ e := by rw [lastPlace_finite hm]; exact hc.le
  rw [value, nearest_withSign s (scaled_pos hm e).le, roundMagnitude_exact F (k := m) (by push_cast; rfl) hlast]

theorem decreaseExponent_scaled (m : ℕ) (e t : ℤ) :
    ((decreaseExponent m e t).1 : ℚ) * 2 ^ (decreaseExponent m e t).2 = m * 2 ^ e := by
  obtain ⟨n, hn⟩ : ∃ n, n = (e - t).toNat := ⟨_, rfl⟩
  rw [decreaseExponent, ← hn, Nat.shiftLeft_eq, zpow_sub₀ (by norm_num), zpow_natCast]
  push_cast
  field_simp

theorem rounds_round (s : Sign) {m : ℕ} (hm : 0 < m) (e : ℤ) :
    Rounds F (UnpackedFloat.round F s m e) (withSign s (m * 2 ^ e)) := by
  have hv := decreaseExponent_scaled m e (F.targetExponent (totalExponent m e))
  have hlast := lastPlace_finite (F := F) hm e
  rw [← hlast] at hv
  have hpos : (0 : ℚ) < (decreaseExponent m e (lastPlace F (m * 2 ^ e))).1 := by
    rw [decreaseExponent, Nat.shiftLeft_eq]
    positivity
  have hle : (decreaseExponent m e (lastPlace F (m * 2 ^ e))).2 ≤ lastPlace F (m * 2 ^ e) := by
    rw [decreaseExponent]
    omega
  have h := roundWithAccuracy_spec (F := F) s hpos (shows_exact _) (by rw [hv]; exact hle)
  rw [hv, ← nearest_withSign s (scaled_pos hm e).le] at h
  rw [UnpackedFloat.round, ← hlast]
  exact ⟨h.1, h.2.1, h.2.2⟩

theorem rounds_normalize (M e : ℤ) (s : Sign) : Rounds F (UnpackedFloat.normalize F M e s) (M * 2 ^ e) := by
  rw [UnpackedFloat.normalize]
  rcases lt_trichotomy M 0 with h | rfl | h
  · rw [compare_lt_iff_lt.2 h]
    obtain ⟨n, rfl⟩ : ∃ n : ℕ, M = -n := ⟨M.natAbs, by omega⟩
    have hr := rounds_round (F := F) .negative (m := n) (by omega) e
    rw [withSign] at hr
    simpa using hr
  · simpa using rounds_zero s
  · rw [compare_gt_iff_gt.2 h]
    obtain ⟨n, rfl⟩ : ∃ n : ℕ, M = n := ⟨M.natAbs, by omega⟩
    exact rounds_round .positive (by omega) e

theorem cast_apply (s : Sign) (n : ℕ) : ((s.apply n : ℤ) : ℚ) = withSign s n := by
  cases s <;> simp [Sign.apply, withSign]

theorem withSign_mul (s : Sign) (v w : ℚ) : withSign s (v * w) = withSign s v * w := by
  cases s <;> simp [withSign]

theorem rounds_add {a b : UnpackedFloat} (ha : Canonical F a) (hb : Canonical F b) (hfa : a.isFinite = true)
    (hfb : b.isFinite = true) : Rounds F (add F a b) (value F a + value F b) := by
  cases a with
  | notANumber | infinity => exact absurd hfa (by simp [UnpackedFloat.isFinite])
  | zero s =>
      cases b with
      | notANumber | infinity => exact absurd hfb (by simp [UnpackedFloat.isFinite])
      | zero t => cases s <;> cases t <;> simpa [add, value] using rounds_zero _
      | finite t n f hn => simpa [add, value] using rounds_finite hb
  | finite s m e hm =>
      cases b with
      | notANumber | infinity => exact absurd hfb (by simp [UnpackedFloat.isFinite])
      | zero t => simpa [add, value] using rounds_finite ha
      | finite t n f hn =>
          have hm' := decreaseExponent_scaled m e (min e f)
          have hn' := decreaseExponent_scaled n f (min e f)
          have he : (decreaseExponent m e (min e f)).2 = min e f := by rw [decreaseExponent]; omega
          have hf : (decreaseExponent n f (min e f)).2 = min e f := by rw [decreaseExponent]; omega
          rw [he] at hm'
          rw [hf] at hn'
          rw [value, value, ← hm', ← hn', withSign_mul, withSign_mul, ← add_mul, ← cast_apply, ← cast_apply]
          exact_mod_cast rounds_normalize _ _ _

theorem apply_neg (s : Sign) (z : ℤ) : (-s).apply z = -s.apply z := by
  cases s with
  | negative => exact (neg_neg z).symm
  | positive => rfl

theorem sub_eq (a b : UnpackedFloat) : sub F a b = add F a b.neg := by
  cases a <;> cases b <;> grind [sub, add, neg, apply_neg]

/-- A product is exact before it is rounded; its last place must lie low enough for rounding to see all of it. -/
theorem rounds_mul {s t : Sign} {m n : ℕ} {e f : ℤ} (hm : 0 < m) (hn : 0 < n)
    (he : e + f ≤ lastPlace F ((m : ℚ) * 2 ^ e * (n * 2 ^ f))) :
    Rounds F (mul F (.finite s m e hm) (.finite t n f hn)) (withSign (s * t) (m * 2 ^ e * (n * 2 ^ f))) := by
  have hv : ((m * n : ℕ) : ℚ) * 2 ^ (e + f) = m * 2 ^ e * (n * 2 ^ f) := by
    rw [zpow_add₀ (by norm_num)]
    push_cast
    ring
  have hpos : (0 : ℚ) < (m * n : ℕ) := by exact_mod_cast Nat.mul_pos hm hn
  have h := roundWithAccuracy_spec (F := F) (s * t) hpos (shows_exact _) (by rw [hv]; exact he)
  rw [hv, ← nearest_withSign _ (mul_pos (scaled_pos hm e) (scaled_pos hn f)).le] at h
  exact ⟨h.1, h.2.1, h.2.2⟩

theorem withSign_mul_withSign (s t : Sign) (v w : ℚ) : withSign (s * t) (v * w) = withSign s v * withSign t w := by
  cases s <;> cases t <;> simp only [withSign, neg_mul, mul_neg, neg_neg]

theorem add_le_lastPlace (hF : F.minExponent ≤ 0) {s t : Sign} {m n : ℕ} {e f : ℤ} {hm : 0 < m} {hn : 0 < n}
    (ha : Canonical F (.finite s m e hm)) (hb : Canonical F (.finite t n f hn)) :
    e + f ≤ lastPlace F ((m : ℚ) * 2 ^ e * (n * 2 ^ f)) := by
  obtain ⟨-, hea, hfa⟩ := canonical_iff.1 ha
  obtain ⟨-, heb, hfb⟩ := canonical_iff.1 hb
  have hbits := mantissaBits_eq F
  have hv : (m : ℚ) * 2 ^ e * (n * 2 ^ f) = (m * n : ℕ) * 2 ^ (e + f) := by
    rw [zpow_add₀ (by norm_num)]
    push_cast
    ring
  have hm' : m.log2 ≤ (m * n).log2 := by
    simpa only [Nat.log2_eq_log_two] using Nat.log_mono_right (Nat.le_mul_of_pos_right m hn)
  have hn' : n.log2 ≤ (m * n).log2 := by
    simpa only [Nat.log2_eq_log_two] using Nat.log_mono_right (Nat.le_mul_of_pos_left n hm)
  rw [hv, lastPlace_finite (Nat.mul_pos hm hn), Format.targetExponent, totalExponent]
  omega

theorem rounds_mul_finite (hF : F.minExponent ≤ 0) {a b : UnpackedFloat} (ha : Canonical F a) (hb : Canonical F b)
    (hfa : a.isFinite = true) (hfb : b.isFinite = true) : Rounds F (mul F a b) (value F a * value F b) := by
  cases a with
  | notANumber | infinity => exact absurd hfa (by simp [UnpackedFloat.isFinite])
  | zero s =>
      cases b with
      | notANumber | infinity => exact absurd hfb (by simp [UnpackedFloat.isFinite])
      | zero t | finite t => simpa [mul, value] using rounds_zero _
  | finite s m e hm =>
      cases b with
      | notANumber | infinity => exact absurd hfb (by simp [UnpackedFloat.isFinite])
      | zero t => simpa [mul, value] using rounds_zero _
      | finite t n f hn =>
          rw [value, value, ← withSign_mul_withSign]
          exact rounds_mul hm hn (add_le_lastPlace hF ha hb)

theorem totalExponent_sub_le {m n : ℕ} (e f : ℤ) (hm : 0 < m) (hn : 0 < n) :
    totalExponent m e - totalExponent n f ≤ Int.log 2 ((m : ℚ) * 2 ^ e / (n * 2 ^ f)) + 1 := by
  have hlo : (2 : ℚ) ^ ((m.log2 : ℤ) + e) ≤ m * 2 ^ e := by
    rw [zpow_add₀ (by norm_num)]
    exact mul_le_mul_of_nonneg_right (zpow_log2_le hm) (zpow_two_pos e).le
  have hup : (n : ℚ) * 2 ^ f ≤ 2 ^ ((n.log2 : ℤ) + 1 + f) := by
    rw [zpow_add₀ (by norm_num) _ f]
    exact mul_le_mul_of_nonneg_right ((lt_add_one _).le.trans (lt_zpow_log2 n)) (zpow_two_pos f).le
  have hq : (2 : ℕ) ^ ((m.log2 : ℤ) + e - (n.log2 + 1 + f)) ≤ (m : ℚ) * 2 ^ e / (n * 2 ^ f) := by
    rw [le_div_iff₀ (scaled_pos hn f)]
    push_cast
    calc (2 : ℚ) ^ ((m.log2 : ℤ) + e - (n.log2 + 1 + f)) * (n * 2 ^ f)
        ≤ 2 ^ ((m.log2 : ℤ) + e - (n.log2 + 1 + f)) * 2 ^ ((n.log2 : ℤ) + 1 + f) :=
          mul_le_mul_of_nonneg_left hup (zpow_two_pos _).le
      _ = 2 ^ ((m.log2 : ℤ) + e) := by rw [← zpow_add₀ (by norm_num), sub_add_cancel]
      _ ≤ m * 2 ^ e := hlo
  rw [Int.zpow_le_iff_le_log (by norm_num) (div_pos (scaled_pos hm e) (scaled_pos hn f))] at hq
  rw [totalExponent, totalExponent]
  omega

theorem rounds_div {s t : Sign} {m n : ℕ} {e f : ℤ} (hm : 0 < m) (hn : 0 < n) :
    Rounds F (div F (.finite s m e hm) (.finite t n f hn)) (withSign (s / t) (m * 2 ^ e / (n * 2 ^ f))) := by
  have hnq : (0 : ℚ) < n := by exact_mod_cast hn
  have hvpos : 0 < (m : ℚ) * 2 ^ e / (n * 2 ^ f) := div_pos (scaled_pos hm e) (scaled_pos hn f)
  set g := min (e - f) (F.targetExponent (totalExponent m e - totalExponent n f)) with hg
  set M := m <<< (e - f - g).toNat with hM
  have hsum : ((M / n : ℕ) : ℚ) + (M % n : ℕ) / n = M / n := by
    have h : ((M % n : ℕ) : ℚ) + n * (M / n : ℕ) = M := by exact_mod_cast Nat.mod_add_div M n
    field_simp
    linarith
  have hv : ((M : ℚ) / n) * 2 ^ g = m * 2 ^ e / (n * 2 ^ f) := by
    have hp : (2 : ℚ) ^ (e - f - g).toNat * 2 ^ g = 2 ^ e / 2 ^ f := by
      rw [← zpow_natCast, ← zpow_add₀ (by norm_num), ← zpow_sub₀ (by norm_num)]
      congr 1
      omega
    rw [hM, Nat.shiftLeft_eq]
    push_cast
    calc (m : ℚ) * 2 ^ (e - f - g).toNat / n * 2 ^ g = m / n * (2 ^ (e - f - g).toNat * 2 ^ g) := by ring
      _ = m * 2 ^ e / (n * 2 ^ f) := by rw [hp]; ring
  have hle : g ≤ lastPlace F (m * 2 ^ e / (n * 2 ^ f)) := by
    have h := totalExponent_sub_le e f hm hn
    rw [lastPlace, Format.targetExponent]
    rw [Format.targetExponent] at hg
    omega
  have hpos : 0 < (M : ℚ) / n := by
    by_contra hc
    have := mul_nonpos_of_nonpos_of_nonneg (not_lt.1 hc) (zpow_two_pos g).le
    linarith
  have hshows := shows_fraction (M / n) (Nat.mod_lt M hn)
  rw [hsum] at hshows
  have h := roundWithAccuracy_spec (F := F) (s / t) hpos hshows (by rw [hv]; exact hle)
  rw [hv, ← nearest_withSign _ hvpos.le] at h
  exact ⟨h.1, h.2.1, h.2.2⟩

end Bisection.Arithmetic
