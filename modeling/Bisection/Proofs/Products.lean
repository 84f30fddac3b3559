import Mathlib
import Bisection.Proofs.Double

namespace Bisection.Double

open Float.Model (Format UnpackedFloat)
open Float.Model.UnpackedFloat Rounding Arithmetic Floating
open Unpacked hiding le_iff lt_iff isFinite_iff abs_value_le value_neg
open scoped Relator

variable {x y x' y' : Float}

theorem isNaN_iff_unpack : x.isNaN = true ↔ x.toModel.unpack = .notANumber := isNaN_iff

theorem isInf_iff_unpack : x.isInf = true ↔ ∃ s, x.toModel.unpack = .infinity s := by
  rw [Float.isInf, Float.Model.isInf]
  cases x.toModel.unpack <;> simp [UnpackedFloat.isInf]

theorem beq_zero_iff_unpack : (x == 0) = true ↔ ∃ s, x.toModel.unpack = .zero s := by
  have hzero : (0 : Float).toModel.unpack = .zero .positive := rfl
  change (x.toModel.unpack.compare (0 : Float).toModel.unpack == some .eq) = true ↔ _
  rw [hzero]
  cases x.toModel.unpack with
  | notANumber | zero => simp [UnpackedFloat.compare]
  | infinity s | finite s => cases s <;> simp [UnpackedFloat.compare]

theorem isFinite_iff_not : x.isFinite = true ↔ ¬x.isNaN = true ∧ ¬x.isInf = true := by
  rw [isNaN_iff_unpack, isInf_iff_unpack, Float.isFinite, Float.Model.isFinite]
  cases x.toModel.unpack <;> simp [UnpackedFloat.isFinite]

theorem unpack_mul (x y : Float) : (x * y).toModel.unpack = UnpackedFloat.unpack .binary64
    (UnpackedFloat.pack .binary64 (UnpackedFloat.mul .binary64 x.toModel.unpack y.toModel.unpack)) := rfl

theorem isNaN_mul_iff : (x * y).isNaN = true ↔ x.isNaN = true ∨ y.isNaN = true ∨
    (x == 0) = true ∧ y.isInf = true ∨ x.isInf = true ∧ (y == 0) = true := by
  by_cases h : x.isFinite = true ∧ y.isFinite = true
  · have hx := isFinite_iff_not.1 h.1
    have hy := isFinite_iff_not.1 h.2
    have hxy : ¬(x * y).isNaN = true := Bool.not_eq_true _ ▸ (value_mul h.1 h.2).1
    tauto
  · simp only [isNaN_iff_unpack, isInf_iff_unpack, beq_zero_iff_unpack, unpack_mul]
    change ¬(x.toModel.unpack.isFinite = true ∧ y.toModel.unpack.isFinite = true) at h
    revert h
    cases x.toModel.unpack <;> cases y.toModel.unpack <;>
      simp [UnpackedFloat.isFinite, UnpackedFloat.mul, UnpackedFloat.pack]

theorem mul_of_isInf (h : x.isInf = true ∨ y.isInf = true) : (x * y).isNaN = true ∨ (x * y).isInf = true := by
  rw [isInf_iff_unpack, isInf_iff_unpack] at h
  rw [isNaN_iff_unpack, isInf_iff_unpack, unpack_mul]
  rcases h with ⟨s, hs⟩ | ⟨s, hs⟩
  · rw [hs]
    cases y.toModel.unpack <;> simp [UnpackedFloat.mul, UnpackedFloat.pack]
  · rw [hs]
    cases x.toModel.unpack <;> simp [UnpackedFloat.mul, UnpackedFloat.pack]

theorem mul_of_zero (h : (x == 0) = true ∨ (y == 0) = true) : (x * y).isNaN = true ∨ (x * y == 0) = true := by
  rw [beq_zero_iff_unpack, beq_zero_iff_unpack] at h
  rw [isNaN_iff_unpack, beq_zero_iff_unpack, unpack_mul]
  rcases h with ⟨s, hs⟩ | ⟨s, hs⟩
  · rw [hs]
    cases y.toModel.unpack <;> simp [UnpackedFloat.mul, UnpackedFloat.pack]
  · rw [hs]
    cases x.toModel.unpack <;> simp [UnpackedFloat.mul, UnpackedFloat.pack]

theorem not_isInf_of_zero (h : (x == 0) = true) : ¬x.isInf = true := by
  obtain ⟨s, hs⟩ := beq_zero_iff_unpack.1 h
  rw [isInf_iff_unpack, hs]
  exact nofun

theorem not_isNaN_of_zero (h : (x == 0) = true) : ¬x.isNaN = true := by
  obtain ⟨s, hs⟩ := beq_zero_iff_unpack.1 h
  rw [isNaN_iff_unpack, hs]
  exact nofun

def plain : UnpackedFloat → UnpackedFloat
  | .zero _ => .zero .positive
  | u => u

theorem plain_unpack_pack (F : Format) (u : UnpackedFloat) :
    plain (unpack F (pack F (plain u))) = plain (unpack F (pack F u)) := by
  cases u with
  | zero s => simp [plain, pack]
  | notANumber | infinity | finite => rfl

theorem plain_mul (F : Format) (u v : UnpackedFloat) : plain (mul F (plain u) (plain v)) = plain (mul F u v) := by
  cases u <;> cases v <;> rfl

theorem value_plain (F : Format) (u : UnpackedFloat) : Unpacked.value F (plain u) = Unpacked.value F u := by
  cases u <;> rfl

theorem plain_eq_of_compare {u v : UnpackedFloat} (h : u.compare v = some .eq) : plain u = plain v := by
  cases u with
  | notANumber => cases h
  | infinity s =>
      cases v with
      | notANumber => cases h
      | infinity t =>
          match s, t with
          | .negative, .negative | .positive, .positive => rfl
          | .negative, .positive | .positive, .negative => cases h
      | zero | finite => cases s <;> cases h
  | zero s =>
      cases v with
      | notANumber => cases h
      | infinity t | finite t => cases t <;> cases h
      | zero => rfl
  | finite s m e hm =>
      cases v with
      | notANumber => cases h
      | infinity t => cases s <;> cases t <;> cases h
      | zero => cases s <;> cases h
      | finite t n f hn =>
          cases s <;> cases t <;> simp [UnpackedFloat.compare, Ordering.then_eq_eq] at h
          all_goals
            obtain ⟨rfl, rfl⟩ := h
            rfl

/-- Equal as numbers, or both undefined. -/
def Agree (x y : Float) : Prop := plain x.toModel.unpack = plain y.toModel.unpack

theorem Agree.refl (x : Float) : Agree x x := rfl

theorem plain_unpack_mul (x y : Float) : plain (x * y).toModel.unpack = plain (unpack .binary64 (pack .binary64
    (plain (UnpackedFloat.mul .binary64 (plain x.toModel.unpack) (plain y.toModel.unpack))))) := by
  rw [unpack_mul, plain_mul, plain_unpack_pack]

theorem Agree.mul (h : Agree x x') (h' : Agree y y') : Agree (x * y) (x' * y') := by
  rw [Agree, plain_unpack_mul, plain_unpack_mul, h, h']

theorem agree_of_value (hx : x.isNaN = false) (hy : y.isNaN = false) (h : value x = value y) : Agree x y := by
  apply plain_eq_of_compare
  rw [compare_eq (proper x) (proper y) (isNaN_eq_false.1 hx) (isNaN_eq_false.1 hy)]
  exact congrArg some (compare_eq_iff_eq.2 h)

theorem plain_eq_notANumber {u : UnpackedFloat} : plain u = .notANumber ↔ u = .notANumber := by
  cases u <;> simp [plain]

theorem Agree.isNaN_eq (h : Agree x y) : x.isNaN = y.isNaN := by
  rw [Bool.eq_iff_iff, isNaN_iff_unpack, isNaN_iff_unpack, ← plain_eq_notANumber, h, plain_eq_notANumber]

theorem Agree.beq (h : Agree x y) (hx : x.isNaN = false) : (x == y) = true := by
  have hv : value x = value y := by rw [value, value, ← value_plain, h, value_plain]
  have hy : y.isNaN = false := h.isNaN_eq.symm.trans hx
  exact beq_of_le_of_le (le_iff.2 ⟨hx, hy, hv.le⟩) (le_iff.2 ⟨hy, hx, hv.ge⟩)

def product (factors : List Float) : Float := factors.foldl (· * ·) 1

theorem product_concat (l : List Float) (x : Float) : product (l ++ [x]) = product l * x := by
  simp [product]

/-- A factor is infinite, or the product becomes so at some point. -/
def Overflows (factors : List Float) : Prop :=
  (∃ x ∈ factors, x.isInf = true) ∨ ∃ front ∈ factors.inits, (product front).isInf = true

instance (factors : List Float) : Decidable (Overflows factors) := inferInstanceAs (Decidable (_ ∨ _))

variable {l : List Float}

theorem not_overflows_nil : ¬Overflows [] := by
  have hone : (product []).isInf = false := rfl
  simp [Overflows, hone]

theorem overflows_concat : Overflows (l ++ [x]) ↔ Overflows l ∨ x.isInf = true ∨ (product l * x).isInf = true := by
  rw [← product_concat, Overflows, Overflows]
  simp only [List.mem_append, List.mem_singleton, List.mem_inits, List.prefix_concat_iff, or_and_right, exists_or,
    exists_eq_left]
  grind

theorem product_of_overflows (h : Overflows l) : (product l).isNaN = true ∨ (product l).isInf = true := by
  -- The last factor meets the product of all others, so this and what follows goes from the end.
  induction l using List.reverseRecOn with
  | nil => exact absurd h not_overflows_nil
  | append_singleton l x ih =>
      rw [product_concat]
      rcases overflows_concat.1 h with hl | hx | hlx
      · rcases ih hl with hn | hi
        · exact Or.inl (isNaN_mul_iff.2 (Or.inl hn))
        · exact mul_of_isInf (Or.inl hi)
      · exact mul_of_isInf (Or.inr hx)
      · exact Or.inr hlx

theorem overflows_of_isNaN (hdef : ∀ x ∈ l, x.isNaN = false) (h : (product l).isNaN = true) : Overflows l := by
  induction l using List.reverseRecOn with
  | nil => exact absurd h (by decide)
  | append_singleton l x ih =>
      rw [product_concat, isNaN_mul_iff] at h
      rw [overflows_concat]
      rcases h with hl | hx | ⟨-, hx⟩ | ⟨hl, -⟩
      · exact Or.inl (ih (fun y hy => hdef y (by simp [hy])) hl)
      · rw [hdef x (by simp)] at hx
        exact absurd hx Bool.false_ne_true
      · exact Or.inr (Or.inl hx)
      -- The product so far is infinite: it overflows as the longest of its own fronts.
      · exact Or.inl (Or.inr ⟨l, (List.mem_inits l l).2 List.prefix_rfl, hl⟩)

theorem product_of_zero (h : ∃ x ∈ l, (x == 0) = true) : (product l).isNaN = true ∨ (product l == 0) = true := by
  induction l using List.reverseRecOn with
  | nil => simp at h
  | append_singleton l x ih =>
      rw [product_concat]
      obtain ⟨y, hy, hzero⟩ := h
      rcases List.mem_append.1 hy with hl | hx
      · rcases ih ⟨y, hl, hzero⟩ with hn | hz
        · exact Or.inl (isNaN_mul_iff.2 (Or.inl hn))
        · exact mul_of_zero (Or.inl hz)
      · rw [List.mem_singleton.1 hx] at hzero
        exact mul_of_zero (Or.inr hzero)

/-- A product with a factor zero is zero as long as nothing overflows, and undefined otherwise. -/
theorem product_cases (hdef : ∀ x ∈ l, x.isNaN = false) (hzero : ∃ x ∈ l, (x == 0) = true) :
    ((product l == 0) = true ↔ ¬Overflows l) ∧ ((product l).isNaN = true ↔ Overflows l) := by
  have hcases := product_of_zero hzero
  by_cases h : Overflows l
  -- Past an overflow the product is infinite or undefined, and by its factor zero it is zero or undefined.
  · have hn : (product l).isNaN = true := by
      rcases product_of_overflows h with hn | hi
      · exact hn
      · exact hcases.resolve_right fun hz => not_isInf_of_zero hz hi
    exact ⟨iff_of_false (fun hz => not_isNaN_of_zero hz hn) (not_not_intro h), iff_of_true hn h⟩
  · have hn : ¬(product l).isNaN = true := fun hn => h (overflows_of_isNaN hdef hn)
    exact ⟨iff_of_true (hcases.resolve_left hn) h, iff_of_false hn h⟩

theorem clamp_nearest_zero : clamp .binary64 (nearest .binary64 0) = 0 := by
  rw [nearest_of_nonneg _ le_rfl, roundMagnitude_zero]
  apply clamp_of_abs_le
  rw [abs_zero]
  exact (top_pos _).le

theorem two_pow_lt_top {n : ℕ} (h : n ≤ 1023) : (2 : ℚ) ^ n < top .binary64 := by
  rw [top_eq]
  exact pow_lt_pow_right₀ one_lt_two (by omega)

theorem lastPlace_two_pow_le (n : ℕ) : lastPlace .binary64 (2 ^ n) ≤ n := by
  have hlog : Int.log 2 ((2 : ℚ) ^ n) = n := by
    rw [← zpow_natCast]
    exact Int.log_zpow (R := ℚ) one_lt_two n
  have hbits : Format.binary64.mantissaBits = 53 := rfl
  have hmin : Format.binary64.minExponent = -1074 := rfl
  rw [lastPlace_eq, hlog, hbits, hmin]
  omega

theorem clamp_nearest_two_pow {n : ℕ} (h : n ≤ 1023) : clamp .binary64 (nearest .binary64 (2 ^ n)) = 2 ^ n := by
  have hpos : (0 : ℚ) < 2 ^ n := by positivity
  have hexact : roundMagnitude .binary64 (2 ^ n) = 2 ^ n :=
    roundMagnitude_exact _ (k := 1) (e := n) (by simp) (lastPlace_two_pow_le n)
  rw [nearest_of_nonneg _ hpos.le, hexact]
  apply clamp_of_abs_le
  rw [abs_of_pos hpos]
  exact (two_pow_lt_top h).le

/-- A number in range, neither negative nor larger than a power of two. -/
structure Bounded (n : ℕ) (x : Float) : Prop where
  isFinite : x.isFinite = true
  nonneg : 0 ≤ value x
  le : value x ≤ 2 ^ n

theorem bounded_of_value {n : ℕ} (hn : n ≤ 1023) (hx : x.isNaN = false) (h : 0 ≤ value x) (h' : value x ≤ 2 ^ n) :
    Bounded n x := by
  refine ⟨isFinite_iff.2 ⟨hx, ?_⟩, h, h'⟩
  rw [abs_of_nonneg h]
  exact h'.trans_lt (two_pow_lt_top hn)

theorem bounded_one : Bounded 0 1 := by
  have hone : value 1 = 1 := by
    change ((4503599627370496 : ℕ) : ℚ) * 2 ^ (-52 : ℤ) = 1
    norm_num
  refine bounded_of_value (by decide) rfl ?_ ?_
  · rw [hone]
    exact zero_le_one
  · rw [hone, pow_zero]

theorem Bounded.mul {m n : ℕ} (hx : Bounded m x) (hy : Bounded n y) (h : m + n ≤ 1023) : Bounded (m + n) (x * y) := by
  obtain ⟨hn, hv⟩ := value_mul hx.isFinite hy.isFinite
  apply bounded_of_value h hn
  · rw [hv, ← clamp_nearest_zero]
    exact clamp_mono _ (nearest_mono _ (mul_nonneg hx.nonneg hy.nonneg))
  · rw [hv, ← clamp_nearest_two_pow h, pow_add]
    exact clamp_mono _ (nearest_mono _ (mul_le_mul hx.le hy.le hy.nonneg (by positivity)))

theorem bounded_product {m : ℕ} (h : ∀ x ∈ l, Bounded m x) (hm : l.length * m ≤ 1023) :
    Bounded (l.length * m) (product l) ∧ ¬Overflows l := by
  induction l using List.reverseRecOn with
  | nil =>
      rw [List.length_nil, zero_mul]
      exact ⟨bounded_one, not_overflows_nil⟩
  | append_singleton l x ih =>
      rw [List.length_append, List.length_singleton, add_mul, one_mul] at hm ⊢
      obtain ⟨hl, hover⟩ := ih (fun y hy => h y (List.mem_append_left _ hy)) (by omega)
      have hx := h x (by simp)
      have hlx := hl.mul hx hm
      rw [product_concat, overflows_concat]
      refine ⟨hlx, ?_⟩
      rintro (hc | hc | hc)
      · exact hover hc
      · exact (isFinite_iff_not.1 hx.isFinite).2 hc
      · exact (isFinite_iff_not.1 hlx.isFinite).2 hc

theorem product_agree {l' : List Float} (h : List.Forall₂ Agree l l') : Agree (product l) (product l') := by
  have hmul : (Agree ⇒ Agree ⇒ Agree) (· * ·) (· * ·) := fun _ _ hv _ _ hx => hv.mul hx
  exact List.rel_foldl hmul (Agree.refl 1) h

theorem product_map_agree {D : ℕ} {f g : ℕ → Float} (h : ∀ d < D, Agree (f d) (g d)) :
    Agree (product ((List.range D).map f)) (product ((List.range D).map g)) := by
  apply product_agree
  rw [List.forall₂_map_left_iff, List.forall₂_map_right_iff, List.forall₂_same]
  intro d hd
  exact h d (List.mem_range.1 hd)

end Bisection.Double
