import Mathlib
import Bisection.Number.Layout
import Bisection.Number.Reading
import Bisection.Proofs.Decimals

namespace Bisection

theorem digitsValue_toDigits (n : ℕ) : digitsValue (Nat.toDigits 10 n) = n := Nat.ofDigitChars_ten_toDigits

theorem digitsValue_append_zeros (cs : List Char) (k : ℕ) :
    digitsValue (cs ++ List.replicate k '0') = digitsValue cs * 10 ^ k := by
  change Nat.ofDigitChars 10 _ 0 = Nat.ofDigitChars 10 _ 0 * 10 ^ k
  rw [Nat.ofDigitChars_append, Nat.ofDigitChars_replicate_zero, mul_comm]

theorem digitsValue_zeros_append (cs : List Char) (k : ℕ) :
    digitsValue (List.replicate k '0' ++ cs) = digitsValue cs := by
  change Nat.ofDigitChars 10 _ 0 = Nat.ofDigitChars 10 _ 0
  rw [Nat.ofDigitChars_append, Nat.ofDigitChars_replicate_zero, mul_zero]

theorem isDigit_of_mem_toDigits {n : ℕ} : ∀ c ∈ Nat.toDigits 10 n, c.isDigit = true := fun _ =>
  Nat.isDigit_of_mem_toDigits (by norm_num) le_rfl

theorem isDigit_of_mem_zeros {k : ℕ} : ∀ c ∈ List.replicate k '0', c.isDigit = true := by
  intro c hc
  rw [List.eq_of_mem_replicate hc]
  rfl

theorem readNatural?_toDigits {n : ℕ} (h : n < UInt64.size) : readNatural? (Nat.toDigits 10 n) = some n := by
  have hdigits := isDigit_of_mem_toDigits (n := n)
  unfold readNatural?
  split
  · rename_i rest hrest
    exact absurd (hdigits '+' (by rw [hrest]; exact List.mem_cons_self)) (by decide)
  · rw [if_neg, digitsValue_toDigits, if_pos h]
    simpa [Nat.toDigits_ne_nil] using hdigits

def IsNumeric (c : Char) : Prop := c.isDigit = true ∨ c = '.' ∨ c = '-'

theorem isNumeric_toString {n : ℕ} : ∀ c ∈ (toString n).toList, IsNumeric c := by
  rw [Nat.toString_eq_ofList_toDigits, String.toList_ofList]
  exact fun c hc => .inl (isDigit_of_mem_toDigits c hc)

theorem IsNumeric.toNat_range {c : Char} (h : IsNumeric c) : 45 ≤ c.toNat ∧ c.toNat ≤ 57 := by
  rcases h with h | rfl | rfl
  · simp only [Char.isDigit, Bool.and_eq_true, decide_eq_true_eq] at h
    exact ⟨le_trans (by norm_num) (show 48 ≤ c.toNat from h.1), h.2⟩
  · decide
  · decide

namespace Decimal

variable {w f : List Char}

theorem read?_digits (hw : ∀ c ∈ w, c.isDigit = true) (hne : w ≠ []) : read? w = some ⟨digitsValue w, 0⟩ := by
  rw [read?, List.takeWhile_eq_self_iff.2 hw, List.dropWhile_eq_nil_iff.2 hw]
  simp [hne, readExponent?]

theorem read?_point (hw : ∀ c ∈ w, c.isDigit = true) (hne : w ≠ []) (hf : ∀ c ∈ f, c.isDigit = true) :
    read? (w ++ '.' :: f) = some ⟨digitsValue (w ++ f), -f.length⟩ := by
  rw [read?, List.takeWhile_append_of_pos hw, List.dropWhile_append_of_pos hw, List.takeWhile_cons_of_neg (by decide),
    List.dropWhile_cons_of_neg (by decide), List.append_nil]
  simp [hne, List.takeWhile_eq_self_iff.2 hf, List.dropWhile_eq_nil_iff.2 hf, readExponent?]

theorem positional_cases (d : Decimal) :
    (∃ w, d.positional = w ∧ w ≠ [] ∧ (∀ c ∈ w, c.isDigit = true) ∧ (digitsValue w : ℚ) = d.value) ∨
      ∃ w f, d.positional = w ++ '.' :: f ∧ w ≠ [] ∧ (∀ c ∈ w, c.isDigit = true) ∧ (∀ c ∈ f, c.isDigit = true) ∧
        digitsValue (w ++ f) = d.digits ∧ d.exponent = -f.length := by
  have hdigits := isDigit_of_mem_toDigits (n := d.digits)
  have hne : Nat.toDigits 10 d.digits ≠ [] := Nat.toDigits_ne_nil
  unfold positional
  dsimp only
  -- zero, a whole number, a point among the digits, and a point before all of them
  split_ifs with he hzero hplaces
  · refine .inl ⟨_, rfl, hne, hdigits, ?_⟩
    rw [digitsValue_toDigits, value, hzero, Nat.cast_zero, zero_mul]
  · refine .inl ⟨_, rfl, List.append_ne_nil_of_left_ne_nil hne _, ?_, ?_⟩
    · intro c hc
      exact (List.mem_append.1 hc).elim (hdigits c) (isDigit_of_mem_zeros c)
    · rw [digitsValue_append_zeros, digitsValue_toDigits, value]
      nth_rewrite 2 [← Int.toNat_of_nonneg he]
      rw [zpow_natCast]
      push_cast
      rfl
  · refine .inr ⟨_, _, rfl, ?_, fun c hc => hdigits c (List.mem_of_mem_take hc),
      fun c hc => hdigits c (List.mem_of_mem_drop hc), ?_, ?_⟩
    · rw [ne_eq, List.take_eq_nil_iff]
      exact not_or.2 ⟨by omega, hne⟩
    · rw [List.take_append_drop, digitsValue_toDigits]
    · rw [List.length_drop]
      omega
  · refine .inr ⟨['0'], _, rfl, List.cons_ne_nil _ _, isDigit_of_mem_zeros (k := 1), ?_, ?_, ?_⟩
    · intro c hc
      exact (List.mem_append.1 hc).elim (isDigit_of_mem_zeros c) (hdigits c)
    · rw [← List.append_assoc]
      exact (digitsValue_zeros_append _ (_ + 1)).trans (digitsValue_toDigits _)
    · rw [List.length_append, List.length_replicate]
      omega

theorem read?_positional (d : Decimal) : ∃ d', read? d.positional = some d' ∧ d'.value = d.value := by
  obtain ⟨w, hd, hne, hw, hvalue⟩ | ⟨w, f, hd, hne, hw, hf, hvalue, he⟩ := d.positional_cases
  · exact ⟨_, by rw [hd, read?_digits hw hne], by simp [value, hvalue]⟩
  · exact ⟨_, by rw [hd, read?_point hw hne hf], by rw [value, value, hvalue, he]⟩

theorem mem_positional {d : Decimal} {c : Char} (hc : c ∈ d.positional) : c.isDigit = true ∨ c = '.' := by
  obtain ⟨w, hd, -, hw, -⟩ | ⟨w, f, hd, -, hw, hf, -⟩ := d.positional_cases
  · exact .inl (hw c (hd ▸ hc))
  · rw [hd, List.mem_append, List.mem_cons] at hc
    rcases hc with hc | hc | hc
    · exact .inl (hw c hc)
    · exact .inr hc
    · exact .inl (hf c hc)

theorem positional_head (d : Decimal) : ∃ c cs, d.positional = c :: cs ∧ c.isDigit = true := by
  obtain ⟨w, hd, hne, hw, -⟩ | ⟨w, f, hd, hne, hw, -⟩ := d.positional_cases
  all_goals
    obtain ⟨c, cs, rfl⟩ := List.exists_cons_of_ne_nil hne
    exact ⟨c, _, hd, hw c List.mem_cons_self⟩

end Decimal

variable {x : Float}

theorem toList_numberText (hx : x.isFinite = true) : (numberText x).toList =
    if isNegative x then '-' :: (Decimal.shortest x).positional else (Decimal.shortest x).positional := by
  have hn : ¬x.isNaN = true := Bool.eq_false_iff.1 (Floating.isNaN_of_isFinite hx)
  rw [numberText, signed, if_neg hn, String.toList_ofList, if_pos hx]

theorem readMagnitude?_shortest (hx : x.isFinite = true) :
    readMagnitude? (Decimal.shortest x).positional = some x.abs := by
  obtain ⟨d, hread, hvalue⟩ := (Decimal.shortest x).read?_positional
  rw [readMagnitude?, hread]
  exact congrArg some ((Decimal.toFloat_congr hvalue).trans (Decimal.toFloat_shortest hx))

/-- A finite number is read back from its text. -/
theorem readFloat?_numberText (hx : x.isFinite = true) : readFloat? (numberText x).toList = some x := by
  have hmagnitude := readMagnitude?_shortest hx
  have hsigned := Double.eq_signed_abs (Floating.isNaN_of_isFinite hx)
  rw [toList_numberText hx]
  split
  · rename_i hneg
    rw [if_pos hneg] at hsigned
    rw [readFloat?, hmagnitude, Option.map_some, ← hsigned]
  · rename_i hpos
    rw [if_neg hpos] at hsigned
    obtain ⟨c, cs, hc, hdigit⟩ := (Decimal.shortest x).positional_head
    rw [hc] at hmagnitude ⊢
    unfold readFloat?
    split
    · rename_i hminus
      cases hminus
      exact absurd hdigit (by decide)
    · rename_i hplus
      cases hplus
      exact absurd hdigit (by decide)
    · rw [hmagnitude, ← hsigned]

theorem numberText_ne_nil (hx : x.isFinite = true) : (numberText x).toList ≠ [] := by
  obtain ⟨c, cs, hc, -⟩ := (Decimal.shortest x).positional_head
  rw [toList_numberText hx, hc]
  split <;> exact List.cons_ne_nil _ _

theorem isNumeric_numberText (hx : x.isFinite = true) : ∀ c ∈ (numberText x).toList, IsNumeric c := by
  intro c hc
  rw [toList_numberText hx] at hc
  split at hc
  · rcases List.mem_cons.1 hc with rfl | hc
    · exact .inr (.inr rfl)
    · exact (Decimal.mem_positional hc).imp_right .inl
  · exact (Decimal.mem_positional hc).imp_right .inl

end Bisection
