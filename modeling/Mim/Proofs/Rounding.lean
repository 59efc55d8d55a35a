import Mathlib.Algebra.Order.Field.Power
import Mathlib.Algebra.Order.Ring.Rat
import Mathlib.Tactic.FieldSimp
import Mathlib.Tactic.Linarith
import Mathlib.Tactic.Positivity
import Mathlib.Tactic.Ring
import Mim.Decimal

/-! # Rounding

The nearest binary64 number depends on the quotient and not on how it is written, a
number is nearest to itself, and the limits that keep huge powers from being computed
are only hit where the answer is plain.
-/

namespace Mim.Binary64

variable {num den num' den' : Nat} {s s' : Int} {v : ℚ}

/-- A comparison of quotients without a negative power. -/
theorem scaled_lt (a b : Nat) (z : Int) :
    a * 2 ^ (-z).toNat < b * 2 ^ z.toNat ↔ (a : ℚ) < b * 2 ^ z := by
  obtain ⟨n, rfl | rfl⟩ := z.eq_nat_or_neg
  · simp only [Int.toNat_neg_natCast, pow_zero, mul_one, Int.toNat_natCast, zpow_natCast]
    exact_mod_cast Iff.rfl
  · simp only [neg_neg, Int.toNat_natCast, Int.toNat_neg_natCast, pow_zero, mul_one, zpow_neg,
      zpow_natCast, ← div_eq_mul_inv]
    rw [lt_div_iff₀ (by positivity)]
    exact_mod_cast Iff.rfl

/-- An integer power as a quotient of natural ones. -/
theorem zpow_toNat (a : ℚ) (z : Int) : a ^ z = a ^ z.toNat / a ^ (-z).toNat := by
  obtain ⟨n, rfl | rfl⟩ := z.eq_nat_or_neg <;> simp

/-- The scale at which a magnitude is rounded: the least from -1074 on at which it is
    below `2 ^ 53`. -/
structure IsScale (v : ℚ) (s : Int) : Prop where
  least : -1074 ≤ s
  above : v < 2 ^ (s + 53)
  reached : -1074 < s → 2 ^ (s + 52) ≤ v

theorem IsScale.unique (h : IsScale v s) (h' : IsScale v s') : s = s' := by
  have le : ∀ {s s' : Int}, IsScale v s → IsScale v s' → s ≤ s' := by
    intro s s' h h'
    by_contra lt
    have bounds : (2 : ℚ) ^ (s + 52) < 2 ^ (s' + 53) :=
      lt_of_le_of_lt (h.reached (lt_of_le_of_lt h'.least (by omega))) h'.above
    have := (zpow_lt_zpow_iff_right₀ (by norm_num : (1 : ℚ) < 2)).1 bounds
    omega
  exact le_antisymm (le h h') (le h' h)

theorem isScale_scaleOf (hn : num ≠ 0) (hd : den ≠ 0) : IsScale (num / den) (scaleOf num den) := by
  have den_pos : (0 : ℚ) < den := by exact_mod_cast Nat.pos_of_ne_zero hd
  have two : (1 : ℚ) < 2 := by norm_num
  -- the quotient of the bit lengths is off by one binary place at most
  have below : (2 : ℚ) ^ ((Nat.log2 num : Int) - Nat.log2 den - 1) ≤ num / den := by
    have hnum : (2 : ℚ) ^ Nat.log2 num ≤ num := by exact_mod_cast Nat.log2_self_le hn
    have hden : (den : ℚ) ≤ 2 ^ (Nat.log2 den + 1) := by
      exact_mod_cast (Nat.lt_log2_self (n := den)).le
    rw [le_div_iff₀ den_pos, sub_sub, zpow_sub₀ (by norm_num), zpow_natCast]
    calc (2 : ℚ) ^ Nat.log2 num / 2 ^ ((Nat.log2 den : Int) + 1) * den
        ≤ 2 ^ Nat.log2 num / 2 ^ ((Nat.log2 den : Int) + 1) * 2 ^ (Nat.log2 den + 1) := by gcongr
      _ = 2 ^ Nat.log2 num := by
        rw [show ((Nat.log2 den : Int) + 1) = ((Nat.log2 den + 1 : Nat) : Int) by norm_cast,
          zpow_natCast]
        exact div_mul_cancel₀ _ (by positivity)
      _ ≤ num := hnum
  have above : (num : ℚ) / den < 2 ^ ((Nat.log2 num : Int) - Nat.log2 den + 1) := by
    have hnum : (num : ℚ) < 2 ^ (Nat.log2 num + 1) := by exact_mod_cast Nat.lt_log2_self (n := num)
    have hden : (2 : ℚ) ^ Nat.log2 den ≤ den := by exact_mod_cast Nat.log2_self_le hd
    rw [div_lt_iff₀ den_pos, show (Nat.log2 num : Int) - Nat.log2 den + 1 =
      ((Nat.log2 num + 1 : Nat) : Int) - (Nat.log2 den : Nat) by push_cast; ring,
      zpow_sub₀ (by norm_num), zpow_natCast, zpow_natCast]
    calc (num : ℚ) < 2 ^ (Nat.log2 num + 1) := hnum
      _ = 2 ^ (Nat.log2 num + 1) / 2 ^ Nat.log2 den * 2 ^ Nat.log2 den :=
        (div_mul_cancel₀ _ (by positivity)).symm
      _ ≤ 2 ^ (Nat.log2 num + 1) / 2 ^ Nat.log2 den * den := by gcongr
  have fits := scaled_lt num den ((Nat.log2 num : Int) - Nat.log2 den - 53 + 53)
  rw [show (num : ℚ) < den * 2 ^ ((Nat.log2 num : Int) - Nat.log2 den - 53 + 53) ↔
    (num : ℚ) / den < 2 ^ ((Nat.log2 num : Int) - Nat.log2 den - 53 + 53) by
      rw [div_lt_iff₀ den_pos, mul_comm]] at fits
  have rise : ∀ {z : Int} (t : Int), (num : ℚ) / den < 2 ^ (z + 53) → z ≤ t →
      (num : ℚ) / den < 2 ^ (t + 53) := fun t h le =>
    lt_of_lt_of_le h (zpow_le_zpow_right₀ two.le (by omega))
  unfold scaleOf
  dsimp only
  split
  · next h =>
      refine ⟨le_max_right _ _, rise _ (fits.1 h) (le_max_left _ _), fun high => ?_⟩
      rw [max_eq_left (by omega)]
      exact le_trans (zpow_le_zpow_right₀ two.le (by omega)) below
  · next h =>
      refine ⟨le_max_right _ _, rise (z := (Nat.log2 num : Int) - Nat.log2 den - 53 + 1) _
        (lt_of_lt_of_le above (zpow_le_zpow_right₀ two.le (by omega))) (le_max_left _ _), fun high => ?_⟩
      rw [max_eq_left (by omega)]
      have reached := not_lt.1 (mt fits.2 h)
      exact le_trans (zpow_le_zpow_right₀ two.le (by omega)) reached

theorem divNearest_mul {k : Nat} (hk : 0 < k) (num den : Nat) :
    divNearest (num * k) (den * k) = divNearest num den := by
  unfold divNearest
  simp only [Nat.mul_div_mul_right num den hk, Nat.mul_mod_mul_right, ← Nat.mul_assoc,
    Nat.mul_lt_mul_right hk]

theorem divNearest_congr (hd : 0 < den) (hd' : 0 < den') (h : num * den' = num' * den) :
    divNearest num den = divNearest num' den' := by
  rw [← divNearest_mul hd' num den, ← divNearest_mul hd num' den', h, Nat.mul_comm den den']

theorem divNearest_exact (m : Nat) {k : Nat} (hk : 0 < k) : divNearest (m * k) k = m := by
  simp [divNearest, Nat.mul_div_cancel m hk, hk]

theorem le_divNearest (num den : Nat) : num / den ≤ divNearest num den := by
  unfold divNearest
  dsimp only
  split
  · exact Nat.le_refl _
  · split <;> omega

/-- The rank at the scale of the quotient. -/
theorem rankOf_eq (hn : num ≠ 0) (hd : den ≠ 0) (h : IsScale (num / den) s) :
    rankOf num den = (s + 1074).toNat * 2 ^ 52 +
      divNearest (num * 2 ^ (-s).toNat) (den * 2 ^ s.toNat) := by
  obtain rfl := (isScale_scaleOf hn hd).unique h
  rw [rankOf, if_neg hn]

theorem cast_div_eq (hd : den ≠ 0) (hd' : den' ≠ 0) (h : num * den' = num' * den) :
    (num : ℚ) / den = num' / den' := by
  rw [div_eq_div_iff (by exact_mod_cast hd) (by exact_mod_cast hd')]
  exact_mod_cast h

/-- Equal quotients have the same nearest number. -/
theorem rankOf_congr (hd : den ≠ 0) (hd' : den' ≠ 0) (h : num * den' = num' * den) :
    rankOf num den = rankOf num' den' := by
  by_cases hn : num = 0
  · have hn' : num' = 0 := by
      rw [hn, Nat.zero_mul] at h
      exact (Nat.mul_eq_zero.1 h.symm).resolve_right hd
    rw [hn, hn', rankOf, rankOf, if_pos rfl, if_pos rfl]
  · have hn' : num' ≠ 0 := by
      rintro rfl
      rw [Nat.zero_mul] at h
      exact (Nat.mul_eq_zero.1 h).elim hn hd'
    have scale := isScale_scaleOf hn' hd'
    rw [rankOf_eq hn hd (cast_div_eq hd hd' h ▸ scale), rankOf_eq hn' hd' scale]
    congr 1
    refine divNearest_congr (by positivity) (by positivity) ?_
    calc num * 2 ^ (-scaleOf num' den').toNat * (den' * 2 ^ (scaleOf num' den').toNat)
        = num * den' * (2 ^ (-scaleOf num' den').toNat * 2 ^ (scaleOf num' den').toNat) := by ring
      _ = num' * 2 ^ (-scaleOf num' den').toNat * (den * 2 ^ (scaleOf num' den').toNat) := by
        rw [h]; ring

/-- From `2 ^ 1024` on no finite number is near. -/
theorem rankOf_huge (hd : den ≠ 0) (h : den * 2 ^ 1024 ≤ num) : 2047 * 2 ^ 52 ≤ rankOf num den := by
  have den_pos : (0 : ℚ) < den := by exact_mod_cast Nat.pos_of_ne_zero hd
  have hn : num ≠ 0 := by
    have : 0 < den * 2 ^ 1024 := by positivity
    omega
  have scale := isScale_scaleOf hn hd
  rw [rankOf_eq hn hd scale]
  have large : (2 : ℚ) ^ (1024 : Int) ≤ num / den := by
    rw [le_div_iff₀ den_pos, mul_comm]
    exact_mod_cast h
  have exponent : 972 ≤ scaleOf num den := by
    have := (zpow_lt_zpow_iff_right₀ (by norm_num : (1 : ℚ) < 2)).1 (lt_of_le_of_lt large scale.above)
    omega
  have mantissa : 2 ^ 52 ≤ divNearest (num * 2 ^ (-scaleOf num den).toNat)
      (den * 2 ^ (scaleOf num den).toNat) := by
    refine le_trans ?_ (le_divNearest _ _)
    rw [Nat.le_div_iff_mul_le (by positivity)]
    have reached := scale.reached (by omega)
    rw [le_div_iff₀ den_pos, zpow_add₀ (by norm_num)] at reached
    have not_below := mt (scaled_lt num (2 ^ 52 * den) (scaleOf num den)).1 (by
      rw [not_lt]
      calc ((2 ^ 52 * den : Nat) : ℚ) * 2 ^ scaleOf num den
          = 2 ^ scaleOf num den * 2 ^ (52 : Int) * den := by push_cast; ring
        _ ≤ num := reached)
    rw [← Nat.mul_assoc]
    exact not_lt.1 not_below
  have scales : 2046 ≤ (scaleOf num den + 1074).toNat := by omega
  calc 2047 * 2 ^ 52 = 2046 * 2 ^ 52 + 2 ^ 52 := by norm_num
    _ ≤ _ := Nat.add_le_add (Nat.mul_le_mul_right _ scales) mantissa

/-- Below half of the least number zero is nearest. -/
theorem rankOf_tiny (hd : den ≠ 0) {k : Nat} (hk : 1075 ≤ k) (h : num * 2 ^ k < den) :
    rankOf num den = 0 := by
  by_cases hn : num = 0
  · rw [rankOf, if_pos hn]
  · have den_pos : (0 : ℚ) < den := by exact_mod_cast Nat.pos_of_ne_zero hd
    have below : (num : ℚ) / den < 2 ^ (-1074 + 53 : Int) := by
      have tiny : (num : ℚ) / den < 2 ^ (-k : Int) := by
        rw [div_lt_iff₀ den_pos, zpow_neg, inv_mul_eq_div, lt_div_iff₀ (by positivity)]
        exact_mod_cast h
      exact lt_of_lt_of_le tiny (zpow_le_zpow_right₀ (by norm_num) (by omega))
    rw [rankOf_eq hn hd ⟨le_refl _, below, fun high => absurd high (lt_irrefl _)⟩]
    have half : 2 * (num * 2 ^ (- -1074 : Int).toNat) < den := by
      have power : 2 ^ ((- -1074 : Int).toNat + 1) ≤ 2 ^ k := Nat.pow_le_pow_right (by decide) hk
      calc 2 * (num * 2 ^ (- -1074 : Int).toNat) = num * 2 ^ ((- -1074 : Int).toNat + 1) := by ring
        _ ≤ num * 2 ^ k := Nat.mul_le_mul_left _ power
        _ < den := h
    generalize num * 2 ^ (- -1074 : Int).toNat = scaled at half ⊢
    have whole : scaled < den := by omega
    simp [divNearest, Nat.div_eq_of_lt whole, Nat.mod_eq_of_lt whole, half]

variable (x : Binary64)

theorem exponent_least : -1074 ≤ x.exponent := by
  unfold exponent
  omega

theorem mantissa_lt : x.mantissa < 2 ^ 53 := by
  unfold mantissa
  split <;> omega

theorem mantissa_reached (h : -1074 < x.exponent) : 2 ^ 52 ≤ x.mantissa := by
  unfold exponent at h
  unfold mantissa
  split <;> omega

/-- The rank counts the numbers of the smaller scales and those of its own. -/
theorem rank_eq : (x.exponent + 1074).toNat * 2 ^ 52 + x.mantissa = x.rank := by
  unfold exponent mantissa
  split <;> omega

theorem mantissa_eq_zero : x.mantissa = 0 ↔ x.rank = 0 := by
  unfold mantissa
  split <;> omega

theorem ratio_pos : x.ratio.2 ≠ 0 := by
  simp [ratio]

theorem ratio_div : (x.ratio.1 : ℚ) / x.ratio.2 = x.mantissa * 2 ^ x.exponent := by
  rw [zpow_toNat, ← mul_div_assoc]
  simp [ratio]

/-- A number is nearest to itself. -/
theorem rankOf_ratio : rankOf x.ratio.1 x.ratio.2 = x.rank := by
  by_cases zero : x.rank = 0
  · have hm := x.mantissa_eq_zero.2 zero
    rw [zero, ratio, hm, Nat.zero_mul, rankOf, if_pos rfl]
  · have hm : x.mantissa ≠ 0 := mt x.mantissa_eq_zero.1 zero
    have hn : x.ratio.1 ≠ 0 := by simp [ratio, hm]
    have scale : IsScale (x.ratio.1 / x.ratio.2) x.exponent := by
      rw [ratio_div]
      have two : (0 : ℚ) < 2 ^ x.exponent := by positivity
      refine ⟨x.exponent_least, ?_, fun high => ?_⟩
      · rw [zpow_add₀ (by norm_num), mul_comm]
        gcongr
        exact_mod_cast x.mantissa_lt
      · rw [zpow_add₀ (by norm_num), mul_comm]
        gcongr
        exact_mod_cast x.mantissa_reached high
    rw [rankOf_eq hn x.ratio_pos scale, ← x.rank_eq]
    congr 1
    have exact := divNearest_exact x.mantissa
      (k := 2 ^ (-x.exponent).toNat * 2 ^ x.exponent.toNat) (by positivity)
    rw [← exact]
    simp only [ratio]
    congr 1
    ring

/-- The limits change no answer. -/
theorem ofDecimal_eq (negative : Bool) {c : Nat} (hc : c ≠ 0) (e : Int) :
    ofDecimal negative c e = ofRatio negative (c * 10 ^ e.toNat) (10 ^ (-e).toNat) := by
  unfold ofDecimal
  rw [if_neg hc]
  split
  · next high =>
      have huge : 2047 * 2 ^ 52 ≤ rankOf (c * 10 ^ e.toNat) (10 ^ (-e).toNat) := by
        refine rankOf_huge (by positivity) ?_
        rw [show (-e).toNat = 0 by omega, pow_zero, Nat.one_mul]
        calc 2 ^ 1024 ≤ 10 ^ 310 := by decide +kernel
          _ ≤ 10 ^ e.toNat := Nat.pow_le_pow_right (by decide) (by omega)
          _ ≤ c * 10 ^ e.toNat := Nat.le_mul_of_pos_left _ (Nat.pos_of_ne_zero hc)
      rw [ofRatio, dif_neg (by omega)]
  · split
    · next low =>
        have tiny : rankOf (c * 10 ^ e.toNat) (10 ^ (-e).toNat) = 0 := by
          have length : (Nat.log2 c : Int) + 1 + 1075 ≤ 3 * (-e).toNat := by omega
          refine rankOf_tiny (by positivity) (k := 3 * (-e).toNat - (Nat.log2 c + 1)) (by omega) ?_
          rw [show e.toNat = 0 by omega, pow_zero, Nat.mul_one]
          calc c * 2 ^ (3 * (-e).toNat - (Nat.log2 c + 1))
              < 2 ^ (Nat.log2 c + 1) * 2 ^ (3 * (-e).toNat - (Nat.log2 c + 1)) :=
                Nat.mul_lt_mul_of_pos_right Nat.lt_log2_self (Nat.two_pow_pos _)
            _ = 2 ^ (3 * (-e).toNat) := by rw [← Nat.pow_add, Nat.add_sub_cancel' (by omega)]
            _ = 8 ^ (-e).toNat := Nat.pow_mul 2 3 _
            _ ≤ 10 ^ (-e).toNat := Nat.pow_le_pow_left (by decide) _
        simp [ofRatio, tiny]
    · rfl

theorem ofRatio_congr (negative : Bool) (hd : den ≠ 0) (hd' : den' ≠ 0)
    (h : (num : ℚ) / den = num' / den') : ofRatio negative num den = ofRatio negative num' den' := by
  have cross : num * den' = num' * den := by
    rw [div_eq_div_iff (by exact_mod_cast hd) (by exact_mod_cast hd')] at h
    exact_mod_cast h
  rw [ofRatio, ofRatio, rankOf_congr hd hd' cross]

theorem ofRatio_ratio : ofRatio x.negative x.ratio.1 x.ratio.2 = some x := by
  rw [ofRatio, rankOf_ratio, dif_pos x.rank_lt]

theorem decimal_div (c : Nat) (e : Int) :
    ((c * 10 ^ e.toNat : Nat) : ℚ) / (10 ^ (-e).toNat : Nat) = c * 10 ^ e := by
  rw [zpow_toNat, ← mul_div_assoc]
  push_cast
  rfl

/-- A decimal with the value of a number reads as that number. -/
theorem ofDecimal_of_eq {c : Nat} {e : Int} (hx : x.rank ≠ 0)
    (h : (c : ℚ) * 10 ^ e = x.mantissa * 2 ^ x.exponent) :
    ofDecimal x.negative c e = some x := by
  have hc : c ≠ 0 := by
    rintro rfl
    have hm : (x.mantissa : ℚ) ≠ 0 := by exact_mod_cast mt x.mantissa_eq_zero.1 hx
    rw [Nat.cast_zero, zero_mul] at h
    exact mul_ne_zero hm (by positivity) h.symm
  rw [ofDecimal_eq _ hc, ← x.ofRatio_ratio]
  exact ofRatio_congr _ (by positivity) x.ratio_pos (by rw [decimal_div, ratio_div, h])

/-- Two decimals of one value read as the same number. -/
theorem ofDecimal_congr (negative : Bool) {c c' : Nat} {e e' : Int}
    (h : (c : ℚ) * 10 ^ e = c' * 10 ^ e') : ofDecimal negative c e = ofDecimal negative c' e' := by
  have ten : ∀ z : Int, (10 : ℚ) ^ z ≠ 0 := fun z => by positivity
  by_cases hc : c = 0
  · have hc' : c' = 0 := by
      rw [hc, Nat.cast_zero, zero_mul] at h
      exact_mod_cast (mul_eq_zero.1 h.symm).resolve_right (ten e')
    rw [ofDecimal, ofDecimal, if_pos hc, if_pos hc']
  · have hc' : c' ≠ 0 := by
      rintro rfl
      rw [Nat.cast_zero, zero_mul] at h
      exact hc (by exact_mod_cast (mul_eq_zero.1 h).resolve_right (ten e))
    rw [ofDecimal_eq _ hc, ofDecimal_eq _ hc']
    exact ofRatio_congr _ (by positivity) (by positivity) (by rw [decimal_div, decimal_div, h])

end Mim.Binary64

namespace Mim.Decimal

open Binary64

variable (x : Binary64)

theorem exact_eq : ((exact x).coefficient : ℚ) * 10 ^ (exact x).exponent =
    x.mantissa * 2 ^ x.exponent := by
  unfold exact
  split
  · next whole =>
      obtain ⟨n, hn⟩ := Int.eq_ofNat_of_zero_le whole
      rw [hn]
      simp
  · next broken =>
      obtain ⟨n, hn⟩ : ∃ n : Nat, x.exponent = -(n : Int) := ⟨(-x.exponent).toNat, by omega⟩
      rw [hn]
      have ten : (10 : ℚ) ^ n = 2 ^ n * 5 ^ n := by rw [← mul_pow]; norm_num
      simp only [neg_neg, Int.toNat_natCast, Nat.cast_mul, Nat.cast_pow, Nat.cast_ofNat, zpow_neg,
        zpow_natCast, ten, mul_inv]
      field_simp

/-- The shortest decimal of a number reads back as the number. -/
theorem readsAs_shortest (tie : Tie) (hx : x.rank ≠ 0) : readsAs x (shortest tie x) := by
  unfold shortest
  dsimp only
  cases found : (List.range 17).findSome? fun (n : Nat) =>
      nearest? tie x (pointOf x.ratio.1 x.ratio.2 - n - 1) with
  | none => exact decide_eq_true (x.ofDecimal_of_eq hx (exact_eq x))
  | some d =>
      obtain ⟨n, -, nearest⟩ := List.exists_of_findSome?_eq_some found
      exact List.find?_some (p := readsAs x) nearest

end Mim.Decimal
