import B2.Ast.Rounding

/-!
# Numbers that doubles represent

`ofRatio` rounds a ratio that a double represents to this double, so arithmetic
whose exact result is a double is exact.
-/

namespace B2

namespace Double

theorem scaled_denominator_pos (n : Nat) {d : Nat} (hd : 0 < d) (e : Int) : 0 < (scaled n d e).2 := by
  unfold scaled
  split
  · exact Nat.mul_pos hd (Nat.two_pow_pos _)
  · exact hd

theorem scaled_div (n : Nat) {d : Nat} (hd : 0 < d) (e : Int) :
    ((scaled n d e).1 : ℚ) / (scaled n d e).2 = n / d / 2 ^ e := by
  have hd' : (d : ℚ) ≠ 0 := by positivity
  unfold scaled
  split
  · obtain ⟨k, rfl⟩ : ∃ k : Nat, e = k := ⟨e.toNat, by omega⟩
    simp only [Int.toNat_natCast, Nat.cast_mul, Nat.cast_pow, Nat.cast_ofNat, zpow_natCast]
    field_simp
  · obtain ⟨k, rfl⟩ : ∃ k : Nat, e = -k := ⟨(-e).toNat, by omega⟩
    simp only [neg_neg, Int.toNat_natCast, Nat.cast_mul, Nat.cast_pow, Nat.cast_ofNat,
      zpow_neg, zpow_natCast]
    field_simp

theorem roundHalfEven_mul (m : Nat) {d : Nat} (hd : 0 < d) : roundHalfEven (m * d) d = m := by
  simp only [roundHalfEven, Nat.mul_mod_left, Nat.mul_div_cancel m hd, mul_zero, if_pos hd]

/-- A ratio lies between powers of two. -/
theorem log2_ratio {n d : Nat} (hn : n ≠ 0) (hd : d ≠ 0) :
    (2 : ℚ) ^ ((n.log2 : Int) - d.log2 - 1) < n / d ∧
      (n : ℚ) / d < 2 ^ ((n.log2 : Int) - d.log2 + 1) := by
  have hn₁ : (2 : ℚ) ^ (n.log2 : Int) ≤ n := by exact_mod_cast Nat.log2_self_le hn
  have hn₂ : (n : ℚ) < 2 ^ ((n.log2 : Int) + 1) := by exact_mod_cast Nat.lt_log2_self
  have hd₁ : (2 : ℚ) ^ (d.log2 : Int) ≤ d := by exact_mod_cast Nat.log2_self_le hd
  have hd₂ : (d : ℚ) < 2 ^ ((d.log2 : Int) + 1) := by exact_mod_cast Nat.lt_log2_self
  have hd₀ : (0 : ℚ) < d := by positivity
  constructor
  · rw [lt_div_iff₀ hd₀]
    calc (2 : ℚ) ^ ((n.log2 : Int) - d.log2 - 1) * d
        < 2 ^ ((n.log2 : Int) - d.log2 - 1) * 2 ^ ((d.log2 : Int) + 1) := by gcongr
      _ = 2 ^ (n.log2 : Int) := by
        rw [← zpow_add₀ two_ne_zero]
        congr 1
        omega
      _ ≤ n := hn₁
  · rw [div_lt_iff₀ hd₀]
    calc (n : ℚ) < 2 ^ ((n.log2 : Int) + 1) := hn₂
      _ = 2 ^ ((n.log2 : Int) - d.log2 + 1) * 2 ^ (d.log2 : Int) := by
        rw [← zpow_add₀ two_ne_zero]
        congr 1
        omega
      _ ≤ 2 ^ ((n.log2 : Int) - d.log2 + 1) * d := by gcongr

/-- `ofRatio` computes the exponent of a ratio that has a mantissa. -/
theorem exponent_eq {x : ℚ} {m : Nat} {e k : Int} (hc : Canonical m e) (hx : x = m * 2 ^ e)
    (hlo : 2 ^ (k - 1) < x) (hhi : x < 2 ^ (k + 1)) :
    max (-1074) (if 2 ^ k ≤ x then k - 52 else k - 53) = e := by
  obtain ⟨hm, he, -, hnormal⟩ := hc
  have hlt : ∀ {i j : Int}, (2 : ℚ) ^ i < 2 ^ j → i < j := fun h =>
    (zpow_lt_zpow_iff_right₀ (by norm_num)).1 h
  have hx₂ : x < 2 ^ (53 + e) := by
    rw [hx, zpow_add₀ two_ne_zero]
    gcongr
    exact_mod_cast hm
  have hk := hlt (hlo.trans hx₂)
  rcases hnormal with hnormal | rfl
  · have hx₁ : 2 ^ (52 + e) ≤ x := by
      rw [hx, zpow_add₀ two_ne_zero]
      gcongr
      exact_mod_cast hnormal
    have hk' := hlt (hx₁.trans_lt hhi)
    split_ifs with h
    · have hk'' := hlt (h.trans_lt hx₂)
      omega
    · have hk'' := hlt (hx₁.trans_lt (not_le.1 h))
      omega
  · by_cases hsmall : m < 2 ^ 52
    · have hx₃ : x < 2 ^ (52 + -1074 : Int) := by
        rw [hx, zpow_add₀ two_ne_zero]
        gcongr
        exact_mod_cast hsmall
      have hk' := hlt (hlo.trans hx₃)
      split_ifs with h
      · have hk'' := hlt (h.trans_lt hx₃)
        omega
      · omega
    · have hx₁ : 2 ^ (52 + -1074 : Int) ≤ x := by
        rw [hx, zpow_add₀ two_ne_zero]
        gcongr
        exact_mod_cast not_lt.1 hsmall
      have hk' := hlt (hx₁.trans_lt hhi)
      split_ifs with h
      · have hk'' := hlt (h.trans_lt hx₂)
        omega
      · omega

/-- A ratio that a double represents is rounded to this double. -/
theorem ofRatio_of_eq (s : Bool) {n d m : Nat} {e : Int} (hc : Canonical m e) (hm : m ≠ 0)
    (hd : 0 < d) (h : (n : ℚ) / d = m * 2 ^ e) : ofRatio s n d = .finite s m e hc := by
  have hn : n ≠ 0 := by
    rintro rfl
    have hpos : (0 : ℚ) < m * 2 ^ e := by positivity
    rw [← h, Nat.cast_zero, zero_div] at hpos
    exact lt_irrefl 0 hpos
  obtain ⟨hlo, hhi⟩ := log2_ratio hn hd.ne'
  have hle : (scaled n d ((n.log2 : Int) - d.log2)).2 ≤ (scaled n d ((n.log2 : Int) - d.log2)).1 ↔
      (2 : ℚ) ^ ((n.log2 : Int) - d.log2) ≤ n / d := by
    have hpos := scaled_denominator_pos n hd ((n.log2 : Int) - d.log2)
    have hq : (0 : ℚ) < (scaled n d ((n.log2 : Int) - d.log2)).2 := by exact_mod_cast hpos
    rw [← Nat.cast_le (α := ℚ), ← one_le_div hq, scaled_div n hd, one_le_div (by positivity)]
  have hexp := exponent_eq hc h hlo hhi
  simp only [← hle] at hexp
  have hround : roundHalfEven (scaled n d e).1 (scaled n d e).2 = m := by
    have hpos := scaled_denominator_pos n hd e
    have hmul : (scaled n d e).1 = m * (scaled n d e).2 := by
      have hq : ((scaled n d e).2 : ℚ) ≠ 0 := by exact_mod_cast hpos.ne'
      have hdiv := scaled_div n hd e
      rw [h, mul_div_assoc, div_self (by positivity), mul_one, div_eq_iff hq] at hdiv
      exact_mod_cast hdiv
    rw [hmul, roundHalfEven_mul m hpos]
  have hne : m ≠ 2 ^ 53 := hc.1.ne
  simp only [ofRatio, hn, if_false, hexp, hround, hne, dif_pos hc]

/-- A double is the nearest one to its value. -/
theorem ofRat_value (negative s : Bool) {m : Nat} {e : Int} (hc : Canonical m e) (hm : m ≠ 0) :
    ofRat negative (finite s m e hc).value = .finite s m e hc := by
  have hpos : (0 : ℚ) < m * 2 ^ e := by positivity
  have hvalue := value_finite s m e hc
  have hne : (finite s m e hc).value ≠ 0 := by
    rw [hvalue]
    cases s <;> simp [hpos.ne']
  have hsign : decide ((finite s m e hc).value < 0) = s := by
    rw [hvalue]
    cases s
    · simpa using hpos.le
    · simpa using hpos
  have habs : ((finite s m e hc).value.num.natAbs : ℚ) / (finite s m e hc).value.den =
      m * 2 ^ e := by
    rw [Nat.cast_natAbs, Int.cast_abs]
    have := Rat.num_div_den (finite s m e hc).value
    have hden : (0 : ℚ) < (finite s m e hc).value.den := by positivity
    rw [← abs_of_pos hpos, ← abs_of_pos hden, ← abs_div, this, hvalue]
    cases s <;> simp
  rw [ofRat, if_neg hne, hsign, ofRatio_of_eq s hc hm (Rat.den_pos _) habs]

theorem ofLong_one : ofLong 1 = .finite false (2 ^ 52) (-52) (by decide) := by
  have hone : (Int64.toInt 1 : ℚ) = 1 := by decide
  rw [ofLong, hone, ofRat, if_neg one_ne_zero]
  exact ofRatio_of_eq false _ (by norm_num) (by norm_num) (by norm_num)

/-- The multiplication with which a positive sign is folded. -/
theorem mul_ofLong_one (x : Double) : x.mul (ofLong 1) = x := by
  have hvalue : (finite false (2 ^ 52) (-52) (by decide)).value = 1 := by
    rw [value_finite]
    norm_num
  rw [ofLong_one]
  cases x with
  | nan => rfl
  | infinite s =>
    simp only [mul, hvalue, one_ne_zero, if_false, isNegative]
    cases s <;> rfl
  | finite s m e hc =>
    have hmul : mul (finite s m e hc) (finite false (2 ^ 52) (-52) (by decide)) =
        ofRat s (finite s m e hc).value := by
      simp only [mul, hvalue, mul_one, isNegative]
      cases s <;> rfl
    rw [hmul]
    by_cases hm : m = 0
    · subst hm
      obtain rfl : e = -1074 := hc.2.2.2.resolve_left (by norm_num)
      have hzero : (finite s 0 (-1074) hc).value = 0 := by
        rw [value_finite]
        simp
      rw [hzero, ofRat, if_pos rfl]
      rfl
    · exact ofRat_value s s hc hm

end Double

end B2
