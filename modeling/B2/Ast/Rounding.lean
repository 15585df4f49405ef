import B2.Ast.Double

/-!
# The double nearest to an integer

`nearestDouble z` is the integer that `(double) z` stands for: `z` rounded to 53
significant bits, ties to even. It is a monotone function of `z`, so two
integers compare like their doubles unless these are the same one.
-/

namespace B2

namespace Double

theorem le_roundHalfEven (n d : Nat) : n / d ≤ roundHalfEven n d := by
  simp only [roundHalfEven]
  split_ifs <;> omega

theorem roundHalfEven_le (n d : Nat) : roundHalfEven n d ≤ n / d + 1 := by
  simp only [roundHalfEven]
  split_ifs <;> omega

theorem roundHalfEven_mono {m n : Nat} (d : Nat) (h : m ≤ n) :
    roundHalfEven m d ≤ roundHalfEven n d := by
  have hq : m / d ≤ n / d := Nat.div_le_div_right h
  rcases hq.lt_or_eq with hlt | heq
  · have hm := roundHalfEven_le m d
    have hn := le_roundHalfEven n d
    omega
  · have hr : m % d ≤ n % d := by
      have hm := Nat.div_add_mod m d
      have hn := Nat.div_add_mod n d
      rw [heq] at hm
      omega
    simp only [roundHalfEven, heq]
    split_ifs <;> omega

theorem roundHalfEven_one (n : Nat) : roundHalfEven n 1 = n := by
  simp [roundHalfEven, Nat.mod_one]

/-! ## Rounding to 53 bits -/

/-- The exponent of the last of the 53 bits kept. -/
def lastBit (n : Nat) : Nat := n.log2 - 52

/-- A natural number rounded to 53 significant bits, ties to even. -/
def nearestNat (n : Nat) : Nat := roundHalfEven n (2 ^ lastBit n) * 2 ^ lastBit n

/-- An integer rounded to 53 significant bits, ties to even. -/
def nearestDouble (z : Int) : Int := z.sign * nearestNat z.natAbs

theorem nearestNat_of_small {n : Nat} (h : n.log2 ≤ 52) : nearestNat n = n := by
  have : lastBit n = 0 := by simp only [lastBit]; omega
  simp [nearestNat, this, roundHalfEven_one]

theorem pow_log2_le_nearestNat {n : Nat} (hn : n ≠ 0) : 2 ^ n.log2 ≤ nearestNat n := by
  by_cases h : n.log2 ≤ 52
  · rw [nearestNat_of_small h]
    exact Nat.log2_self_le hn
  · have hsplit : n.log2 = 52 + lastBit n := by simp only [lastBit]; omega
    have hq : 2 ^ 52 ≤ n / 2 ^ lastBit n := by
      rw [Nat.le_div_iff_mul_le (by positivity), ← pow_add, ← hsplit]
      exact Nat.log2_self_le hn
    rw [hsplit, pow_add]
    exact Nat.mul_le_mul_right _ (hq.trans (le_roundHalfEven _ _))

theorem nearestNat_le_pow_log2 (n : Nat) : nearestNat n ≤ 2 ^ (n.log2 + 1) := by
  by_cases h : n.log2 ≤ 52
  · rw [nearestNat_of_small h]
    exact Nat.lt_log2_self.le
  · have hsplit : n.log2 + 1 = 53 + lastBit n := by simp only [lastBit]; omega
    have hq : n / 2 ^ lastBit n < 2 ^ 53 := by
      rw [Nat.div_lt_iff_lt_mul (by positivity), ← pow_add, ← hsplit]
      exact Nat.lt_log2_self
    rw [hsplit, pow_add]
    exact Nat.mul_le_mul_right _ ((roundHalfEven_le _ _).trans hq)

theorem nearestNat_mono {m n : Nat} (h : m ≤ n) : nearestNat m ≤ nearestNat n := by
  by_cases hm : m = 0
  · subst hm
    simp [nearestNat, roundHalfEven]
  · have hn : n ≠ 0 := by omega
    have hlog : m.log2 ≤ n.log2 := by
      rw [Nat.log2_eq_log_two, Nat.log2_eq_log_two]
      exact Nat.log_mono_right h
    rcases hlog.lt_or_eq with hlt | heq
    · calc nearestNat m ≤ 2 ^ (m.log2 + 1) := nearestNat_le_pow_log2 m
        _ ≤ 2 ^ n.log2 := Nat.pow_le_pow_right (by norm_num) hlt
        _ ≤ nearestNat n := pow_log2_le_nearestNat hn
    · simp only [nearestNat, lastBit, heq]
      exact Nat.mul_le_mul_right _ (roundHalfEven_mono _ h)

theorem nearestDouble_of_nonneg {z : Int} (h : 0 ≤ z) : nearestDouble z = nearestNat z.natAbs := by
  rcases h.eq_or_lt with rfl | h
  · simp [nearestDouble, nearestNat, roundHalfEven]
  · rw [nearestDouble, Int.sign_eq_one_of_pos h, one_mul]

theorem nearestDouble_of_neg {z : Int} (h : z < 0) : nearestDouble z = -nearestNat z.natAbs := by
  rw [nearestDouble, Int.sign_eq_neg_one_of_neg h, neg_one_mul]

theorem nearestDouble_mono {a b : Int} (h : a ≤ b) : nearestDouble a ≤ nearestDouble b := by
  by_cases ha : 0 ≤ a
  · have habs : nearestNat a.natAbs ≤ nearestNat b.natAbs := nearestNat_mono (by omega)
    rw [nearestDouble_of_nonneg ha, nearestDouble_of_nonneg (ha.trans h)]
    exact_mod_cast habs
  · rw [nearestDouble_of_neg (by omega)]
    by_cases hb : 0 ≤ b
    · rw [nearestDouble_of_nonneg hb]
      omega
    · have habs : nearestNat b.natAbs ≤ nearestNat a.natAbs := nearestNat_mono (by omega)
      rw [nearestDouble_of_neg (by omega)]
      omega

/-! ## The value of a converted integer -/

theorem value_finite (s : Bool) (m : Nat) (e : Int) (h : Canonical m e) :
    (Double.finite s m e h).value = (if s then -1 else 1) * ((m : Rat) * 2 ^ e) := by
  have hmag : (mkRat (scaled m 1 (-e)).1 (scaled m 1 (-e)).2 : Rat) = (m : Rat) * 2 ^ e := by
    unfold scaled
    split
    · obtain ⟨k, rfl⟩ : ∃ k : Nat, e = -k := ⟨(-e).toNat, by omega⟩
      simp [Rat.mkRat_eq_div, div_eq_mul_inv]
    · obtain ⟨k, rfl⟩ : ∃ k : Nat, e = k := ⟨e.toNat, by omega⟩
      simp [Rat.mkRat_eq_div]
  simp only [value, hmag]
  split <;> simp

/-- The last step of `ofRatio`, from the rounded mantissa `m` with exponent `e`. -/
theorem ofRatio_of_mantissa (s : Bool) {n m : Nat} {e : Int} (hn : n ≠ 0) (h64 : n < 2 ^ 64)
    (he : (n.log2 : Int) - 52 = e)
    (hm : roundHalfEven (scaled n 1 e).1 (scaled n 1 e).2 = m) (hlo : 2 ^ 52 ≤ m)
    (hhi : m ≤ 2 ^ 53) :
    ∃ m' e' h, ofRatio s n 1 = .finite s m' e' h ∧ (m' : Rat) * 2 ^ e' = m * 2 ^ e := by
  have hlog : n.log2 < 64 := (Nat.log2_lt hn).2 h64
  have hone : (1 : Nat).log2 = 0 := by decide
  have hself : (scaled n 1 (n.log2 : Int)).2 ≤ (scaled n 1 (n.log2 : Int)).1 := by
    simpa [scaled] using Nat.log2_self_le hn
  have hexp : max (-1074) ((n.log2 : Int) - 52) = e := by omega
  simp only [ofRatio, hn, if_false, hone, Nat.cast_zero, sub_zero, hself, if_true, hexp, hm]
  by_cases htop : m = 2 ^ 53
  · have hc : Canonical (2 ^ 52) (e + 1) := ⟨by norm_num, by omega, by omega, .inl le_rfl⟩
    simp only [htop, if_true, dif_pos hc]
    refine ⟨_, _, hc, rfl, ?_⟩
    rw [zpow_add_one₀ two_ne_zero]
    push_cast
    ring
  · have hc : Canonical m e := ⟨by omega, by omega, by omega, .inl hlo⟩
    simp only [htop, if_false, dif_pos hc]
    exact ⟨_, _, hc, rfl, rfl⟩

/-- A natural number below `2 ^ 64` is converted to a finite double, the nearest one. -/
theorem ofRatio_nat (s : Bool) {n : Nat} (hn : n ≠ 0) (h64 : n < 2 ^ 64) :
    ∃ m e h, ofRatio s n 1 = .finite s m e h ∧ (m : Rat) * 2 ^ e = nearestNat n := by
  have hself := Nat.log2_self_le hn
  have hlt : n < 2 ^ (n.log2 + 1) := Nat.lt_log2_self
  by_cases h : n.log2 ≤ 52
  · -- every bit fits: the mantissa is shifted to the left
    obtain ⟨k, hk⟩ : ∃ k, n.log2 + k = 52 := ⟨52 - n.log2, by omega⟩
    have hscaled : scaled n 1 (-(k : Int)) = (n * 2 ^ k, 1) := by
      unfold scaled
      split
      · have : k = 0 := by omega
        simp [this]
      · simp
    have hlo : 2 ^ 52 ≤ n * 2 ^ k := by
      rw [← hk, pow_add]
      exact Nat.mul_le_mul_right _ hself
    have hhi : n * 2 ^ k ≤ 2 ^ 53 := by
      rw [show 53 = n.log2 + 1 + k by omega, pow_add]
      exact Nat.mul_le_mul_right _ hlt.le
    obtain ⟨m, e, hc, hr, hv⟩ := ofRatio_of_mantissa s hn h64 (m := n * 2 ^ k) (e := -k)
      (by omega) (by rw [hscaled, roundHalfEven_one]) hlo hhi
    refine ⟨m, e, hc, hr, ?_⟩
    rw [hv, nearestNat_of_small h]
    push_cast
    rw [mul_assoc, ← zpow_natCast, ← zpow_add₀ two_ne_zero]
    simp
  · have hlog : n.log2 = 52 + lastBit n := by simp only [lastBit]; omega
    have hscaled : scaled n 1 (lastBit n : Int) = (n, 2 ^ lastBit n) := by simp [scaled]
    have hnear : roundHalfEven n (2 ^ lastBit n) * 2 ^ lastBit n = nearestNat n := rfl
    have hlo : 2 ^ 52 ≤ roundHalfEven n (2 ^ lastBit n) := by
      have := pow_log2_le_nearestNat hn
      rw [hlog, pow_add, ← hnear] at this
      exact Nat.le_of_mul_le_mul_right this (by positivity)
    have hhi : roundHalfEven n (2 ^ lastBit n) ≤ 2 ^ 53 := by
      have := nearestNat_le_pow_log2 n
      rw [hlog, show 52 + lastBit n + 1 = 53 + lastBit n by omega, pow_add, ← hnear] at this
      exact Nat.le_of_mul_le_mul_right this (by positivity)
    obtain ⟨m, e, hc, hr, hv⟩ := ofRatio_of_mantissa s hn h64 (e := lastBit n) (by omega)
      (by rw [hscaled]) hlo hhi
    refine ⟨m, e, hc, hr, ?_⟩
    rw [hv, ← hnear]
    push_cast
    rw [zpow_natCast]

/-- `(double) n` is finite, and its value is `nearestDouble n`. -/
theorem ofLong_eq (n : Int64) :
    ∃ s m e h, ofLong n = .finite s m e h ∧ (ofLong n).value = nearestDouble n.toInt := by
  unfold ofLong ofRat
  by_cases hz : n.toInt = 0
  · refine ⟨false, 0, -1074, by decide, ?_⟩
    simp [hz, zero, value_finite, nearestDouble]
  · have hrat : ((n.toInt : Int) : Rat) ≠ 0 := by exact_mod_cast hz
    have h64 : n.toInt.natAbs < 2 ^ 64 := by
      have h₁ := Int64.le_toInt n
      have h₂ := Int64.toInt_lt n
      omega
    obtain ⟨m, e, hc, hr, hv⟩ := ofRatio_nat (decide (n.toInt < 0)) (by omega) h64
    have hneg : decide ((n.toInt : Rat) < 0) = decide (n.toInt < 0) := by
      simp only [Int.cast_lt_zero]
    simp only [hrat, if_false, Rat.num_intCast, Rat.den_intCast, hneg, hr]
    refine ⟨_, m, e, hc, rfl, ?_⟩
    rw [value_finite, hv]
    by_cases hn : n.toInt < 0
    · rw [nearestDouble_of_neg hn]
      simp [hn]
    · rw [nearestDouble_of_nonneg (by omega)]
      simp [hn]

/-- Doubles that stand for integers compare like what they are nearest to. -/
theorem lt_ofLong (a b : Int64) :
    (ofLong a).lt (ofLong b) = decide (nearestDouble a.toInt < nearestDouble b.toInt) := by
  obtain ⟨s, m, e, h, ha, hav⟩ := ofLong_eq a
  obtain ⟨s', m', e', h', hb, hbv⟩ := ofLong_eq b
  have hlt : (ofLong a).lt (ofLong b) = decide ((ofLong a).value < (ofLong b).value) := by
    rw [ha, hb]; rfl
  rw [hlt, hav, hbv]
  simp only [Int.cast_lt]

theorem eq_ofLong (a b : Int64) :
    (ofLong a).eq (ofLong b) = decide (nearestDouble a.toInt = nearestDouble b.toInt) := by
  obtain ⟨s, m, e, h, ha, hav⟩ := ofLong_eq a
  obtain ⟨s', m', e', h', hb, hbv⟩ := ofLong_eq b
  have heq : (ofLong a).eq (ofLong b) = decide ((ofLong a).value = (ofLong b).value) := by
    rw [ha, hb]; rfl
  rw [heq, hav, hbv]
  simp only [Int.cast_inj]

theorem le_ofLong (a b : Int64) :
    (ofLong a).le (ofLong b) = decide (nearestDouble a.toInt ≤ nearestDouble b.toInt) := by
  rw [le, lt_ofLong, eq_ofLong, Bool.eq_iff_iff]
  simp [le_iff_lt_or_eq]

end Double

end B2
