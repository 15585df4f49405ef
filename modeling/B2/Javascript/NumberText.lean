import B2.Ast.Rounding
import B2.Ecma.Numeral
import B2.Javascript.Text
import B2.Passes.RawBlocks

/-!
# Double literals as text

A double literal is written with six digits after the point where it stays in an
expression and with six significant digits where a print block over it becomes a
raw block. Both texts have its exact value if it has no more digits than either
format keeps (`keepsValue_iff`).
-/

namespace B2

open Ecma (numeral? unsigned? exponent? digitsNumber AllDigits)

namespace Double

theorem decimal_ne_nil (n : Nat) : decimal n ≠ [] := Nat.toDigits_ne_nil

theorem allDigits_decimal (n : Nat) : AllDigits (decimal n) := Ecma.allDigits_toDigits n

theorem digitsNumber_decimal (n : Nat) : digitsNumber (decimal n) = n := Ecma.digitsNumber_toDigits n

theorem length_decimal_le_iff {n k : Nat} (hk : 0 < k) : (decimal n).length ≤ k ↔ n < 10 ^ k :=
  Nat.length_toDigits_le_iff (by decide) hk

theorem length_decimal_pos (n : Nat) : 0 < (decimal n).length :=
  List.length_pos_iff.2 (decimal_ne_nil n)

theorem lt_pow_length_decimal (n : Nat) : n < 10 ^ (decimal n).length :=
  (length_decimal_le_iff (length_decimal_pos n)).1 le_rfl

theorem pow_length_decimal_le {n : Nat} (hn : 0 < n) : 10 ^ ((decimal n).length - 1) ≤ n := by
  by_cases hone : (decimal n).length - 1 = 0
  · rw [hone]
    omega
  · by_contra hlt
    have hle := (length_decimal_le_iff (by omega)).2 (not_le.1 hlt)
    omega

/-! ## Rounding -/

/-- Rounding keeps exactly the ratios that are natural numbers. -/
theorem roundHalfEven_eq_iff {n d : Nat} (hd : 0 < d) :
    (roundHalfEven n d : Rat) = n / d ↔ ∃ j : Nat, (n : Rat) / d = j := by
  have hd' : (d : Rat) ≠ 0 := by exact_mod_cast hd.ne'
  constructor
  · intro h
    exact ⟨_, h.symm⟩
  · rintro ⟨j, hj⟩
    have hn : n = j * d := by
      rw [div_eq_iff hd'] at hj
      exact_mod_cast hj
    have hround : roundHalfEven n d = j := by
      subst hn
      simp [roundHalfEven, hd]
    rw [hround, hj]

/-- `n / d` from a power of ten on, below the next one. -/
def InDecade (q : Rat) (e : Int) : Prop := 10 ^ e ≤ q ∧ q < 10 ^ (e + 1)

theorem ten_ne_zero : (10 : Rat) ≠ 0 := by norm_num

theorem exists_inDecade {n d : Nat} (hn : 0 < n) (hd : 0 < d) :
    ∃ e, InDecade ((n : Rat) / d) e ∧ significant n d =
      if (if e ≤ 5 then roundHalfEven (n * 10 ^ (5 - e).toNat) d
          else roundHalfEven n (d * 10 ^ (e - 5).toNat)) = 10 ^ 6 then (10 ^ 5, e + 1)
      else ((if e ≤ 5 then roundHalfEven (n * 10 ^ (5 - e).toNat) d
          else roundHalfEven n (d * 10 ^ (e - 5).toNat)), e) := by
  obtain ⟨above, habove⟩ : ∃ a : Int, a = (decimal n).length - (decimal d).length := ⟨_, rfl⟩
  have hd' : (0 : Rat) < d := by exact_mod_cast hd
  have hnlo : (10 : Rat) ^ (((decimal n).length : Int) - 1) ≤ n := by
    have h := pow_length_decimal_le hn
    have hpos := length_decimal_pos n
    rw [show ((decimal n).length : Int) - 1 = (((decimal n).length - 1 : Nat) : Int) by omega,
      zpow_natCast]
    exact_mod_cast h
  have hdlo : (10 : Rat) ^ (((decimal d).length : Int) - 1) ≤ d := by
    have h := pow_length_decimal_le hd
    have hpos := length_decimal_pos d
    rw [show ((decimal d).length : Int) - 1 = (((decimal d).length - 1 : Nat) : Int) by omega,
      zpow_natCast]
    exact_mod_cast h
  have hnhi : (n : Rat) < 10 ^ ((decimal n).length : Int) := by
    rw [zpow_natCast]
    exact_mod_cast lt_pow_length_decimal n
  have hdhi : (d : Rat) < 10 ^ ((decimal d).length : Int) := by
    rw [zpow_natCast]
    exact_mod_cast lt_pow_length_decimal d
  have hreached : (if 0 ≤ above then d * 10 ^ above.toNat ≤ n else d ≤ n * 10 ^ (-above).toNat) ↔
      (10 : Rat) ^ above ≤ (n : Rat) / d := by
    rw [le_div_iff₀ hd']
    split
    · rename_i h
      obtain ⟨k, rfl⟩ : ∃ k : Nat, above = k := ⟨above.toNat, by omega⟩
      rw [zpow_natCast, Int.toNat_natCast, mul_comm]
      exact_mod_cast Iff.rfl
    · rename_i h
      obtain ⟨k, rfl⟩ : ∃ k : Nat, above = -k := ⟨(-above).toNat, by omega⟩
      rw [zpow_neg, zpow_natCast, neg_neg, Int.toNat_natCast, inv_mul_le_iff₀ (by positivity),
        mul_comm]
      exact_mod_cast Iff.rfl
  have hlow : (10 : Rat) ^ (above - 1) ≤ n / d := by
    rw [le_div_iff₀ hd']
    calc (10 : Rat) ^ (above - 1) * d
        ≤ 10 ^ (above - 1) * 10 ^ ((decimal d).length : Int) := by gcongr
      _ = 10 ^ (((decimal n).length : Int) - 1) := by
          rw [← zpow_add₀ ten_ne_zero, habove]
          congr 1
          omega
      _ ≤ n := hnlo
  have hhigh : (n : Rat) / d < 10 ^ (above + 1) := by
    rw [div_lt_iff₀ hd']
    calc (n : Rat) < 10 ^ ((decimal n).length : Int) := hnhi
      _ = 10 ^ (above + 1) * 10 ^ (((decimal d).length : Int) - 1) := by
          rw [← zpow_add₀ ten_ne_zero, habove]
          congr 1
          omega
      _ ≤ 10 ^ (above + 1) * d := by gcongr
  by_cases h : (10 : Rat) ^ above ≤ (n : Rat) / d
  · refine ⟨above, ⟨h, hhigh⟩, ?_⟩
    unfold significant
    simp only [← habove, if_pos (hreached.2 h)]
  · refine ⟨above - 1, ⟨hlow, by rw [sub_add_cancel]; exact not_le.1 h⟩, ?_⟩
    unfold significant
    simp only [← habove, if_neg (mt hreached.1 h)]

/-- What `significant` rounds to a natural number has six digits before the point. -/
theorem exists_ratio {n d : Nat} (hd : 0 < d) {e : Int} (he : InDecade ((n : Rat) / d) e) :
    ∃ a b : Nat, 0 < b ∧ (a : Rat) / b = n / d * 10 ^ (5 - e) ∧ 10 ^ 5 * b ≤ a ∧ a < 10 ^ 6 * b ∧
      (if e ≤ 5 then roundHalfEven (n * 10 ^ (5 - e).toNat) d
        else roundHalfEven n (d * 10 ^ (e - 5).toNat)) = roundHalfEven a b := by
  obtain ⟨a, b, hb, hratio, hround⟩ : ∃ a b : Nat, 0 < b ∧
      (a : Rat) / b = n / d * 10 ^ (5 - e) ∧
      (if e ≤ 5 then roundHalfEven (n * 10 ^ (5 - e).toNat) d
        else roundHalfEven n (d * 10 ^ (e - 5).toNat)) = roundHalfEven a b := by
    by_cases h : e ≤ 5
    · obtain ⟨k, hk⟩ : ∃ k : Nat, 5 - e = k := ⟨(5 - e).toNat, by omega⟩
      refine ⟨n * 10 ^ (5 - e).toNat, d, hd, ?_, if_pos h⟩
      rw [hk, Int.toNat_natCast, zpow_natCast]
      push_cast
      ring
    · obtain ⟨k, hk⟩ : ∃ k : Nat, e - 5 = k := ⟨(e - 5).toNat, by omega⟩
      refine ⟨n, d * 10 ^ (e - 5).toNat, by positivity, ?_, if_neg h⟩
      rw [show 5 - e = -(e - 5) by omega, hk, Int.toNat_natCast, zpow_neg, zpow_natCast]
      push_cast
      rw [div_mul_eq_div_div, div_eq_mul_inv]
  have hb' : (0 : Rat) < b := by exact_mod_cast hb
  have hpow : (0 : Rat) < 10 ^ (5 - e) := by positivity
  refine ⟨a, b, hb, hratio, ?_, ?_, hround⟩
  · have h : (10 : Rat) ^ 5 ≤ a / b := by
      rw [hratio]
      calc (10 : Rat) ^ 5 = 10 ^ e * 10 ^ (5 - e) := by
            rw [← zpow_add₀ ten_ne_zero, add_sub_cancel, ← zpow_natCast, Nat.cast_ofNat]
        _ ≤ _ := mul_le_mul_of_nonneg_right he.1 hpow.le
    rw [le_div_iff₀ hb'] at h
    exact_mod_cast h
  · have h : (a : Rat) / b < 10 ^ 6 := by
      rw [hratio]
      calc (n : Rat) / d * 10 ^ (5 - e) < 10 ^ (e + 1) * 10 ^ (5 - e) :=
            mul_lt_mul_of_pos_right he.2 hpow
        _ = 10 ^ 6 := by
            rw [← zpow_add₀ ten_ne_zero, show e + 1 + (5 - e) = ((6 : Nat) : Int) by omega,
              zpow_natCast]
    rw [div_lt_iff₀ hb'] at h
    exact_mod_cast h

/-- The six digits of `significant` are the ratio exactly if no digit has been rounded. -/
theorem significant_spec {n d : Nat} (hn : 0 < n) (hd : 0 < d) :
    10 ^ 5 ≤ (significant n d).1 ∧ (significant n d).1 < 10 ^ 6 ∧
      ∃ e, InDecade ((n : Rat) / d) e ∧
        (((significant n d).1 : Rat) * 10 ^ ((significant n d).2 - 5) = n / d ↔
          ∃ j : Nat, (n : Rat) / d * 10 ^ (5 - e) = j) := by
  obtain ⟨e, he, hsig⟩ := exists_inDecade hn hd
  obtain ⟨a, b, hb, hratio, hlo, hhi, hround⟩ := exists_ratio hd he
  rw [hround] at hsig
  have hlow : 10 ^ 5 ≤ roundHalfEven a b :=
    ((Nat.le_div_iff_mul_le hb).2 hlo).trans (le_roundHalfEven a b)
  have hhigh : roundHalfEven a b ≤ 10 ^ 6 := by
    have h := roundHalfEven_le a b
    have hdiv := (Nat.div_lt_iff_lt_mul hb).2 hhi
    omega
  have hvalue : ((significant n d).1 : Rat) * 10 ^ ((significant n d).2 - 5) =
      roundHalfEven a b * 10 ^ (e - 5) := by
    rw [hsig]
    split
    · rename_i htop
      rw [htop, show e + 1 - 5 = 1 + (e - 5) by omega, zpow_add₀ ten_ne_zero]
      norm_num
      ring
    · rfl
  have hexact : (roundHalfEven a b : Rat) * 10 ^ (e - 5) = n / d ↔
      (roundHalfEven a b : Rat) = a / b := by
    rw [hratio, show 5 - e = -(e - 5) by omega, zpow_neg, ← div_eq_mul_inv,
      eq_div_iff (zpow_ne_zero _ ten_ne_zero)]
  refine ⟨?_, ?_, e, he, ?_⟩
  · rw [hsig]
    split
    · exact le_rfl
    · exact hlow
  · rw [hsig]
    split
    · norm_num
    · show roundHalfEven a b < 10 ^ 6
      omega
  · rw [hvalue, hexact, roundHalfEven_eq_iff hb, hratio]

/-! ## The texts of the formats -/

/-- Digits without the zeros at their end. -/
theorem exists_zeros (t : Text) : ∃ k,
    t = (t.reverse.dropWhile (· = '0')).reverse ++ List.replicate k '0' := by
  have hzeros : t.reverse.takeWhile (fun c => decide (c = '0')) =
      List.replicate (t.reverse.takeWhile fun c => decide (c = '0')).length '0' :=
    List.eq_replicate_of_mem fun c hc =>
      of_decide_eq_true (List.all_eq_true.1 List.all_takeWhile c hc)
  refine ⟨(t.reverse.takeWhile fun c => decide (c = '0')).length, ?_⟩
  have hsplit := congrArg List.reverse
    (List.takeWhile_append_dropWhile (p := fun c => decide (c = '0')) (l := t.reverse))
  rw [List.reverse_append, List.reverse_reverse, hzeros, List.reverse_replicate] at hsplit
  exact hsplit.symm

/-- Zeros at the end of the digits and the point are left out without a change of the value. -/
theorem unsigned?_pointAfter {digits rest : Text} {n : Nat} (hdigits : AllDigits digits)
    (hn : 0 < n) (hlength : n ≤ digits.length)
    (hrest : ∀ c, rest.head? = some c → c.isDigit = false ∧ c ≠ '.') :
    unsigned? (pointAfter n digits ++ rest) = (exponent? rest).map fun e : Int =>
      (digitsNumber digits : Rat) * 10 ^ (e - (digits.length - n)) := by
  obtain ⟨fraction, hfraction⟩ :
      ∃ f, f = ((digits.drop n).reverse.dropWhile (· = '0')).reverse := ⟨_, rfl⟩
  obtain ⟨k, hk⟩ := exists_zeros (digits.drop n)
  rw [← hfraction] at hk
  have hsplit : digits = digits.take n ++ (fraction ++ List.replicate k '0') := by
    rw [← hk, List.take_append_drop]
  have hall : AllDigits (digits.take n) ∧ AllDigits fraction := by
    rw [hsplit] at hdigits
    have h := List.forall_mem_append.1 hdigits
    exact ⟨h.1, (List.forall_mem_append.1 h.2).1⟩
  have hne : digits.take n ≠ [] := by
    intro h
    have hlen := congrArg List.length h
    rw [List.length_take, List.length_nil] at hlen
    omega
  have hlen : (digits.length : Int) - n = fraction.length + k := by
    have h := congrArg List.length hk
    rw [List.length_drop, List.length_append, List.length_replicate] at h
    omega
  have hnumber : digitsNumber digits = digitsNumber (digits.take n ++ fraction) * 10 ^ k := by
    calc digitsNumber digits
        = digitsNumber (digits.take n ++ (fraction ++ List.replicate k '0')) := by rw [← hsplit]
      _ = _ := by
          rw [← List.append_assoc, Ecma.digitsNumber_append, Ecma.digitsNumber_zeros,
            List.length_replicate, Nat.add_zero]
  have hvalue : ∀ e : Int, (digitsNumber digits : Rat) * 10 ^ (e - (digits.length - n)) =
      digitsNumber (digits.take n ++ fraction) * 10 ^ (e - fraction.length) := by
    intro e
    rw [hnumber, hlen, show e - ((fraction.length : Int) + k) = e - fraction.length - k by omega,
      zpow_sub₀ ten_ne_zero, zpow_natCast]
    push_cast
    have hpow : (10 : Rat) ^ k ≠ 0 := by positivity
    field_simp
  simp only [hvalue]
  unfold pointAfter
  simp only [← hfraction]
  by_cases hempty : fraction = []
  · subst hempty
    rw [if_pos rfl, Ecma.unsigned?_whole hall.1 hne hrest]
    simp
  · rw [if_neg hempty, List.append_assoc, List.cons_append,
      Ecma.unsigned?_point hall.1 hall.2 hne fun c h => (hrest c h).1]

/-- Digits with a point that nothing follows. -/
theorem unsigned?_pointAfter_alone {digits : Text} {n : Nat} (hdigits : AllDigits digits)
    (hn : 0 < n) (hlength : n ≤ digits.length) : unsigned? (pointAfter n digits) =
      some ((digitsNumber digits : Rat) * 10 ^ ((n : Int) - digits.length)) := by
  have hread : unsigned? (pointAfter n digits ++ []) = _ :=
    unsigned?_pointAfter hdigits hn hlength nofun
  rw [List.append_nil] at hread
  rw [hread, show (n : Int) - digits.length = 0 - (digits.length - n) by omega]
  rfl

theorem length_sixDigits {n : Nat} (hn : n < 10 ^ 6) : (sixDigits n).length = 6 := by
  have h := (length_decimal_le_iff (n := n) (k := 6) (by omega)).2 hn
  unfold sixDigits
  rw [List.length_append, List.length_replicate]
  omega

theorem digitsNumber_sixDigits (n : Nat) : digitsNumber (sixDigits n) = n := by
  unfold sixDigits
  rw [Ecma.digitsNumber_append, Ecma.digitsNumber_zeros, digitsNumber_decimal, Nat.zero_mul,
    Nat.zero_add]

theorem allDigits_sixDigits (n : Nat) : AllDigits (sixDigits n) :=
  (Ecma.allDigits_zeros _).append (allDigits_decimal n)

/-- The sign of a double before the text of its magnitude. -/
theorem numeral?_signed {s : Bool} {t : Text} {q : Rat}
    (hhead : ∃ c u, t = c :: u ∧ c.isDigit = true) (hvalue : unsigned? t = some q) :
    numeral? ((if s then ['-'] else []) ++ t) = some ((if s then -1 else 1) * q) := by
  cases s with
  | true =>
    show (unsigned? t).map (- ·) = some (-1 * q)
    rw [hvalue, Option.map_some, neg_one_mul]
  | false =>
    obtain ⟨c, u, rfl, hdigit⟩ := hhead
    show numeral? (c :: u) = some (1 * q)
    rw [Ecma.numeral?_cons hdigit, hvalue, one_mul]

theorem head_allDigits {t u : Text} (ht : AllDigits t) (hne : t ≠ []) :
    ∃ c w, t ++ u = c :: w ∧ c.isDigit = true := by
  cases t with
  | nil => exact absurd rfl hne
  | cons c t => exact ⟨c, t ++ u, rfl, ht c List.mem_cons_self⟩

theorem head_pointAfter {n : Nat} {digits : Text} (hn : 0 < n) (hdigits : AllDigits digits)
    (hne : digits ≠ []) : ∃ c u, pointAfter n digits = c :: u ∧ c.isDigit = true := by
  cases digits with
  | nil => exact absurd rfl hne
  | cons c digits =>
    obtain ⟨n, rfl⟩ : ∃ k, n = k + 1 := ⟨n - 1, by omega⟩
    have hc : c.isDigit = true := hdigits c List.mem_cons_self
    unfold pointAfter
    dsimp only
    split
    · exact ⟨c, digits.take n, rfl, hc⟩
    · exact ⟨c, _, rfl, hc⟩

theorem scaled_pos {m : Nat} (hm : 0 < m) (e : Int) :
    0 < (scaled m 1 (-e)).1 ∧ 0 < (scaled m 1 (-e)).2 := by
  unfold scaled
  split <;> exact ⟨by positivity, by positivity⟩

section

variable {s : Bool} {m : Nat} {e : Int} {h : Canonical m e}

/-- What `std::to_string` writes of a finite double. -/
theorem numeral?_toText : numeral? (finite s m e h).toText = some ((if s then -1 else 1) *
    ((roundHalfEven ((scaled m 1 (-e)).1 * 10 ^ 6) (scaled m 1 (-e)).2 : Nat) / 10 ^ 6 : Rat)) := by
  obtain ⟨n, hn⟩ : ∃ n, n = roundHalfEven ((scaled m 1 (-e)).1 * 10 ^ 6) (scaled m 1 (-e)).2 :=
    ⟨_, rfl⟩
  rw [toText_finite, ← hn, List.append_assoc]
  apply numeral?_signed (head_allDigits (allDigits_decimal _) (decimal_ne_nil _))
  have hmod : n % 10 ^ 6 < 10 ^ 6 := Nat.mod_lt _ (by norm_num)
  have hnumber : digitsNumber (decimal (n / 10 ^ 6) ++ sixDigits (n % 10 ^ 6)) = n := by
    rw [Ecma.digitsNumber_append, digitsNumber_decimal, digitsNumber_sixDigits,
      length_sixDigits hmod]
    omega
  have hread : unsigned? (decimal (n / 10 ^ 6) ++ '.' :: (sixDigits (n % 10 ^ 6) ++ [])) = _ :=
    Ecma.unsigned?_point (allDigits_decimal _) (allDigits_sixDigits _) (decimal_ne_nil _) nofun
  rw [List.append_nil] at hread
  rw [hread, hnumber, length_sixDigits hmod]
  show some ((n : Rat) * 10 ^ (0 - ((6 : Nat) : Int))) = _
  rw [zero_sub, zpow_neg, zpow_natCast, div_eq_mul_inv]

/-- The text of a stream for a magnitude with the digits `digits`. -/
def magnitudeText (digits : Nat × Int) : Text :=
  if digits.2 < -4 ∨ 6 ≤ digits.2 then
    pointAfter 1 (decimal digits.1) ++ 'e' :: (if digits.2 < 0 then '-' else '+') ::
      (List.replicate (2 - (decimal digits.2.natAbs).length) '0' ++ decimal digits.2.natAbs)
  else if digits.2 < 0 then
    pointAfter 1 (List.replicate (-digits.2).toNat '0' ++ decimal digits.1)
  else pointAfter (digits.2.toNat + 1) (decimal digits.1)

theorem streamed_finite (s : Bool) (h : Canonical m e) : (finite s m e h).streamed =
    (if s then ['-'] else []) ++ (if m = 0 then ['0'] else
      magnitudeText (significant (scaled m 1 (-e)).1 (scaled m 1 (-e)).2)) := by
  cases s <;> rfl

theorem length_decimal_six {n : Nat} (hlo : 10 ^ 5 ≤ n) (hhi : n < 10 ^ 6) :
    (decimal n).length = 6 := by
  have h₁ := (length_decimal_le_iff (n := n) (k := 6) (by omega)).2 hhi
  have h₂ := mt (length_decimal_le_iff (n := n) (k := 5) (by omega)).1 (by omega)
  omega

/-- Each of the three notations denotes the digits with the point behind the first of them. -/
theorem unsigned?_magnitudeText {n : Nat} {e : Int} (hlo : 10 ^ 5 ≤ n) (hhi : n < 10 ^ 6) :
    (∃ c u, magnitudeText (n, e) = c :: u ∧ c.isDigit = true) ∧
      unsigned? (magnitudeText (n, e)) = some ((n : Rat) * 10 ^ (e - 5)) := by
  have hlength := length_decimal_six hlo hhi
  have hall := allDigits_decimal n
  have hne := decimal_ne_nil n
  unfold magnitudeText
  dsimp only
  by_cases hscientific : e < -4 ∨ 6 ≤ e
  · rw [if_pos hscientific]
    have hdigits := (Ecma.allDigits_zeros (2 - (decimal e.natAbs).length)).append
      (allDigits_decimal e.natAbs)
    have hnumber : digitsNumber (List.replicate (2 - (decimal e.natAbs).length) '0' ++
        decimal e.natAbs) = e.natAbs := by
      rw [Ecma.digitsNumber_append, Ecma.digitsNumber_zeros, digitsNumber_decimal, Nat.zero_mul,
        Nat.zero_add]
    have hexponent := Ecma.exponent?_signed e hdigits (by simp [decimal_ne_nil]) rfl hnumber
    obtain ⟨c, u, hhead, hdigit⟩ := head_pointAfter Nat.one_pos hall hne
    refine ⟨⟨c, _, by rw [hhead]; rfl, hdigit⟩, ?_⟩
    rw [unsigned?_pointAfter hall Nat.one_pos (hlength ▸ by omega), hexponent,
      digitsNumber_decimal, hlength]
    · rfl
    · intro c hc
      cases hc
      decide
  · rw [if_neg hscientific]
    by_cases hneg : e < 0
    · obtain ⟨k, rfl⟩ : ∃ k : Nat, e = -k := ⟨(-e).toNat, by omega⟩
      have hzeros := (Ecma.allDigits_zeros k).append hall
      have hcount : (List.replicate k '0' ++ decimal n).length = k + 6 := by
        rw [List.length_append, hlength, List.length_replicate]
      rw [if_pos hneg, neg_neg, Int.toNat_natCast]
      refine ⟨head_pointAfter Nat.one_pos hzeros (by simp [hne]), ?_⟩
      rw [unsigned?_pointAfter_alone hzeros Nat.one_pos (by omega), hcount,
        Ecma.digitsNumber_append, Ecma.digitsNumber_zeros, digitsNumber_decimal, Nat.zero_mul,
        Nat.zero_add, show ((1 : Nat) : Int) - ((k + 6 : Nat) : Int) = -k - 5 by omega]
    · obtain ⟨k, rfl⟩ : ∃ k : Nat, e = k := ⟨e.toNat, by omega⟩
      rw [if_neg hneg, Int.toNat_natCast]
      refine ⟨head_pointAfter k.succ_pos hall hne, ?_⟩
      rw [unsigned?_pointAfter_alone hall k.succ_pos (by omega), hlength, digitsNumber_decimal,
        show ((k + 1 : Nat) : Int) - ((6 : Nat) : Int) = k - 5 by omega]

/-- What a stream writes of a finite double. -/
theorem numeral?_streamed (hm : 0 < m) : numeral? (finite s m e h).streamed =
    some ((if s then -1 else 1) * ((significant (scaled m 1 (-e)).1 (scaled m 1 (-e)).2).1 *
      10 ^ ((significant (scaled m 1 (-e)).1 (scaled m 1 (-e)).2).2 - 5) : Rat)) := by
  obtain ⟨hpos, hpos'⟩ := scaled_pos hm e
  obtain ⟨hlo, hhi, -⟩ := significant_spec hpos hpos'
  obtain ⟨hhead, hvalue⟩ := unsigned?_magnitudeText
    (e := (significant (scaled m 1 (-e)).1 (scaled m 1 (-e)).2).2) hlo hhi
  rw [streamed_finite, if_neg hm.ne']
  exact numeral?_signed hhead hvalue

/-- Zero is written as zero by both. -/
theorem numeral?_zero (h : Canonical 0 e) :
    numeral? (finite s 0 e h).toText = some 0 ∧ numeral? (finite s 0 e h).streamed = some 0 := by
  constructor
  · have hzero : (scaled 0 1 (-e)).1 = 0 := by
      unfold scaled
      split
      · rfl
      · exact Nat.zero_mul _
    rw [numeral?_toText, hzero]
    simp [roundHalfEven]
  · rw [streamed_finite, if_pos rfl]
    have hread : unsigned? (List.replicate 1 '0' ++ []) = some 0 := by
      rw [Ecma.unsigned?_whole (Ecma.allDigits_zeros 1) (by decide) (by simp),
        Ecma.digitsNumber_zeros]
      show some (((0 : Nat) : Rat) * 10 ^ (0 : Int)) = some 0
      simp
    rw [numeral?_signed ⟨'0', [], rfl, by decide⟩ hread, mul_zero]

/-- The text of a stream has no NUL. -/
theorem nul_not_mem_streamed : '\x00' ∉ (finite s m e h).streamed := by
  have hdigits : ∀ {t : Text}, AllDigits t → '\x00' ∉ t := fun ht hmem =>
    absurd (ht _ hmem) (by decide)
  have hpoint : ∀ {n : Nat} {t : Text}, AllDigits t → '\x00' ∉ pointAfter n t := by
    intro n t ht hmem
    have hdrop : ∀ c ∈ ((t.drop n).reverse.dropWhile (· = '0')).reverse, c.isDigit = true :=
      fun c hc => ht c (List.mem_of_mem_drop (List.mem_reverse.1
        ((List.dropWhile_sublist _).subset (List.mem_reverse.1 hc))))
    have htake : AllDigits (t.take n) := fun c hc => ht c (List.mem_of_mem_take hc)
    unfold pointAfter at hmem
    dsimp only at hmem
    split at hmem
    · exact hdigits htake hmem
    · rcases List.mem_append.1 hmem with hmem | hmem
      · exact hdigits htake hmem
      · exact hdigits hdrop ((List.mem_cons.1 hmem).resolve_left (by decide))
  have hmagnitude : ∀ digits : Nat × Int, '\x00' ∉ magnitudeText digits := by
    intro digits hmem
    have hzeros : ∀ k n : Nat, AllDigits (List.replicate k '0' ++ decimal n) := fun k n =>
      (Ecma.allDigits_zeros k).append (allDigits_decimal n)
    unfold magnitudeText at hmem
    split at hmem
    · rcases List.mem_append.1 hmem with hmem | hmem
      · exact hpoint (allDigits_decimal _) hmem
      · have hsign : '\x00' ≠ if digits.2 < 0 then '-' else '+' := by split <;> decide
        have hrest := (List.mem_cons.1 hmem).resolve_left (by decide)
        exact hdigits (hzeros _ _) ((List.mem_cons.1 hrest).resolve_left hsign)
    · split at hmem
      · exact hpoint (hzeros _ _) hmem
      · exact hpoint (allDigits_decimal _) hmem
  rw [streamed_finite, List.mem_append]
  apply not_or.2
  refine ⟨by cases s <;> decide, ?_⟩
  split
  · decide
  · exact hmagnitude _

theorem ratio_scaled (m : Nat) (e : Int) :
    ((scaled m 1 (-e)).1 : Rat) / (scaled m 1 (-e)).2 = m * 2 ^ e := by
  unfold scaled
  split
  · obtain ⟨k, rfl⟩ : ∃ k : Nat, e = -k := ⟨(-e).toNat, by omega⟩
    simp [div_eq_mul_inv]
  · obtain ⟨k, rfl⟩ : ∃ k : Nat, e = k := ⟨e.toNat, by omega⟩
    simp

end

/-! ## The value in the two texts -/

/-- A value of at most six significant digits, none of them behind the sixth place after the
point. -/
def Short (q : Rat) : Prop := ∃ z k : Int, z.natAbs < 10 ^ 6 ∧ -6 ≤ k ∧ q = z * 10 ^ k

/-- A positive value is short if neither format rounds it. -/
theorem short_iff {q : Rat} {e : Int} (he : InDecade q e) :
    Short q ↔ (∃ j : Nat, q * 10 ^ 6 = j) ∧ ∃ j : Nat, q * 10 ^ (5 - e) = j := by
  have hpos : 0 < q := lt_of_lt_of_le (by positivity) he.1
  constructor
  · rintro ⟨z, k, hz, hk, rfl⟩
    have hzpos : 0 < z := by
      have h := (mul_pos_iff_of_pos_right (zpow_pos (by norm_num) k)).1 hpos
      exact_mod_cast h
    obtain ⟨n, rfl⟩ : ∃ n : Nat, z = n := ⟨z.toNat, by omega⟩
    -- one that is rounded to six significant digits would be below the power of ten
    have hgrid : 0 ≤ k + (5 - e) := by
      by_contra hlt
      have hlow : (10 : Rat) ^ e ≤ n * 10 ^ k := by exact_mod_cast he.1
      have hn : (n : Rat) < 10 ^ ((6 : Nat) : Int) := by
        rw [zpow_natCast]
        exact_mod_cast (by omega : n < 10 ^ 6)
      have hlt' : (n : Rat) * 10 ^ k < 10 ^ e := by
        calc (n : Rat) * 10 ^ k < 10 ^ ((6 : Nat) : Int) * 10 ^ k := by gcongr
          _ = 10 ^ (6 + k) := by rw [← zpow_add₀ ten_ne_zero, Nat.cast_ofNat]
          _ ≤ 10 ^ e := zpow_le_zpow_right₀ (by norm_num) (by omega)
      exact absurd hlow (not_le.2 hlt')
    have hexact : ∀ i : Int, 0 ≤ k + i → ∃ j : Nat, ((n : Int) : Rat) * 10 ^ k * 10 ^ i = j := by
      intro i hi
      obtain ⟨l, hl⟩ : ∃ l : Nat, k + i = l := ⟨(k + i).toNat, by omega⟩
      refine ⟨n * 10 ^ l, ?_⟩
      rw [mul_assoc, ← zpow_add₀ ten_ne_zero, hl, zpow_natCast]
      push_cast
      rfl
    have hsix := hexact ((6 : Nat) : Int) (by omega)
    rw [zpow_natCast] at hsix
    exact ⟨hsix, hexact (5 - e) hgrid⟩
  · rintro ⟨⟨j, hj⟩, ⟨i, hi⟩⟩
    by_cases h : e ≤ -1
    · -- the millionths have six digits at most
      refine ⟨j, -6, ?_, le_rfl, ?_⟩
      · have hlt : (j : Rat) < 10 ^ 6 := by
          rw [← hj]
          have hone : q < 1 := he.2.trans_le
            ((zpow_le_zpow_right₀ (by norm_num) (by omega)).trans_eq (zpow_zero _))
          calc q * 10 ^ 6 < 1 * 10 ^ 6 := by gcongr
            _ = 10 ^ 6 := one_mul _
        exact_mod_cast hlt
      · rw [Int.cast_natCast, ← hj, mul_assoc]
        norm_num
    · refine ⟨i, e - 5, ?_, by omega, ?_⟩
      · have hlt : (i : Rat) < 10 ^ 6 := by
          rw [← hi]
          calc q * 10 ^ (5 - e) < 10 ^ (e + 1) * 10 ^ (5 - e) := by gcongr; exact he.2
            _ = 10 ^ 6 := by
              rw [← zpow_add₀ ten_ne_zero, show e + 1 + (5 - e) = ((6 : Nat) : Int) by omega,
                zpow_natCast]
        exact_mod_cast hlt
      · rw [Int.cast_natCast, ← hi, mul_assoc, ← zpow_add₀ ten_ne_zero,
          show 5 - e + (e - 5) = 0 by omega, zpow_zero, mul_one]

theorem short_neg {q : Rat} : Short (-q) ↔ Short q := by
  have hneg : ∀ {q : Rat}, Short q → Short (-q) := by
    rintro q ⟨z, k, hz, hk, rfl⟩
    exact ⟨-z, k, by omega, hk, by push_cast; ring⟩
  refine ⟨fun h => ?_, hneg⟩
  rw [← neg_neg q]
  exact hneg h

end Double

/-- Where the visitor writes a double literal and where a print block over it becomes a raw block,
the text denotes the exact value. -/
structure KeepsValue (v : Double) : Prop where
  number : ∀ fuel, ∃ t, (Expr.doubleLiteral v).text fuel = .ok t ∧ numeral? t = some v.value
  raw : ∃ t, convertLiteralPrintBlock (.doubleLiteral v) = .rawBlock t ∧ numeral? t = some v.value

theorem keepsValue_iff_texts {s : Bool} {m : Nat} {e : Int} {h : Canonical m e} :
    KeepsValue (.finite s m e h) ↔
      numeral? (Double.finite s m e h).toText = some (Double.finite s m e h).value ∧
      numeral? (Double.finite s m e h).streamed = some (Double.finite s m e h).value := by
  have hraw : convertLiteralPrintBlock (.doubleLiteral (.finite s m e h)) =
      .rawBlock (Double.finite s m e h).streamed :=
    congrArg AST.rawBlock (cString_eq_self Double.nul_not_mem_streamed)
  constructor
  · rintro ⟨hnumber, t, ht, hvalue⟩
    obtain ⟨u, hu, hnum⟩ := hnumber 0
    cases hu
    rw [hraw] at ht
    cases ht
    exact ⟨hnum, hvalue⟩
  · intro h
    exact ⟨fun _ => ⟨_, rfl, h.1⟩, _, hraw, h.2⟩

/-- Both texts have the value of a double exactly if it is short. -/
theorem keepsValue_iff (s : Bool) (m : Nat) (e : Int) (h : Canonical m e) :
    KeepsValue (.finite s m e h) ↔ Double.Short (Double.finite s m e h).value := by
  rw [keepsValue_iff_texts, Double.value_finite]
  have hsign : (if s then -1 else 1 : Rat) ≠ 0 := by split <;> norm_num
  have hshort : Double.Short ((if s then -1 else 1) * ((m : Rat) * 2 ^ e)) ↔
      Double.Short ((m : Rat) * 2 ^ e) := by
    cases s with
    | true =>
      show Double.Short (-1 * ((m : Rat) * 2 ^ e)) ↔ _
      rw [neg_one_mul, Double.short_neg]
    | false =>
      show Double.Short (1 * ((m : Rat) * 2 ^ e)) ↔ _
      rw [one_mul]
  rw [hshort]
  rcases m.eq_zero_or_pos with rfl | hm
  · have hzero : ((0 : Nat) : Rat) * 2 ^ e = 0 := by simp
    obtain ⟨hnumber, hraw⟩ := Double.numeral?_zero (s := s) h
    rw [hzero, mul_zero]
    exact iff_of_true ⟨hnumber, hraw⟩ ⟨0, 0, by norm_num, by norm_num, by norm_num⟩
  · obtain ⟨n, d, hn, hd, hscaled, hratio⟩ : ∃ n d : Nat, 0 < n ∧ 0 < d ∧
        Double.scaled m 1 (-e) = (n, d) ∧ (n : Rat) / d = m * 2 ^ e := by
      obtain ⟨hn, hd⟩ := Double.scaled_pos hm e
      exact ⟨_, _, hn, hd, rfl, Double.ratio_scaled m e⟩
    obtain ⟨-, -, k, hk, hexact⟩ := Double.significant_spec hn hd
    rw [Double.numeral?_toText, Double.numeral?_streamed hm, hscaled, ← hratio,
      Double.short_iff hk]
    simp only [Option.some.injEq, mul_right_inj' hsign, hexact]
    apply and_congr_left'
    have hd' : (d : Rat) ≠ 0 := by exact_mod_cast hd.ne'
    have hmillionths : ((n * 10 ^ 6 : Nat) : Rat) / d = n / d * 10 ^ 6 := by
      push_cast
      ring
    rw [← hmillionths, ← Double.roundHalfEven_eq_iff hd, hmillionths, div_eq_iff (by norm_num)]

/-- `1.5` -/
theorem keepsValue_oneAndHalf :
    KeepsValue (.finite false (3 * 2 ^ 51) (-52) (by decide)) :=
  (keepsValue_iff false (3 * 2 ^ 51) (-52) (by decide)).2
    ⟨15, -1, by norm_num, by norm_num, by rw [Double.value_finite]; norm_num⟩

/-- `{{ 1234567.0 }}` -/
theorem not_keepsValue_sevenDigits :
    convertLiteralPrintBlock (.doubleLiteral (.ofText "1234567.0".toList)) =
        .rawBlock "1.23457e+06".toList ∧
      ¬KeepsValue (.ofText "1234567.0".toList) := by
  have hraw : convertLiteralPrintBlock (.doubleLiteral (.ofText "1234567.0".toList)) =
      .rawBlock "1.23457e+06".toList := congrArg AST.rawBlock (by decide +kernel)
  refine ⟨hraw, ?_⟩
  rintro ⟨-, t, ht, hvalue⟩
  rw [hraw] at ht
  cases ht
  exact absurd hvalue (by decide +kernel)

end B2
