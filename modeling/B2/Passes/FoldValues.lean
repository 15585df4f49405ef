import B2.Passes.FoldedTrees
import B2.Passes.FoldOverflow
import B2.Passes.VariablePasses
import Mathlib.Data.Rat.Lemmas
import Mathlib.Algebra.Order.Field.Rat
import Mathlib.Algebra.Order.Ring.Abs
import Mathlib.Tactic.FieldSimp

/-!
# The value JavaScript computes

`jsValue` is the value of an arithmetic tree where numbers are exact rationals,
as the generated code computes it while nothing leaves the 53 bits of a number.
The visitor writes an integer division as `/`, which is not truncated there, so
a folded tree denotes this value as long as every division comes out even.

The integers a template gets are literals in the tree or the values of variables
at run time; `atCompileTime` puts the first in the place of the second.
-/

namespace B2

/-! ## Numbers -/

/-- The integer part of a number. -/
def integerPart (q : ℚ) : Int := q.num.tdiv q.den

/-- An operator of JavaScript on numbers; none where it yields no number. -/
def jsOperation (op : BinaryOperation) (a b : ℚ) : Option ℚ :=
  match op with
  | .addition => some (a + b)
  | .subtraction => some (a - b)
  | .multiplication => some (a * b)
  | .division => if b = 0 then none else some (a / b)
  | .modulus => if b = 0 then none else some (a - b * integerPart (a / b))

theorem integerPart_div (a : Int) {b : Int} (hb : b ≠ 0) :
    integerPart ((a : ℚ) / b) = a.tdiv b := by
  obtain ⟨c, ha, hbc⟩ := Rat.exists_eq_mul_div_num_and_eq_mul_div_den a hb
  have hc : c ≠ 0 := by
    rintro rfl
    exact hb (by rw [hbc, zero_mul])
  unfold integerPart
  generalize (a / b : ℚ).num = n at ha ⊢
  generalize (a / b : ℚ).den = d at hbc ⊢
  rw [ha, hbc]
  rcases lt_or_gt_of_ne hc with hneg | hpos
  · have hflip : ∀ z : Int, c * z = -(-c * z) := by intro z; ring
    rw [hflip, hflip, Int.neg_tdiv, Int.tdiv_neg, neg_neg, Int.mul_tdiv_mul_of_pos _ _ (by omega)]
  · rw [Int.mul_tdiv_mul_of_pos _ _ hpos]

/-- On integers only the division differs from that of the pass. -/
theorem jsOperation_intCast {op : BinaryOperation} {a b : Int} {q : ℚ}
    (h : jsOperation op a b = some q) (hdiv : op = .division → ∃ z : Int, q = z) :
    ∃ z : Int, exactResult op a b = some z ∧ q = z := by
  cases op with
  | addition | subtraction | multiplication =>
    simp only [jsOperation, Option.some.injEq] at h
    exact ⟨_, rfl, by rw [← h]; push_cast; rfl⟩
  | division =>
    simp only [jsOperation, Int.cast_eq_zero, Option.ite_none_left_eq_some, Option.some.injEq] at h
    obtain ⟨hb, rfl⟩ := h
    obtain ⟨z, hz⟩ := hdiv rfl
    have hab : a = z * b := by
      have hb' : (b : ℚ) ≠ 0 := by exact_mod_cast hb
      rw [div_eq_iff hb'] at hz
      exact_mod_cast hz
    refine ⟨z, ?_, hz⟩
    rw [exactResult, if_neg hb, hab, Int.mul_tdiv_cancel _ hb]
  | modulus =>
    simp only [jsOperation, Int.cast_eq_zero, Option.ite_none_left_eq_some, Option.some.injEq] at h
    obtain ⟨hb, rfl⟩ := h
    refine ⟨a.tmod b, by rw [exactResult, if_neg hb], ?_⟩
    rw [integerPart_div a hb, Int.tmod_def]
    push_cast
    rfl

/-! ## Trees -/

namespace Expr

/-- The value of an arithmetic tree at run time, where `data` holds the integers. -/
def jsValue (data : Text → Int64) : Expression → Option ℚ
  | .integerLiteral v => some v.toInt
  | .variableReference x => some (data x).toInt
  | .binaryOperation l r op =>
    match l.jsValue data, r.jsValue data with
    | some a, some b => jsOperation op a b
    | _, _ => none
  | .unaryOperation e op =>
    match e.jsValue data, signMultiplier op with
    | some a, some multiplier => some (a * multiplier)
    | _, _ => none
  | _ => none

/-- The tree with the integers put in for its variables. -/
def atCompileTime (data : Text → Int64) (e : Expression) : Expression :=
  e.bind fun x => .integerLiteral (data x)

/-- Every value computed on the way is exact in 53 bits. -/
def StaysExact (data : Text → Int64) (e : Expression) : Prop :=
  ∀ p s, e.subexpressionAt p = some s → ∃ q, s.jsValue data = some q ∧ |q| ≤ 2 ^ 53

/-- Every division comes out even. -/
def DividesEvenly (data : Text → Int64) (e : Expression) : Prop :=
  ∀ p l r, e.subexpressionAt p = some (.binaryOperation l r .division) →
    ∃ z : Int, jsValue data (.binaryOperation l r .division) = some z

/-- The literal the pass makes denotes the value at run time. -/
def FoldsToValue (data : Text → Int64) (e : Expression) : Prop :=
  ∃ v, foldConstantExpressions (e.atCompileTime data) = .ok (.integerLiteral v) ∧
    e.jsValue data = some (v.toInt : ℚ)

variable {data : Text → Int64} {e c : Expression}

theorem proper_of_jsValue (e : Expression) : ∀ q, e.jsValue data = some q → e.Proper := by
  induction e using Expr.ind with
  | binaryOperation l r op ihl ihr =>
    intro q hq
    cases hl : l.jsValue data with
    | none => simp [jsValue, hl] at hq
    | some a =>
      cases hr : r.jsValue data with
      | none => simp [jsValue, hl, hr] at hq
      | some b => exact ⟨ihl a hl, ihr b hr⟩
  | unaryOperation e op ih =>
    intro q hq
    cases he : e.jsValue data with
    | none => simp [jsValue, he] at hq
    | some a => exact ih a he
  | methodCall m args => exact nofun
  | getAttribute v a => exact nofun
  | comparison l r op => exact nofun
  | _ => exact fun _ _ => trivial

/-- Include arguments are put in at compile time. -/
theorem replaceVariableReferences_atCompileTime {includeFilename : Text} {M : StringExpressionMap}
    {q : ℚ} (hq : e.jsValue data = some q)
    (hM : ∀ x ∈ e.references, M.find x = some (.integerLiteral (data x))) :
    ∀ n, e.depth ≤ n →
      (IncludeContext.replaceVariableReferencesPass includeFilename M).process n e =
        .ok (e.atCompileTime data) := by
  intro n hn
  refine (ExpressionPass.process_eq_substitute _ e n hn).trans ?_
  exact IncludeContext.substitute_mapped (e.proper_of_jsValue q hq) fun x hx => ⟨_, hM x hx, rfl⟩

theorem subexpressionAt_append {s s' : Expression} : ∀ {p p' : List Nat} {e : Expression},
    e.subexpressionAt p = some s → s.subexpressionAt p' = some s' →
      e.subexpressionAt (p ++ p') = some s'
  | [], p', e, h, h' => by
    cases h
    exact h'
  | i :: p, p', e, h, h' => by
    obtain ⟨c, hc, h⟩ := subexpressionAt_cons.1 h
    exact subexpressionAt_cons.2 ⟨c, hc, subexpressionAt_append h h'⟩

theorem StaysExact.subexpression (h : e.StaysExact data) {p : List Nat}
    (hc : e.subexpressionAt p = some c) : c.StaysExact data :=
  fun _ s hs => h _ s (subexpressionAt_append hc hs)

theorem DividesEvenly.subexpression (h : e.DividesEvenly data) {p : List Nat}
    (hc : e.subexpressionAt p = some c) : c.DividesEvenly data :=
  fun _ l r hs => h _ l r (subexpressionAt_append hc hs)

/-- A tree stays exact when its value is in range and its operands stay exact. -/
theorem staysExact_of_children (h : ∃ q, e.jsValue data = some q ∧ |q| ≤ 2 ^ 53)
    (hc : ∀ c, some c ∈ e.children → c.StaysExact data) : e.StaysExact data
  | [], s, hs => by
    cases hs
    exact h
  | i :: p, s, hs => by
    obtain ⟨c, hi, hs⟩ := subexpressionAt_cons.1 hs
    exact hc c (List.mem_of_getElem? hi) p s hs

theorem fitsLong_of_abs {z : Int} (h : |(z : ℚ)| ≤ 2 ^ 53) : FitsLong z := by
  have hz : |z| ≤ 2 ^ 53 := by exact_mod_cast h
  rw [abs_le] at hz
  unfold FitsLong
  omega

/-- Where the exact result and the left operand are in range, so is the quotient of `%`. -/
theorem fitsLong_criticalResult {op : BinaryOperation} {a b : Int64} {z : Int}
    (hz : exactResult op a.toInt b.toInt = some z) (ha : |(a.toInt : ℚ)| ≤ 2 ^ 53)
    (hfits : |(z : ℚ)| ≤ 2 ^ 53) : FitsLong (criticalResult op a.toInt b.toInt) := by
  cases op with
  | addition | subtraction | multiplication =>
    cases hz
    exact fitsLong_of_abs hfits
  | division | modulus =>
    have hle := Int.natAbs_tdiv_le_natAbs a.toInt b.toInt
    have ha' : |a.toInt| ≤ 2 ^ 53 := by exact_mod_cast ha
    rw [abs_le] at ha'
    simp only [FitsLong, criticalResult]
    omega

theorem foldBinaryOperation_denotes {op : BinaryOperation} {a b : Int64} {z : Int}
    (hz : exactResult op a.toInt b.toInt = some z)
    (hfits : FitsLong (criticalResult op a.toInt b.toInt)) :
    ∃ v, foldBinaryOperation (.integerLiteral a) (.integerLiteral b) op =
      .ok (.integerLiteral v) ∧ v.toInt = z := by
  have hstop : binaryStop op (some a.toInt) (some b.toInt) = none := by
    rw [binaryStop, if_neg (by simp [hz]), if_pos hfits]
  have hrun := foldLongs_stops a b op (P := fun e => ∃ v, e = .integerLiteral v ∧ v.toInt = z)
    fun v hv => ⟨v, rfl, Option.some.inj (hv.symm.trans hz)⟩
  rw [hstop] at hrun
  obtain ⟨⟨e, he, v, rfl, hv⟩, -⟩ := hrun
  exact ⟨v, he, hv⟩

theorem foldUnaryOperation_denotes {op : UnaryOperation} {a : Int64} {multiplier : Int}
    (hop : signMultiplier op = some multiplier) (hfits : FitsLong (a.toInt * multiplier)) :
    ∃ v, foldUnaryOperation (.integerLiteral a) op = .ok (.integerLiteral v) ∧
      v.toInt = a.toInt * multiplier := by
  refine ⟨.ofInt (a.toInt * multiplier), ?_, Int64.toInt_ofInt_of_le hfits.1 hfits.2⟩
  cases op with
  | booleanNegation => cases hop
  | numericPositive | numericNegative =>
    cases hop
    simp only [foldUnaryOperation, foldSign, reduceCtorEq, if_true, if_false,
      checkedLong_of_fits hfits]
    rfl

/-- A tree that stays exact and divides evenly folds to its value at run time. -/
theorem foldsToValue_of_dividesEvenly (e : Expression) : e.StaysExact data →
    e.DividesEvenly data → e.FoldsToValue data := by
  unfold FoldsToValue
  rw [foldConstantExpressions_eq_fold]
  induction e using Expr.ind with
  | integerLiteral v => exact fun _ _ => ⟨v, rfl, rfl⟩
  | variableReference x => exact fun _ _ => ⟨data x, rfl, rfl⟩
  | binaryOperation l r op ihl ihr =>
    intro hexact heven
    have hexact₁ : l.StaysExact data := hexact.subexpression (p := [0]) rfl
    obtain ⟨a, hl, ha⟩ := ihl hexact₁ (heven.subexpression (p := [0]) rfl)
    obtain ⟨b, hr, hb⟩ :=
      ihr (hexact.subexpression (p := [1]) rfl) (heven.subexpression (p := [1]) rfl)
    obtain ⟨q, hq, hrange⟩ := hexact [] _ rfl
    have hop : jsOperation op a.toInt b.toInt = some q := by
      simpa only [jsValue, ha, hb] using hq
    obtain ⟨z, hz, rfl⟩ := jsOperation_intCast hop fun hdiv => by
      subst hdiv
      obtain ⟨z, hz⟩ := heven [] l r rfl
      exact ⟨z, Option.some.inj (hq.symm.trans hz)⟩
    have hleft : |(a.toInt : ℚ)| ≤ 2 ^ 53 := by
      obtain ⟨q, hq, h⟩ := hexact₁ [] l rfl
      rwa [Option.some.inj (hq.symm.trans ha)] at h
    obtain ⟨v, hv, rfl⟩ :=
      foldBinaryOperation_denotes hz (fitsLong_criticalResult hz hleft hrange)
    refine ⟨v, ?_, hq⟩
    show (do
      let left ← (l.atCompileTime data).fold
      let right ← (r.atCompileTime data).fold
      foldBinaryOperation left right op) = _
    rw [hl, hr]
    exact hv
  | unaryOperation e op ih =>
    intro hexact heven
    obtain ⟨a, he, ha⟩ :=
      ih (hexact.subexpression (p := [0]) rfl) (heven.subexpression (p := [0]) rfl)
    obtain ⟨q, hq, hrange⟩ := hexact [] _ rfl
    cases hop : signMultiplier op with
    | none => simp [jsValue, hop] at hq
    | some multiplier =>
      simp only [jsValue, ha, hop, Option.some.injEq] at hq
      subst hq
      have hfits : FitsLong (a.toInt * multiplier) :=
        fitsLong_of_abs (by rw [Int.cast_mul]; exact hrange)
      obtain ⟨v, hv, hval⟩ := foldUnaryOperation_denotes hop hfits
      refine ⟨v, ?_, ?_⟩
      · show (do foldUnaryOperation (← (e.atCompileTime data).fold) op) = _
        rw [he]
        exact hv
      · simp only [jsValue, ha, hop, hval, Int.cast_mul]
  | getAttribute | methodCall | doubleLiteral | booleanLiteral | stringLiteral | comparison =>
    intro hexact
    obtain ⟨q, hq, -⟩ := hexact [] _ rfl
    cases hq

/-- Every position of a tree that stays exact folds to its value at run time exactly when the
divisions come out even. -/
theorem foldsToValue_iff (h : e.StaysExact data) :
    (∀ p s, e.subexpressionAt p = some s → s.FoldsToValue data) ↔ e.DividesEvenly data := by
  refine ⟨fun hfolds p l r hp => ?_, fun heven p s hp => ?_⟩
  · obtain ⟨v, -, hv⟩ := hfolds p _ hp
    exact ⟨v.toInt, hv⟩
  · exact s.foldsToValue_of_dividesEvenly (h.subexpression hp) (heven.subexpression hp)

theorem staysExact_integerLiteral {v : Int64} (h : |(v.toInt : ℚ)| ≤ 2 ^ 53) :
    (Expr.integerLiteral v : Expression).StaysExact data :=
  staysExact_of_children ⟨_, rfl, h⟩ (by simp [children])

/-- `6 / x` where `x` is 3. -/
theorem foldsToValue_iff_even :
    let e : Expression :=
      .binaryOperation (.integerLiteral 6) (.variableReference ['x']) .division
    (∀ p s, e.subexpressionAt p = some s → s.FoldsToValue fun _ => 3) ↔
      e.DividesEvenly fun _ => 3 := by
  intro e
  have hthree : (Int64.toInt 3 : ℚ) = 3 := by norm_cast
  have hsix : (Int64.toInt 6 : ℚ) = 6 := by norm_cast
  refine foldsToValue_iff (staysExact_of_children ⟨2, ?_, by norm_num⟩ ?_)
  · simp only [e, jsValue, jsOperation, hthree, hsix]
    norm_num
  · simp only [e, children, List.mem_cons, Option.some.injEq, List.not_mem_nil, or_false]
    rintro c (rfl | rfl)
    · exact staysExact_integerLiteral (by rw [hsix]; norm_num)
    · exact staysExact_of_children ⟨_, rfl, by rw [hthree]; norm_num⟩ (by simp [children])

/-- `5 / 2` folds to 2. -/
theorem not_foldsToValue_half :
    let e : Expression := .binaryOperation (.integerLiteral 5) (.integerLiteral 2) .division
    foldConstantExpressions e = .ok (.integerLiteral 2) ∧
      ∀ data, e.StaysExact data ∧ ¬e.FoldsToValue data := by
  intro e
  have htwo : (Int64.toInt 2 : ℚ) = 2 := by norm_cast
  have hfive : (Int64.toInt 5 : ℚ) = 5 := by norm_cast
  have hvalue : ∀ data, e.jsValue data = some (5 / 2) := by
    intro data
    simp only [e, jsValue, jsOperation, htwo, hfive]
    norm_num
  refine ⟨by rw [foldConstantExpressions_eq_fold]; rfl, fun data =>
    ⟨staysExact_of_children ⟨_, hvalue data, by norm_num⟩ ?_, ?_⟩⟩
  · simp only [e, children, List.mem_cons, Option.some.injEq, List.not_mem_nil, or_false]
    rintro c (rfl | rfl)
    · exact staysExact_integerLiteral (by rw [hfive]; norm_num)
    · exact staysExact_integerLiteral (by rw [htwo]; norm_num)
  · rintro ⟨v, -, hv⟩
    rw [hvalue, Option.some.injEq] at hv
    have htwice : (5 : ℚ) = ((2 * v.toInt : Int) : ℚ) := by
      push_cast
      linarith
    have hodd : 5 = 2 * v.toInt := by exact_mod_cast htwice
    omega

end Expr

end B2
