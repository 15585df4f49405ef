import B2.Ast.Representable
import B2.Llvm.OperandTypes
import B2.Passes.FoldComparisons
import B2.Passes.FoldOverflow
import B2.Php.LiteralPrints

/-!
# Folding and what a template prints

The instructions that the visitor makes for an operator on literals and the
literal that `FoldConstantExpressionsPass` makes of it. They differ where an
integer division is not exact, where doubles tell other integers apart than the
integers themselves, and for `!=` on a NaN. Where none of this is folded a
folded expression has the value of the expression (`Runtime.Arithmetic.replaces_fold`).
-/

namespace B2

open LLVMVisitor

namespace Predicate

/-- A signed `icmp`. -/
def ofIntegers (a b : Int) : Predicate → Bool
  | .eq => a = b
  | .ne => a ≠ b
  | .le => a ≤ b
  | .ge => b ≤ a
  | .gt => b < a
  | .lt => a < b

/-- An ordered `fcmp`. -/
def ofDoubles (x y : Double) : Predicate → Bool
  | .eq => x.eq y
  | .ne => x.lt y || y.lt x
  | .le => x.le y
  | .ge => y.le x
  | .gt => y.lt x
  | .lt => x.lt y

end Predicate

namespace Php

variable {Z W : Type}

/-- One bit as a signed integer. -/
def signedBit (b : Bool) : Int64 := if b then -1 else 0

/-- The results of the instructions as LLVM defines them, on the operands that literals give.
Nothing is said about an inexact division, a division by zero and a quotient that does not fit. -/
structure Runtime.Arithmetic (R : Runtime Z W) : Prop where
  add (a b : Int64) : R.operation .add [.ofLong a, .ofLong b] = .ofLong (a + b)
  sub (a b : Int64) : R.operation .sub [.ofLong a, .ofLong b] = .ofLong (a - b)
  mul (a b : Int64) : R.operation .mul [.ofLong a, .ofLong b] = .ofLong (a * b)
  exactSDiv {a b : Int64} : b ≠ 0 → b.toInt ∣ a.toInt → FitsLong (a.toInt.tdiv b.toInt) →
    R.operation .exactSDiv [.ofLong a, .ofLong b] = .ofLong (a / b)
  sRem {a b : Int64} : b ≠ 0 → FitsLong (a.toInt.tdiv b.toInt) →
    R.operation .sRem [.ofLong a, .ofLong b] = .ofLong (a % b)
  neg (a : Int64) : R.operation .neg [.ofLong a] = .ofLong (-a)
  not (a : Bool) : R.operation .not [.ofBool a] = .ofBool !a
  and (a b : Bool) : R.operation .and [.ofBool a, .ofBool b] = .ofBool (a && b)
  or (a b : Bool) : R.operation .or [.ofBool a, .ofBool b] = .ofBool (a || b)
  iCmp (p : Predicate) (a b : Int64) : R.operation (.iCmp p) [.ofLong a, .ofLong b] =
    .ofBool (p.ofIntegers a.toInt b.toInt)
  iCmpBits (p : Predicate) (a b : Bool) : R.operation (.iCmp p) [.ofBool a, .ofBool b] =
    .ofBool (p.ofIntegers (signedBit a).toInt (signedBit b).toInt)
  siToFP (a : Int64) : R.operation .siToFP [.ofLong a] = .double (.ofLong a)
  siToFPBit (a : Bool) : R.operation .siToFP [.ofBool a] = .double (.ofLong (signedBit a))
  fAdd (x y : Double) : R.operation .fAdd [.double x, .double y] = .double (x.add y)
  fSub (x y : Double) : R.operation .fSub [.double x, .double y] = .double (x.sub y)
  fMul (x y : Double) : R.operation .fMul [.double x, .double y] = .double (x.mul y)
  fDiv (x y : Double) : R.operation .fDiv [.double x, .double y] = .double (x.div y)
  fCmp (p : Predicate) (x y : Double) : R.operation (.fCmp p) [.double x, .double y] =
    .ofBool (p.ofDoubles x y)

end Php

/-! ## What is folded exactly -/

/-- The literals that the rule of a comparison makes of two literals and the instruction agree. -/
def ComparesExactly (left right : Expression) (op : ComparisonOperation) : Prop :=
  match left, right with
  | .integerLiteral a, .integerLiteral b =>
    compareDoubles (.ofLong a) (.ofLong b) op = compareIntegers op a.toInt b.toInt
  | .doubleLiteral x, .doubleLiteral y => op = .notEqual → x ≠ .nan ∧ y ≠ .nan
  | .doubleLiteral x, .integerLiteral _ | .integerLiteral _, .doubleLiteral x =>
    op = .notEqual → x ≠ .nan
  | _, _ => True

/-- The quotient of two integer literals is exact. -/
def DividesExactly (left right : Expression) (op : BinaryOperation) : Prop :=
  match left, right with
  | .integerLiteral a, .integerLiteral b => op = .division → b.toInt ∣ a.toInt
  | _, _ => True

namespace Expr

mutual

/-- The literal of every operator that is folded is what its instruction computes. -/
def ExactlyFolded : Expression → Prop
  | .getAttribute v _ => v.ExactlyFolded
  | .methodCall _ args => ArgumentsExactlyFolded args
  | .binaryOperation l r op => l.ExactlyFolded ∧ r.ExactlyFolded ∧
    ∀ left right, l.fold = .ok left → r.fold = .ok right → DividesExactly left right op
  | .unaryOperation e _ => e.ExactlyFolded
  | .comparison l r op => l.ExactlyFolded ∧ r.ExactlyFolded ∧
    ∀ left right, l.fold = .ok left → r.fold = .ok right → ComparesExactly left right op
  | .variableReference _ | .doubleLiteral _ | .integerLiteral _ | .booleanLiteral _
  | .stringLiteral _ => True

def ArgumentsExactlyFolded : List (Option Expression) → Prop
  | [] => True
  | none :: args => ArgumentsExactlyFolded args
  | some e :: args => e.ExactlyFolded ∧ ArgumentsExactlyFolded args

end

theorem exactlyFolded_of_mem {e : Expression} {args : List (Option Expression)}
    (h : ArgumentsExactlyFolded args) (he : some e ∈ args) : e.ExactlyFolded := by
  induction args with
  | nil => cases he
  | cons arg args ih =>
    rcases List.mem_cons.1 he with rfl | hmem
    · exact h.1
    · cases arg with
      | none => exact ih h hmem
      | some e' => exact ih h.2 hmem

theorem operandsFit_of_mem {e : Expression} {args : List (Option Expression)}
    (h : ArgumentOperandsFit args) (he : some e ∈ args) : e.OperandsFit := by
  induction args with
  | nil => cases he
  | cons arg args ih =>
    rcases List.mem_cons.1 he with rfl | hmem
    · exact h.1
    · cases arg with
      | none => exact ih h hmem
      | some e' => exact ih h.2 hmem

end Expr

/-! ## One operator -/

theorem Double.ofDoubles_ne {x y : Double} (hx : x ≠ .nan) (hy : y ≠ .nan) :
    Predicate.ne.ofDoubles x y = !x.eq y := by
  cases x with
  | nan => exact absurd rfl hx
  | infinite s =>
    cases y with
    | nan => exact absurd rfl hy
    | infinite t => cases s <;> cases t <;> rfl
    | finite => cases s <;> rfl
  | finite s m e h =>
    cases y with
    | nan => exact absurd rfl hy
    | infinite t => cases t <;> rfl
    | finite s' m' e' h' =>
      show (decide _ || decide _) = !decide _
      rw [Bool.eq_iff_iff]
      simp only [Bool.or_eq_true, decide_eq_true_eq, Bool.not_eq_true', decide_eq_false_iff_not]
      exact ne_iff_lt_or_gt.symm

namespace Php

variable {R : Runtime Z W}

theorem of_longValue {z z' : Int} {v : Int64} (h : longValue z z' = .ok v) :
    FitsLong z ∧ v = .ofInt z' := by
  unfold longValue at h
  split at h
  · rename_i hz
    cases h
    exact ⟨hz, rfl⟩
  · cases h

theorem of_checkedLong {z : Int} {v : Int64} (h : checkedLong z = .ok v) :
    FitsLong z ∧ v.toInt = z := by
  obtain ⟨hz, rfl⟩ := of_longValue h
  exact ⟨hz, Int64.toInt_ofInt_of_le hz.1 hz.2⟩

theorem bmod_of_fitsLong {z : Int} (h : FitsLong z) : z.bmod (2 ^ 64) = z := by
  obtain ⟨hlo, hhi⟩ := h
  exact Int.bmod_eq_of_le (by omega) (by omega)

/-- The integer that `foldLongs` computes. -/
theorem Runtime.Arithmetic.foldLongs (hR : R.Arithmetic) {a b v : Int64} {op : BinaryOperation}
    (hexact : op = .division → b.toInt ∣ a.toInt) (h : B2.foldLongs a b op = .ok v) :
    R.operate (integerOperation op) [.ofLong a, .ofLong b] = .ofLong v := by
  cases op with
  | addition =>
    obtain ⟨hz, hv⟩ := of_checkedLong h
    rw [← bmod_of_fitsLong hz, ← Int64.toInt_add] at hv
    rw [Int64.toInt_inj.1 hv]
    exact hR.add a b
  | subtraction =>
    obtain ⟨hz, hv⟩ := of_checkedLong h
    rw [← bmod_of_fitsLong hz, ← Int64.toInt_sub] at hv
    rw [Int64.toInt_inj.1 hv]
    exact hR.sub a b
  | multiplication =>
    obtain ⟨hz, hv⟩ := of_checkedLong h
    rw [← bmod_of_fitsLong hz, ← Int64.toInt_mul] at hv
    rw [Int64.toInt_inj.1 hv]
    exact hR.mul a b
  | division =>
    simp only [B2.foldLongs] at h
    split_ifs at h with hb
    obtain ⟨hz, hv⟩ := of_checkedLong h
    rw [← bmod_of_fitsLong hz, ← Int64.toInt_div] at hv
    rw [Int64.toInt_inj.1 hv]
    exact hR.exactSDiv hb (hexact rfl) hz
  | modulus =>
    simp only [B2.foldLongs] at h
    split_ifs at h with hb
    obtain ⟨hq, rfl⟩ := of_longValue h
    have hm := fitsLong_tmod a b
    have hv : (Int64.ofInt (a.toInt.tmod b.toInt)).toInt = (a % b).toInt := by
      rw [Int64.toInt_ofInt_of_le hm.1 hm.2, Int64.toInt_mod]
    rw [Int64.toInt_inj.1 hv]
    exact hR.sRem hb hq

/-- One expression takes the place of another: it has its type and its value. -/
structure Runtime.Replaces (R : Runtime Z W) (e' e : Expression) : Prop where
  irType : e'.irType = e.irType
  eval : ∀ ρ w, R.eval ρ e' w = R.eval ρ e w

theorem Runtime.Replaces.refl (e : Expression) : R.Replaces e e := ⟨rfl, fun _ _ => rfl⟩

/-- The value of a literal. -/
def literalData (Z : Type) : Expression → Data Z
  | .doubleLiteral v => .double v
  | .integerLiteral v => .ofLong v
  | .booleanLiteral v => .ofBool v
  | .stringLiteral v => .string v
  | _ => .pointer false

theorem eval_literal {e : Expression} (h : isLiteralExpression e = true) (ρ : Text → Option Z)
    (w : W) : R.eval ρ e w = some (literalData Z e, w) := by
  cases e <;> first | rfl | cases h

theorem irType_literal_ne_variant {e : Expression} (h : isLiteralExpression e = true) :
    e.irType ≠ .variant := by
  cases e with
  | doubleLiteral | integerLiteral | booleanLiteral | stringLiteral => simp [Expr.irType]
  | _ => cases h

theorem isNumeric_of_numericValue {e : Expression} {x : Double}
    (h : numericValue e = .ok x) : isNumericLiteralExpression e = true := by
  cases e <;> first | rfl | cases h

/-- The conversion of a numeric literal. -/
theorem Runtime.Arithmetic.toDouble_literal (hR : R.Arithmetic) {e : Expression} {x : Double}
    (h : numericValue e = .ok x) : R.toDouble e.irType (literalData Z e) = .double x := by
  cases e with
  | integerLiteral v =>
    cases h
    exact hR.siToFP v
  | doubleLiteral v =>
    cases h
    rfl
  | _ => cases h

/-- An instruction on doubles. -/
theorem numeric_doubles (integerOp floatOp : Operation) {left right : IRType}
    {d d' : Data Z} {x y : Double} (hx : R.toDouble left d = .double x)
    (hy : R.toDouble right d' = .double y)
    (hdouble : left = .double ∨ right = .double) :
    R.numeric integerOp floatOp left right d d' = R.operate floatOp [.double x, .double y] := by
  have hinteger : ¬(left.isInteger = true ∧ right.isInteger = true) := by
    rintro ⟨hl, hr⟩
    rcases hdouble with rfl | rfl
    · cases hl
    · cases hr
  rw [Runtime.numeric, if_neg hinteger, hx, hy]

theorem irType_numericLiteral {e : Expression} (h : isNumericLiteralExpression e = true) :
    e.irType = .int64 ∨ e.irType = .double := by
  cases e with
  | integerLiteral v => exact .inl rfl
  | doubleLiteral v => exact .inr rfl
  | _ => cases h

theorem not_variant_of_numericLiteral {left right : Expression}
    (hleft : isNumericLiteralExpression left = true)
    (hright : isNumericLiteralExpression right = true) :
    ¬(left.irType = .variant ∨ right.irType = .variant) := by
  rcases irType_numericLiteral hleft with hl | hl <;>
    rcases irType_numericLiteral hright with hr | hr <;> rw [hl, hr] <;> decide

theorem irType_doubleLiteral {e : Expression} (h : isDoubleLiteralExpression e = true) :
    e.irType = .double := by
  cases e with
  | doubleLiteral v => rfl
  | _ => cases h

theorem Runtime.Arithmetic.foldDoubles (hR : R.Arithmetic) {left right e : Expression}
    {op : BinaryOperation} (hleft : isNumericLiteralExpression left = true)
    (hright : isNumericLiteralExpression right = true)
    (hdouble : left.irType = .double ∨ right.irType = .double)
    (h : B2.foldDoubles left right op = .ok e) :
    R.Replaces e (.binaryOperation left right op) := by
  by_cases hop : op = .modulus
  · subst hop
    cases h
    exact .refl _
  · have hvariant := not_variant_of_numericLiteral hleft hright
    obtain ⟨x, y, v, hx, hy, rfl, hv⟩ : ∃ x y v, B2.numericValue left = .ok x ∧
        B2.numericValue right = .ok y ∧ e = .doubleLiteral v ∧
        R.operate (floatOperation op) [.double x, .double y] = .double v := by
      cases op with
      | modulus => exact absurd rfl hop
      | addition | subtraction | multiplication | division =>
        obtain ⟨x, hx, h⟩ := bind_eq_ok.1 h
        obtain ⟨y, hy, h⟩ := bind_eq_ok.1 h
        refine ⟨x, y, _, hx, hy, (pure_eq_ok.1 h).symm, ?_⟩
        first
          | exact hR.fAdd x y
          | exact hR.fSub x y
          | exact hR.fMul x y
          | exact hR.fDiv x y
    have hd := eval_literal (R := R) (isLiteral_of_isNumeric hleft)
    have hd' := eval_literal (R := R) (isLiteral_of_isNumeric hright)
    have hnumeric := numeric_doubles (R := R) (integerOperation op) (floatOperation op)
      (hR.toDouble_literal hx) (hR.toDouble_literal hy) hdouble
    refine ⟨?_, fun ρ w => ?_⟩
    · have hinteger : ¬(left.irType.isInteger = true ∧ right.irType.isInteger = true) := by
        rintro ⟨hl, hr⟩
        rcases hdouble with h | h
        · rw [h] at hl
          cases hl
        · rw [h] at hr
          cases hr
      show IRType.double = binaryType op left.irType right.irType
      rw [binaryType, if_neg hvariant, numericType, if_neg hinteger]
      cases op <;> rfl
    · simp only [Runtime.eval, hd, hd', if_neg hvariant, hnumeric, hv,
        Option.bind_eq_bind, Option.bind_some, Option.pure_def]

theorem Runtime.Arithmetic.foldBinaryOperation (hR : R.Arithmetic) {left right e : Expression}
    {op : BinaryOperation} (hexact : DividesExactly left right op)
    (h : B2.foldBinaryOperation left right op = .ok e) :
    R.Replaces e (.binaryOperation left right op) := by
  unfold B2.foldBinaryOperation at h
  split_ifs at h with hnumeric hdouble
  · cases h
    exact .refl _
  · simp only [Bool.or_eq_true, Bool.not_eq_true', not_or, Bool.not_eq_false] at hnumeric
    refine hR.foldDoubles hnumeric.1 hnumeric.2 ?_ h
    rcases Bool.or_eq_true_iff.1 hdouble with h | h
    · exact .inl (irType_doubleLiteral h)
    · exact .inr (irType_doubleLiteral h)
  · obtain ⟨a, ha, h⟩ := bind_eq_ok.1 h
    obtain ⟨b, hb, h⟩ := bind_eq_ok.1 h
    obtain ⟨v, hv, h⟩ := bind_eq_ok.1 h
    obtain rfl := pure_eq_ok.1 h
    cases left <;> cases ha
    cases right <;> cases hb
    refine ⟨?_, fun ρ w => ?_⟩
    · cases op <;> rfl
    · show some (Data.ofLong v, w) = some (R.operate (integerOperation op) _, w)
      rw [hR.foldLongs hexact hv]

/-! ## Comparisons -/

/-- A comparison of literals is replaced by what its instruction gives. -/
theorem replaces_comparison {left right : Expression} {op : ComparisonOperation} {v : Bool}
    (hleft : isLiteralExpression left = true) (hright : isLiteralExpression right = true)
    (htype : (Expr.comparison left right op).irType = .int1)
    (hv : R.numeric (integerComparison op) (floatComparison op) left.irType right.irType
      (literalData Z left) (literalData Z right) = .ofBool v) :
    R.Replaces (.booleanLiteral v) (.comparison left right op) := by
  have hvariant := not_or.2 ⟨irType_literal_ne_variant hleft, irType_literal_ne_variant hright⟩
  refine ⟨htype.symm, fun ρ w => ?_⟩
  simp only [Runtime.eval, eval_literal hleft, eval_literal hright, if_neg hvariant, hv,
    Option.bind_eq_bind, Option.bind_some, Option.pure_def]

theorem Runtime.Arithmetic.iCmp_comparison (hR : R.Arithmetic) {op : ComparisonOperation}
    (hop : op.comparesValues = true) (a b : Int64) :
    R.operate (integerComparison op) [.ofLong a, .ofLong b] =
      .ofBool (compareIntegers op a.toInt b.toInt) := by
  cases op with
  | or | and => cases hop
  | equal => exact hR.iCmp .eq a b
  | notEqual => exact hR.iCmp .ne a b
  | greaterThan => exact hR.iCmp .gt a b
  | greaterOrEqual => exact hR.iCmp .ge a b
  | lessThan => exact hR.iCmp .lt a b
  | lessOrEqual => exact hR.iCmp .le a b

theorem Runtime.Arithmetic.fCmp_comparison (hR : R.Arithmetic) {op : ComparisonOperation}
    (hop : op.comparesValues = true) {x y : Double}
    (hnan : op = .notEqual → x ≠ .nan ∧ y ≠ .nan) :
    R.operate (floatComparison op) [.double x, .double y] = .ofBool (compareDoubles x y op) := by
  cases op with
  | or | and => cases hop
  | equal => exact hR.fCmp .eq x y
  | notEqual =>
    obtain ⟨hx, hy⟩ := hnan rfl
    exact (hR.fCmp .ne x y).trans (congrArg Data.ofBool (Double.ofDoubles_ne hx hy))
  | greaterThan => exact hR.fCmp .gt x y
  | greaterOrEqual => exact hR.fCmp .ge x y
  | lessThan => exact hR.fCmp .lt x y
  | lessOrEqual => exact hR.fCmp .le x y

theorem ofLong_ne_nan (v : Int64) : Double.ofLong v ≠ .nan := by
  obtain ⟨s, m, e, h, hv, -⟩ := Double.ofLong_eq v
  rw [hv]
  rintro ⟨⟩

theorem irType_comparison {left right : Expression} {op : ComparisonOperation}
    (hop : op.comparesValues = true)
    (hvariant : ¬(left.irType = .variant ∨ right.irType = .variant)) :
    (Expr.comparison left right op).irType = .int1 := by
  show comparisonType op left.irType right.irType = .int1
  rw [comparisonType, if_neg hvariant, numericType]
  cases op with
  | or | and => cases hop
  | _ => split <;> rfl

/-- Two numbers are compared as the doubles of their literals. -/
theorem Runtime.Arithmetic.compareNumbers (hR : R.Arithmetic) {left right : Expression}
    {op : ComparisonOperation} {x y : Double} (hop : op.comparesValues = true)
    (hexact : ComparesExactly left right op) (hx : B2.numericValue left = .ok x)
    (hy : B2.numericValue right = .ok y) :
    R.Replaces (.booleanLiteral (compareDoubles x y op)) (.comparison left right op) := by
  have hleft := isNumeric_of_numericValue hx
  have hright := isNumeric_of_numericValue hy
  refine replaces_comparison (isLiteral_of_isNumeric hleft) (isLiteral_of_isNumeric hright)
    (irType_comparison hop (not_variant_of_numericLiteral hleft hright)) ?_
  have hdx := hR.toDouble_literal hx
  have hdy := hR.toDouble_literal hy
  have hcmp := fun hnan => hR.fCmp_comparison (x := x) (y := y) hop hnan
  cases left with
  | integerLiteral a =>
    cases hx
    cases right with
    | integerLiteral b =>
      cases hy
      rw [hexact]
      exact hR.iCmp_comparison hop a b
    | doubleLiteral y' =>
      cases hy
      rw [numeric_doubles _ _ hdx hdy (.inr rfl)]
      exact hcmp fun h => ⟨ofLong_ne_nan a, hexact h⟩
    | _ => cases hy
  | doubleLiteral x' =>
    cases hx
    rw [numeric_doubles _ _ hdx hdy (.inl rfl)]
    refine hcmp fun h => ?_
    cases right with
    | integerLiteral b =>
      cases hy
      exact ⟨hexact h, ofLong_ne_nan b⟩
    | doubleLiteral y' =>
      cases hy
      exact hexact h
    | _ => cases hy
  | _ => cases hx

/-- The instruction of a comparison gets operands that fit. -/
def ComparisonFits (left right : Expression) (op : ComparisonOperation) : Prop :=
  left.irType = .variant ∨ right.irType = .variant ∨
    NumericFits (integerComparison op) (floatComparison op) left.irType right.irType

/-- The literals of a comparison whose instruction gets operands that fit. -/
theorem numericFits_of_literals {left right : Expression} {op : ComparisonOperation}
    (hleft : isLiteralExpression left = true) (hright : isLiteralExpression right = true)
    (hfit : ComparisonFits left right op) :
    NumericFits (integerComparison op) (floatComparison op) left.irType right.irType :=
  (hfit.resolve_left (irType_literal_ne_variant hleft)).resolve_left
    (irType_literal_ne_variant hright)

/-- Two boolean literals. -/
theorem replaces_booleans (a b : Bool) (op : ComparisonOperation) {v : Bool}
    (hv : R.operate (integerComparison op) [.ofBool a, .ofBool b] = .ofBool v)
    (htype : (integerComparison op).resultType [.int1, .int1] = .int1) :
    R.Replaces (.booleanLiteral v) (.comparison (.booleanLiteral a) (.booleanLiteral b) op) :=
  replaces_comparison rfl rfl htype hv

theorem Runtime.Arithmetic.foldEquality (hR : R.Arithmetic) {left right e : Expression}
    {op : ComparisonOperation} (hop : op = .equal ∨ op = .notEqual)
    (hleft : isLiteralExpression left = true) (hright : isLiteralExpression right = true)
    (hexact : ComparesExactly left right op) (hfit : ComparisonFits left right op)
    (h : B2.foldEquality left right op = .ok e) : R.Replaces e (.comparison left right op) := by
  have hcompares : op.comparesValues = true := by rcases hop with rfl | rfl <;> rfl
  unfold B2.foldEquality at h
  split at h
  · obtain ⟨x, hx, h⟩ := bind_eq_ok.1 h
    obtain ⟨y, hy, h⟩ := bind_eq_ok.1 h
    cases h
    exact hR.compareNumbers hcompares hexact hx hy
  · split at h
    · obtain ⟨a, ha, h⟩ := bind_eq_ok.1 h
      obtain ⟨b, hb, h⟩ := bind_eq_ok.1 h
      obtain rfl := pure_eq_ok.1 h
      cases left <;> cases ha
      cases right <;> cases hb
      rcases hop with rfl | rfl
      · refine replaces_booleans a b .equal ((hR.iCmpBits .eq a b).trans ?_) rfl
        cases a <;> cases b <;> rfl
      · refine replaces_booleans a b .notEqual ((hR.iCmpBits .ne a b).trans ?_) rfl
        cases a <;> cases b <;> rfl
    · split at h
      · -- there is no instruction that compares strings
        rename_i hstring
        have hfits := numericFits_of_literals hleft hright hfit
        obtain ⟨hl, -⟩ := Bool.and_eq_true_iff.1 hstring
        cases left with
        | stringLiteral v => rcases hfits.1 with h | h <;> cases h
        | _ => cases hl
      · cases h
        exact .refl _

theorem Runtime.Arithmetic.foldOrdering (hR : R.Arithmetic) {left right e : Expression}
    {op : ComparisonOperation} (hop : op.comparesValues = true)
    (hexact : ComparesExactly left right op)
    (h : B2.foldOrdering left right op = .ok e) : R.Replaces e (.comparison left right op) := by
  unfold B2.foldOrdering at h
  split_ifs at h
  · cases h
    exact .refl _
  · obtain ⟨x, hx, h⟩ := bind_eq_ok.1 h
    obtain ⟨y, hy, h⟩ := bind_eq_ok.1 h
    cases h
    exact hR.compareNumbers hop hexact hx hy

/-- A literal that is joined with a boolean is one. -/
theorem right_boolean {right : Expression} {op : ComparisonOperation} (hop : op = .or ∨ op = .and)
    (hright : isLiteralExpression right = true)
    (hfits : NumericFits (integerComparison op) (floatComparison op) .int1 right.irType) :
    ∃ b, right = .booleanLiteral b := by
  have hinteger : ∃ w, [IRType.int1, right.irType] = [.integer w, .integer w] := by
    unfold NumericFits at hfits
    split at hfits
    · rcases hop with rfl | rfl <;> exact hfits
    · rcases hop with rfl | rfl <;> obtain ⟨-, -, w, hw⟩ := hfits <;> cases hw
  obtain ⟨w, hw⟩ := hinteger
  cases right with
  | booleanLiteral b => exact ⟨b, rfl⟩
  | integerLiteral v | doubleLiteral v | stringLiteral v => cases hw
  | _ => cases hright

theorem Runtime.Arithmetic.foldLogical (hR : R.Arithmetic) {left right e : Expression}
    {op : ComparisonOperation} (hop : op = .or ∨ op = .and)
    (hleft : isLiteralExpression left = true) (hright : isLiteralExpression right = true)
    (hfit : ComparisonFits left right op)
    (h : B2.foldLogical left right op = .ok e) : R.Replaces e (.comparison left right op) := by
  have hfits := numericFits_of_literals hleft hright hfit
  unfold B2.foldLogical at h
  split at h
  · cases h
    exact .refl _
  · obtain ⟨a, ha, h⟩ := bind_eq_ok.1 h
    cases left <;> cases ha
    obtain ⟨b, rfl⟩ := right_boolean hop hright hfits
    have hresult : R.Replaces (.booleanLiteral (if op = .or then a || b else a && b))
        (.comparison (.booleanLiteral a) (.booleanLiteral b) op) := by
      rcases hop with rfl | rfl
      · exact replaces_booleans a b .or (hR.or a b) rfl
      · exact replaces_booleans a b .and (hR.and a b) rfl
    have he : e = .booleanLiteral (if op = .or then a || b else a && b) := by
      rcases hop with rfl | rfl <;> cases a <;> exact (pure_eq_ok.1 h).symm
    rw [he]
    exact hresult

theorem Runtime.Arithmetic.foldComparison (hR : R.Arithmetic) {left right e : Expression}
    {op : ComparisonOperation} (hexact : ComparesExactly left right op)
    (hfit : ComparisonFits left right op)
    (h : B2.foldComparison left right op = .ok e) : R.Replaces e (.comparison left right op) := by
  unfold B2.foldComparison at h
  split at h
  · cases h
    exact .refl _
  · rename_i hliteral
    simp only [Bool.or_eq_true, Bool.not_eq_true', not_or, Bool.not_eq_false] at hliteral
    obtain ⟨hleft, hright⟩ := hliteral
    cases op with
    | equal => exact hR.foldEquality (.inl rfl) hleft hright hexact hfit h
    | notEqual => exact hR.foldEquality (.inr rfl) hleft hright hexact hfit h
    | greaterThan | greaterOrEqual | lessThan | lessOrEqual =>
      exact hR.foldOrdering rfl hexact h
    | or => exact hR.foldLogical (.inl rfl) hleft hright hfit h
    | and => exact hR.foldLogical (.inr rfl) hleft hright hfit h

/-! ## Signs and negation -/

theorem Runtime.Arithmetic.foldUnaryOperation (hR : R.Arithmetic) {sub e : Expression}
    {op : UnaryOperation}
    (hfit : sub.irType = .variant ∨ op = .numericPositive ∨ sub.irType.isInteger = true)
    (h : B2.foldUnaryOperation sub op = .ok e) : R.Replaces e (.unaryOperation sub op) := by
  cases op with
  | numericPositive =>
    cases sub with
    | doubleLiteral v =>
      obtain rfl := pure_eq_ok.1 h
      refine ⟨rfl, fun ρ w => ?_⟩
      show some (Data.double (v.mul (.ofLong 1)), w) = some (Data.double v, w)
      rw [Double.mul_ofLong_one]
    | integerLiteral v =>
      obtain ⟨v', hv, h⟩ := bind_eq_ok.1 h
      obtain rfl := pure_eq_ok.1 h
      refine ⟨rfl, fun ρ w => ?_⟩
      show some (Data.ofLong v', w) = some (Data.ofLong v, w)
      rw [Data.ofLong, (of_checkedLong hv).2]
      exact congrArg (fun z => some (Data.integer 64 z, w)) (mul_one v.toInt)
    | _ =>
      cases h
      exact .refl _
  | numericNegative =>
    cases sub with
    | doubleLiteral v =>
      -- the negation of a double is made as one of an integer
      rcases hfit with h | h | h <;> cases h
    | integerLiteral v =>
      obtain ⟨v', hv, h⟩ := bind_eq_ok.1 h
      obtain rfl := pure_eq_ok.1 h
      obtain ⟨hfits, hv⟩ := of_checkedLong hv
      have hproduct : v.toInt * -1 = -v.toInt := mul_neg_one v.toInt
      rw [if_pos rfl, hproduct] at hfits hv
      refine ⟨rfl, fun ρ w => ?_⟩
      have hneg : R.operate .neg [.ofLong v] = .ofLong v' := by
        rw [← bmod_of_fitsLong hfits, ← Int64.toInt_neg] at hv
        rw [Int64.toInt_inj.1 hv]
        exact hR.neg v
      show some (Data.ofLong v', w) = some (R.operate .neg [.ofLong v], w)
      rw [hneg]
    | _ =>
      cases h
      exact .refl _
  | booleanNegation =>
    cases sub with
    | booleanLiteral v =>
      cases h
      refine ⟨rfl, fun ρ w => ?_⟩
      show some (Data.ofBool !v, w) = some (R.operate .not [.ofBool v], w)
      rw [← hR.not v]
      rfl
    | _ =>
      cases h
      exact .refl _

/-! ## Expressions -/

variable {ρ : Text → Option Z} {w : W}

theorem Runtime.Replaces.toVariant {e e' : Expression} (h : R.Replaces e' e) (d : Data Z) :
    R.toVariant e'.irType d = R.toVariant e.irType d := by
  rw [h.irType]

theorem Runtime.Replaces.binaryOperation {l l' r r' : Expression} (hl : R.Replaces l' l)
    (hr : R.Replaces r' r) (op : BinaryOperation) :
    R.Replaces (.binaryOperation l' r' op) (.binaryOperation l r op) where
  irType := by simp only [Expr.irType, hl.irType, hr.irType]
  eval ρ w := by simp only [Runtime.eval, hl.irType, hr.irType, hl.eval, hr.eval]

theorem Runtime.Replaces.comparison {l l' r r' : Expression} (hl : R.Replaces l' l)
    (hr : R.Replaces r' r) (op : ComparisonOperation) :
    R.Replaces (.comparison l' r' op) (.comparison l r op) where
  irType := by simp only [Expr.irType, hl.irType, hr.irType]
  eval ρ w := by simp only [Runtime.eval, hl.irType, hr.irType, hl.eval, hr.eval]

theorem Runtime.Replaces.unaryOperation {e e' : Expression} (h : R.Replaces e' e)
    (op : UnaryOperation) : R.Replaces (.unaryOperation e' op) (.unaryOperation e op) where
  irType := h.irType
  eval ρ w := by simp only [Runtime.eval, h.irType, h.eval]

theorem Runtime.Replaces.getAttribute {v v' : Expression} (h : R.Replaces v' v) (a : Text) :
    R.Replaces (.getAttribute v' a) (.getAttribute v a) where
  irType := rfl
  eval ρ w := by simp only [Runtime.eval, h.irType, h.eval]

theorem Runtime.Replaces.trans {e e' e'' : Expression} (h : R.Replaces e'' e')
    (h' : R.Replaces e' e) : R.Replaces e'' e :=
  ⟨h.irType.trans h'.irType, fun ρ w => (h.eval ρ w).trans (h'.eval ρ w)⟩

/-- The arguments of a method call, one by one. -/
theorem Runtime.evalArguments_fold {args args' : List (Option Expression)}
    (hargs : Expr.foldArguments args = .ok args')
    (hreplaces : ∀ e, some e ∈ args → ∀ e', e.fold = .ok e' → R.Replaces e' e) (w : W) :
    R.evalArguments ρ args' w = R.evalArguments ρ args w := by
  induction args generalizing args' w with
  | nil =>
    cases hargs
    rfl
  | cons arg args ih =>
    cases arg with
    | none => cases hargs
    | some e =>
      simp only [Expr.foldArguments, bind_eq_ok, pure_eq_ok] at hargs
      obtain ⟨e', he, args'', hargs, rfl⟩ := hargs
      have hhead := hreplaces e List.mem_cons_self e' he
      have htail := ih hargs fun e h => hreplaces e (List.mem_cons_of_mem _ h)
      simp only [Runtime.evalArguments, hhead.irType, hhead.eval, htail]

/-- A folded expression has the type and the value of the expression, if every operator that is
folded is folded exactly. -/
theorem Runtime.Arithmetic.replaces_fold (hR : R.Arithmetic) (e : Expression) :
    e.OperandsFit → e.ExactlyFolded → ∀ e', e.fold = .ok e' → R.Replaces e' e := by
  induction e using Expr.ind with
  | variableReference _ | doubleLiteral _ | integerLiteral _ | booleanLiteral _
  | stringLiteral _ =>
    intro _ _ e' h
    cases h
    exact .refl _
  | getAttribute v a ih =>
    intro hfit hexact e' h
    simp only [Expr.fold, bind_eq_ok, pure_eq_ok] at h
    obtain ⟨v', hv, rfl⟩ := h
    exact (ih hfit hexact v' hv).getAttribute a
  | methodCall m args ih =>
    intro hfit hexact e' h
    simp only [Expr.fold, bind_eq_ok, pure_eq_ok] at h
    obtain ⟨args', hargs, rfl⟩ := h
    have hreplaces : ∀ e, some e ∈ args → ∀ e', e.fold = .ok e' → R.Replaces e' e :=
      fun e he => ih e he (Expr.operandsFit_of_mem hfit he) (Expr.exactlyFolded_of_mem hexact he)
    refine ⟨rfl, fun ρ w => ?_⟩
    simp only [Runtime.eval, Runtime.evalArguments_fold hargs hreplaces]
  | binaryOperation l r op ihl ihr =>
    rintro ⟨hfl, hfr, -⟩ ⟨hel, her, hexact⟩ e' h
    simp only [Expr.fold, bind_eq_ok] at h
    obtain ⟨left, hl, right, hr, h⟩ := h
    refine (hR.foldBinaryOperation (hexact left right hl hr) h).trans ?_
    exact (ihl hfl hel left hl).binaryOperation (ihr hfr her right hr) op
  | unaryOperation e op ih =>
    rintro ⟨hfe, hfit⟩ hexact e' h
    simp only [Expr.fold, bind_eq_ok] at h
    obtain ⟨sub, hs, h⟩ := h
    have hsub := ih hfe hexact sub hs
    rw [← hsub.irType] at hfit
    exact (hR.foldUnaryOperation hfit h).trans (hsub.unaryOperation op)
  | comparison l r op ihl ihr =>
    rintro ⟨hfl, hfr, hfit⟩ ⟨hel, her, hexact⟩ e' h
    simp only [Expr.fold, bind_eq_ok] at h
    obtain ⟨left, hl, right, hr, h⟩ := h
    have hleft := ihl hfl hel left hl
    have hright := ihr hfr her right hr
    have hfit : ComparisonFits left right op := by
      rw [ComparisonFits, hleft.irType, hright.irType]
      exact hfit
    exact (hR.foldComparison (hexact left right hl hr) hfit h).trans (hleft.comparison hright op)

/-! ## Templates -/

section

variable {P Q : Expression → Prop} {I : Text → Option Expression → StringExpressionMap → Prop}
  {f : Expression → Run Expression}

/-- Replacing expressions by expressions of the same value does not change what a template
prints. -/
theorem Runtime.render_mapExpressions
    (hf : ∀ e, P e → ∀ e', f e = .ok e' → R.Replaces e' e) (a : AST) :
    ∀ (a' : AST) (ρ : Text → Option Z) (w : W), a.Everywhere P Q I → a.mapExpressions f = .ok a' →
      R.render ρ a' w = R.render ρ a w := by
  induction a with
  | statements l ih =>
    intro a' ρ w ha h
    simp only [AST.mapExpressions, bind_eq_ok, pure_eq_ok] at h
    obtain ⟨l', hl, rfl⟩ := h
    rw [R.render_fromStatementsArray]
    show R.renderList ρ l' w = R.renderList ρ l w
    induction l generalizing l' w with
    | nil =>
      cases hl
      rfl
    | cons s l ihl =>
      simp only [AST.mapStatements, bind_eq_ok, pure_eq_ok] at hl
      obtain ⟨s', hs, l'', hl, rfl⟩ := hl
      have hhead := fun w => ih s List.mem_cons_self s' ρ w ha.1 hs
      have htail := fun w => ihl (fun s h => ih s (List.mem_cons_of_mem _ h)) w ha.2 l'' hl
      rw [R.renderList_append, R.renderList_asStatements, hhead w]
      show _ = (R.render ρ s w).andThen (R.renderList ρ l)
      rw [show R.renderList ρ l'' = R.renderList ρ l from funext htail]
  | rawBlock t =>
    intro a' ρ w _ h
    cases h
    rfl
  | includeBlock name scope M =>
    intro a' ρ w _ h
    simp only [AST.mapExpressions, bind_eq_ok, pure_eq_ok] at h
    obtain ⟨_, _, _, _, rfl⟩ := h
    rfl
  | printBlock e =>
    intro a' ρ w ha h
    simp only [AST.mapExpressions, bind_eq_ok, pure_eq_ok] at h
    obtain ⟨e', he, rfl⟩ := h
    have hreplaces := hf e ha e' he
    simp only [Runtime.render, hreplaces.eval, hreplaces.irType]
  | ifBlock c t e iht ihe =>
    intro a' ρ w ha h
    cases e with
    | none =>
      simp only [AST.mapExpressions, bind_eq_ok, pure_eq_ok] at h
      obtain ⟨c', hc, t', ht, rfl⟩ := h
      have hthen := fun w => iht t' ρ w ha.2 ht
      simp only [Runtime.render, (hf c ha.1 c' hc).eval, hthen]
    | some e =>
      simp only [AST.mapExpressions, bind_eq_ok, pure_eq_ok] at h
      obtain ⟨c', hc, t', ht, e', he, rfl⟩ := h
      have hthen := fun w => iht t' ρ w ha.2.1 ht
      have helse := fun w => ihe e rfl e' ρ w ha.2.2 he
      simp only [Runtime.render, (hf c ha.1 c' hc).eval, hthen, helse]
  | forBlock k v i b e ihb ihe =>
    intro a' ρ w ha h
    cases e with
    | none =>
      simp only [AST.mapExpressions, bind_eq_ok, pure_eq_ok] at h
      obtain ⟨i', hi, b', hb, rfl⟩ := h
      have hreplaces := hf i ha.1 i' hi
      have hbody := fun ρ => funext fun w => ihb b' ρ w ha.2.2 hb
      simp only [Runtime.render, hreplaces.eval, hreplaces.irType, hbody]
    | some e =>
      simp only [AST.mapExpressions, bind_eq_ok, pure_eq_ok] at h
      obtain ⟨i', hi, b', hb, e', he, rfl⟩ := h
      have hreplaces := hf i ha.1 i' hi
      have hbody := fun ρ => funext fun w => ihb b' ρ w ha.2.2.1 hb
      have helse := fun w => ihe e rfl e' ρ w ha.2.2.2 he
      simp only [Runtime.render, hreplaces.eval, hreplaces.irType, hbody, helse]

end

end Php

end B2
