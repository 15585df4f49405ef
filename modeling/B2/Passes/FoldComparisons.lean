import B2.Ast.Rounding
import B2.Llvm.Visitor
import B2.Passes.FoldConstants

/-!
# Folded integer comparisons

`NUMERIC_VALUE` has the type `double`, so the pass compares two integer literals
as the doubles nearest to them, while the LLVM visitor has the same operator
compare them as `i64`. The two agree unless the doubles are one and the same
and the operator tells the integers apart (`foldsExactly_iff`).
-/

namespace B2

/-- The truth value of a comparison of integers. -/
def compareIntegers (op : ComparisonOperation) (a b : Int) : Bool :=
  match op with
  | .equal => a = b
  | .notEqual => a ≠ b
  | .greaterThan => a > b
  | .greaterOrEqual => a ≥ b
  | .lessThan => a < b
  | .lessOrEqual => a ≤ b
  | .or | .and => false

/-- The operator compares values, rather than joining truth values. -/
def ComparisonOperation.comparesValues : ComparisonOperation → Bool
  | .or | .and => false
  | _ => true

/-- The result of a signed `icmp` on two `i64`. -/
def Operation.icmp (a b : Int64) : Operation → Option Bool
  | .iCmp .eq => some (a = b)
  | .iCmp .ne => some (a ≠ b)
  | .iCmp .le => some (a ≤ b)
  | .iCmp .ge => some (b ≤ a)
  | .iCmp .gt => some (b < a)
  | .iCmp .lt => some (a < b)
  | _ => none

/-- The pass folds the comparison to its truth value on the integers, which is what the
instruction of the LLVM visitor gives. -/
def FoldsExactly (left right : Expression) (op : ComparisonOperation) (a b : Int64) : Prop :=
  ∃ v, foldConstantExpressions (.comparison left right op) = .ok (.booleanLiteral v) ∧
    v = compareIntegers op a.toInt b.toInt ∧
    Operation.icmp a b (LLVMVisitor.integerComparison op) = some v

variable {op : ComparisonOperation}

/-- The instruction the LLVM visitor chooses compares the integers. -/
theorem icmp_integerComparison (hop : op.comparesValues = true) (a b : Int64) :
    Operation.icmp a b (LLVMVisitor.integerComparison op) =
      some (compareIntegers op a.toInt b.toInt) := by
  cases op <;>
    simp [ComparisonOperation.comparesValues, LLVMVisitor.integerComparison, Operation.icmp,
      compareIntegers, Int64.le_iff_toInt_le, Int64.lt_iff_toInt_lt, Int64.toInt_inj] at hop ⊢

/-- Integer literals are compared as the doubles nearest to them. -/
theorem foldComparison_integers (hop : op.comparesValues = true) (a b : Int64) :
    foldComparison (.integerLiteral a) (.integerLiteral b) op =
      .ok (.booleanLiteral (compareIntegers op (Double.nearestDouble a.toInt)
        (Double.nearestDouble b.toInt))) := by
  have hfold : foldComparison (.integerLiteral a) (.integerLiteral b) op =
      .ok (.booleanLiteral (compareDoubles (.ofLong a) (.ofLong b) op)) := by
    cases op <;> first | rfl | simp [ComparisonOperation.comparesValues] at hop
  rw [hfold]
  cases op <;>
    simp [compareDoubles, compareIntegers, Double.lt_ofLong, Double.le_ofLong, Double.eq_ofLong]

/-- Two integers compare like their doubles, unless these are equal and the operator tells the
integers apart. -/
theorem compareIntegers_nearest_iff (hop : op.comparesValues = true) (a b : Int) :
    compareIntegers op (Double.nearestDouble a) (Double.nearestDouble b) =
        compareIntegers op a b ↔
      (Double.nearestDouble a = Double.nearestDouble b →
        compareIntegers op a b = compareIntegers op a a) := by
  have hle : a ≤ b → Double.nearestDouble a ≤ Double.nearestDouble b := Double.nearestDouble_mono
  have hge : b ≤ a → Double.nearestDouble b ≤ Double.nearestDouble a := Double.nearestDouble_mono
  generalize Double.nearestDouble a = x at *
  generalize Double.nearestDouble b = y at *
  cases op with
  | or | and => simp [ComparisonOperation.comparesValues] at hop
  | equal | notEqual | greaterThan | greaterOrEqual | lessThan | lessOrEqual =>
    simp only [compareIntegers, decide_eq_decide, ne_eq, not_true_eq_false, gt_iff_lt, ge_iff_le,
      lt_self_iff_false, le_refl, iff_true, iff_false]
    omega

/-- A comparison of integer constants folds to its truth value exactly when the operands do not
share their nearest double, or share it and compare like equal integers. -/
theorem foldsExactly_iff {l r : Expression} {a b : Int64} (hop : op.comparesValues = true)
    (hl : foldConstantExpressions l = .ok (.integerLiteral a))
    (hr : foldConstantExpressions r = .ok (.integerLiteral b)) :
    FoldsExactly l r op a b ↔
      (Double.nearestDouble a.toInt = Double.nearestDouble b.toInt →
        compareIntegers op a.toInt b.toInt = compareIntegers op a.toInt a.toInt) := by
  have hfold : foldConstantExpressions (.comparison l r op) =
      .ok (.booleanLiteral (compareIntegers op (Double.nearestDouble a.toInt)
        (Double.nearestDouble b.toInt))) := by
    rw [foldConstantExpressions_eq_fold] at hl hr ⊢
    rw [← foldComparison_integers hop, Expr.fold, hl, hr]
    rfl
  rw [← compareIntegers_nearest_iff hop, FoldsExactly, hfold, icmp_integerComparison hop]
  constructor
  · rintro ⟨v, hv, rfl, -⟩
    simpa using hv
  · intro h
    exact ⟨_, by rw [h], rfl, rfl⟩

/-- `9007199254740992 < 9007199254740994`, two integers with doubles of their own. -/
theorem foldsExactly_even :
    FoldsExactly (.integerLiteral 9007199254740992) (.integerLiteral 9007199254740994) .lessThan
      9007199254740992 9007199254740994 :=
  (foldsExactly_iff rfl rfl rfl).2 (by decide)

/-- `9007199254740992 == 9007199254740993` folds to true: both are nearest to 2 ^ 53. -/
theorem not_foldsExactly_odd :
    ¬FoldsExactly (.integerLiteral 9007199254740992) (.integerLiteral 9007199254740993) .equal
      9007199254740992 9007199254740993 := by
  rintro ⟨v, hfold, hv, -⟩
  rw [foldConstantExpressions_eq_fold] at hfold
  have hequal : ComparisonOperation.comparesValues .equal = true := rfl
  have htrue := (foldComparison_integers hequal 9007199254740992
    9007199254740993).symm.trans hfold
  rw [hv] at htrue
  simp only [Except.ok.injEq, Expr.booleanLiteral.injEq] at htrue
  exact absurd htrue (by decide)

end B2
