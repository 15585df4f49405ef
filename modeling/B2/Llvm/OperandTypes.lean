import B2.Llvm.Statements
import B2.Llvm.ValueClasses
import B2.Passes.Keeps

/-!
# Operand types

Which arithmetic, comparison, logical and conversion instructions of a generated
function get operands of types they allow. The parser's checks leave two kinds
that do not: an equality of values of different classes, and the negation of a
double, which is made as one of an integer.
-/

namespace B2

open Effect.Traced (Sat Returns Throws returns_bind)
open PHPBindings LLVMVisitor
open IRAction (Quiet)

namespace LLVMVisitor

/-- The operands that `numericOperation` gives its instructions fit. -/
def NumericFits (integerOp floatOp : Operation) (left right : IRType) : Prop :=
  if left.isInteger ∧ right.isInteger then integerOp.OperandsFit [left, right]
  else (left.isFloatingPoint ∨ left.isInteger) ∧ (right.isFloatingPoint ∨ right.isInteger) ∧
    floatOp.OperandsFit [.double, .double]

end LLVMVisitor

namespace Expr

mutual

/-- The instructions made for the expression get operands that fit. -/
def OperandsFit : Expression → Prop
  | .getAttribute v _ => v.OperandsFit
  | .methodCall _ args => ArgumentOperandsFit args
  | .binaryOperation l r op =>
    l.OperandsFit ∧ r.OperandsFit ∧ (l.irType = .variant ∨ r.irType = .variant ∨
      NumericFits (integerOperation op) (floatOperation op) l.irType r.irType)
  | .unaryOperation e op =>
    e.OperandsFit ∧ (e.irType = .variant ∨ op = .numericPositive ∨ e.irType.isInteger)
  | .comparison l r op =>
    l.OperandsFit ∧ r.OperandsFit ∧ (l.irType = .variant ∨ r.irType = .variant ∨
      NumericFits (integerComparison op) (floatComparison op) l.irType r.irType)
  | .variableReference _ | .doubleLiteral _ | .integerLiteral _ | .booleanLiteral _
  | .stringLiteral _ => True

def ArgumentOperandsFit : List (Option Expression) → Prop
  | [] => True
  | none :: args => ArgumentOperandsFit args
  | some e :: args => e.OperandsFit ∧ ArgumentOperandsFit args

end

end Expr

/-! ## Single instructions -/

namespace LLVMVisitor

variable {B : IRBuilder} {s s' : Codegen} {l : List IRAction}

/-- Every operation of a log fits. -/
def AllFit (l : List IRAction) : Prop := ∀ x ∈ l, x.Fits

theorem allFit_append {l l' : List IRAction} : AllFit (l ++ l') ↔ AllFit l ∧ AllFit l' :=
  List.forall_mem_append

theorem allFit_of_quiet (h : ∀ x ∈ l, Quiet x) : AllFit l := fun x hx => (h x hx).fits

theorem operation_allFit {op : Operation} {vs : List Value} {v : Value}
    (h : Returns (Gen.createOperation B op vs) s l s' v) :
    AllFit l ↔ op.OperandsFit (vs.map Value.type) := by
  refine h.sat (Q := fun l _ _ => AllFit l ↔ _) (E := fun _ _ _ => True) ?_
  rw [Gen.sat_createOperation]
  split <;> simp [AllFit, IRAction.Fits]

theorem isInteger_iff {t : IRType} : t.isInteger = true ↔ ∃ w, t = .integer w := by
  cases t <;> simp [IRType.isInteger]

theorem toDouble_allFit {v u : Value} (h : Returns (toDouble B v) s l s' u) :
    u.type = .double ∧ (AllFit l ↔ v.type.isFloatingPoint ∨ v.type.isInteger) := by
  refine ⟨(h.sat (gives_toDouble (R := fun _ => True))).2.2, ?_⟩
  unfold toDouble at h
  split at h
  · rename_i hv
    cases h
    simp [AllFit, hv]
  · rename_i hv
    rw [operation_allFit h, isInteger_iff]
    simp [Operation.OperandsFit, hv]

theorem numericOperation_allFit {iop fop : Operation} {left right v : Value}
    (h : Returns (numericOperation B iop fop left right) s l s' v) :
    AllFit l ↔ NumericFits iop fop left.type right.type := by
  unfold numericOperation at h
  unfold NumericFits
  split at h
  · rename_i hi
    rw [if_pos hi, operation_allFit h]
    rfl
  · rename_i hi
    rw [if_neg hi]
    obtain ⟨l₁, s₁, left', l', h₁, h', rfl⟩ := returns_bind.1 h
    obtain ⟨l₂, s₂, right', l₃, h₂, h₃, rfl⟩ := returns_bind.1 h'
    obtain ⟨ht₁, hf₁⟩ := toDouble_allFit h₁
    obtain ⟨ht₂, hf₂⟩ := toDouble_allFit h₂
    rw [allFit_append, allFit_append, hf₁, hf₂, operation_allFit h₃]
    simp only [List.map_cons, List.map_nil, ht₁, ht₂]

theorem binaryOperation_allFit {op : BinaryOperation} {left right v : Value} (hs : s.Ready)
    (hl : s.Usable left) (hr : s.Usable right)
    (h : Returns (binaryOperation B op left right) s l s' v) :
    AllFit l ↔ left.type = .variant ∨ right.type = .variant ∨
      NumericFits (integerOperation op) (floatOperation op) left.type right.type := by
  unfold binaryOperation at h
  simp only [isVariantType_iff] at h
  split at h
  · rename_i hv
    have hq := (h.sat (gives_variantBinaryOperation (R := fun _ => True) hs hl hr)).1
    exact iff_of_true (allFit_of_quiet hq) (or_assoc.1 (.inl hv))
  · rename_i hv
    rw [numericOperation_allFit h, ← or_assoc]
    exact (or_iff_right hv).symm

theorem comparison_allFit {op : ComparisonOperation} {left right v : Value} (hs : s.Ready)
    (hl : s.Usable left) (hr : s.Usable right)
    (h : Returns (comparison B op left right) s l s' v) :
    AllFit l ↔ left.type = .variant ∨ right.type = .variant ∨
      NumericFits (integerComparison op) (floatComparison op) left.type right.type := by
  unfold comparison at h
  simp only [isVariantType_iff] at h
  split at h
  · rename_i hv
    have hq := (h.sat (gives_variantComparison (R := fun _ => True) hs hl hr)).1
    exact iff_of_true (allFit_of_quiet hq) (or_assoc.1 (.inl hv))
  · rename_i hv
    rw [numericOperation_allFit h, ← or_assoc]
    exact (or_iff_right hv).symm

theorem unaryOperation_allFit {op : UnaryOperation} {u v : Value} (hs : s.Ready)
    (hu : s.Usable u) (h : Returns (unaryOperation B op u) s l s' v) :
    AllFit l ↔ u.type = .variant ∨ op = .numericPositive ∨ u.type.isInteger := by
  unfold unaryOperation at h
  simp only [isVariantType_iff] at h
  split at h
  · rename_i hv
    have hq := (h.sat (gives_variantUnaryOperation (R := fun _ => True) hs hu)).1
    exact iff_of_true (allFit_of_quiet hq) (.inl hv)
  · rename_i hv
    cases op with
    | numericPositive =>
      cases h
      simp [AllFit]
    | numericNegative | booleanNegation =>
      rw [operation_allFit h, isInteger_iff]
      simp [Operation.OperandsFit, hv]

/-! ## Expressions -/

theorem expressions_allFit {args : List (Option Expression)}
    (ih : ∀ e, some e ∈ args → ∀ {s s' : Codegen} {l : List IRAction} {v : Value}, s.Ready →
      Returns (expression B e) s l s' v → (AllFit l ↔ e.OperandsFit)) :
    ∀ {s s' : Codegen} {l : List IRAction} {vs : List Value}, s.Ready →
      Returns (expressions B args) s l s' vs → (AllFit l ↔ Expr.ArgumentOperandsFit args) := by
  induction args with
  | nil =>
    intro s s' l vs _ h
    cases h
    simp [AllFit, Expr.ArgumentOperandsFit]
  | cons arg args iha =>
    intro s s' l vs hs h
    cases arg with
    | none => cases h
    | some e =>
      obtain ⟨l₁, s₁, u, l₂, us, h₁, hs₁, h₂, rfl, -⟩ := arguments_return hs h
      rw [allFit_append, ih e List.mem_cons_self hs h₁,
        iha (fun e he => ih e (List.mem_cons_of_mem _ he)) hs₁ h₂, Expr.ArgumentOperandsFit]

theorem expression_allFit (e : Expression) : ∀ {s s' : Codegen} {l : List IRAction} {v : Value},
    s.Ready → Returns (expression B e) s l s' v → (AllFit l ↔ e.OperandsFit) := by
  induction e using Expr.ind with
  | variableReference x =>
    intro s s' l v hs h
    unfold expression at h
    obtain ⟨l₁, rfl, h₁⟩ := variableReference_returns h
    have hq : AllFit l₁ := by
      split at h₁
      · rw [(newReference_returns h₁).1]
        exact fun x hx => absurd hx List.not_mem_nil
      · exact allFit_of_quiet (h₁.sat (gives_variableLookup (R := fun _ => True))).1
    rw [allFit_append]
    exact iff_of_true ⟨hq, by simp [AllFit, IRAction.Fits]⟩ trivial
  | getAttribute p a ih =>
    intro s s' l v hs h
    unfold expression at h
    obtain ⟨l₁, s₁, u, l₂, h₁, hs₁, h₂, rfl, hu, -⟩ := operand_returns hs h
    have hq : AllFit l₂ := by
      rcases hu with hu | hu
      · exact (h₂.sat (gives_getAttribute_error hs₁ hu)).2.2.elim
      · exact allFit_of_quiet (h₂.sat (gives_getAttribute (R := fun _ => True) hs₁ hu)).1
    rw [allFit_append, ih hs h₁, and_iff_left hq]
    rfl
  | methodCall m args ih =>
    intro s s' l v hs h
    unfold expression at h
    obtain ⟨l₁, s₁, vs, l₂, h₁, h₂, rfl⟩ := returns_bind.1 h
    obtain ⟨-, g₁, -, hvs, -⟩ := expressions_return hs h₁
    have hq : AllFit l₂ := allFit_of_quiet
      (h₂.sat (gives_methodCall (R := fun _ => True) (g₁.ready hs) hvs)).1
    rw [allFit_append, expressions_allFit ih hs h₁, and_iff_left hq]
    rfl
  | doubleLiteral v | integerLiteral v | booleanLiteral v =>
    intro s s' l v hs h
    cases h
    simp [AllFit, Expr.OperandsFit]
  | stringLiteral v =>
    intro s s' l v hs h
    cases h
    exact iff_of_true (fun x hx => absurd hx List.not_mem_nil) trivial
  | binaryOperation a b op iha ihb =>
    intro s s' l v hs h
    unfold expression at h
    obtain ⟨l₁, s₁, left, l₂, s₂, right, l₃, h₁, hs₁, h₂, hs₂, h₃, rfl, hl, hr, htl, htr⟩ :=
      operands_return hs h
    rw [allFit_append, allFit_append, iha hs h₁, ihb hs₁ h₂,
      binaryOperation_allFit hs₂ hl hr h₃, htl, htr]
    rfl
  | unaryOperation e op ih =>
    intro s s' l v hs h
    unfold expression at h
    obtain ⟨l₁, s₁, u, l₂, h₁, hs₁, h₂, rfl, hu, ht⟩ := operand_returns hs h
    rw [allFit_append, ih hs h₁, unaryOperation_allFit hs₁ hu h₂, ht]
    rfl
  | comparison a b op iha ihb =>
    intro s s' l v hs h
    unfold expression at h
    obtain ⟨l₁, s₁, left, l₂, s₂, right, l₃, h₁, hs₁, h₂, hs₂, h₃, rfl, hl, hr, htl, htr⟩ :=
      operands_return hs h
    rw [allFit_append, allFit_append, iha hs h₁, ihb hs₁ h₂, comparison_allFit hs₂ hl hr h₃, htl,
      htr]
    rfl

theorem allFit_entered {loop : Nat} {k v : Option Text} {it : Value} {f : LoopFrame}
    (h : Entered s loop k v it l s' f) : AllFit l := by
  obtain ⟨id, id', pos, kp, vp, l₁, l₂, l₃, -, hq, rfl⟩ := h.calls
  simp only [List.forall_mem_append] at hq
  simp only [allFit_append]
  exact ⟨⟨⟨⟨⟨allFit_of_quiet hq.1.1, by simp [AllFit, IRAction.Fits]⟩, allFit_of_quiet hq.1.2⟩,
    by simp [AllFit, IRAction.Fits]⟩, allFit_of_quiet hq.2⟩, by simp [AllFit, IRAction.Fits]⟩

theorem allFit_left {loop : Nat} {k v : Option Text} {it : Value} {f : LoopFrame}
    (h : Left s loop k v it f l s') : AllFit l := by
  obtain ⟨id, c, l₁, hq, rfl⟩ := h.calls
  exact allFit_append.2 ⟨allFit_of_quiet hq, by simp [AllFit, IRAction.Fits]⟩

theorem allFit_finished {it : Value} {f : LoopFrame} (h : Finished s it f l s') : AllFit l := by
  obtain ⟨l₁, hq, rfl⟩ := h.calls
  exact allFit_append.2 ⟨by simp [AllFit, IRAction.Fits], allFit_of_quiet hq⟩

theorem allFit_ifHead {v : Value} {n : Nat} : AllFit (ifHead v n) := by
  simp [AllFit, ifHead, IRAction.Fits]

theorem allFit_ifNext {m b : Nat} : AllFit (ifNext m b) := by
  simp [AllFit, ifNext, IRAction.Fits]

end LLVMVisitor

/-! ## Accepted expressions -/

namespace Expr

/-- The visitor makes a variant, of a negated one too. -/
def MakesVariant : Expression → Prop
  | .unaryOperation e .booleanNegation => e.MakesVariant
  | e => e.valueType = .variant

/-- An `i1`. -/
def IsCondition (e : Expression) : Prop := e.valueType = .boolean ∧ ¬e.MakesVariant

theorem makesVariant_of_valueType {e : Expression} (h : e.valueType = .variant) :
    e.MakesVariant := by
  unfold MakesVariant
  split
  · cases h
  · exact h

theorem valueType_of_makesVariant (e : Expression) (h : e.MakesVariant) :
    e.valueType = .variant ∨ e.valueType = .boolean := by
  unfold MakesVariant at h
  split at h
  · exact .inr rfl
  · exact .inl h

/-- Where the parser asks for a number, only `valueType()` counts. -/
theorem makesVariant_iff_of_numeric {e : Expression} (h : numericOrVariant e.valueType) :
    e.MakesVariant ↔ e.valueType = .variant := by
  refine ⟨fun hv => ?_, makesVariant_of_valueType⟩
  rcases valueType_of_makesVariant e hv with hv | hv
  · exact hv
  · rw [hv] at h
    cases h

theorem irType_of_valueType {e : Expression} (h : e.irType = e.valueType.irType)
    (hv : e.MakesVariant → e.valueType = .variant) :
    (e.MakesVariant → e.irType = .variant) ∧ (¬e.MakesVariant → e.irType = e.valueType.irType) := by
  refine ⟨fun hm => ?_, fun _ => h⟩
  rw [h, hv hm]
  rfl

/-- The type of the value of an accepted expression. -/
theorem irType_of_wellTyped (e : Expression) : e.WellTyped →
    (e.MakesVariant → e.irType = .variant) ∧ (¬e.MakesVariant → e.irType = e.valueType.irType) := by
  have hnum : ∀ e : Expression, numericOrVariant e.valueType →
      (e.MakesVariant → e.irType = .variant) ∧ (¬e.MakesVariant → e.irType = e.valueType.irType) →
      e.irType = e.valueType.irType := fun e hn he => by
    by_cases hv : e.MakesVariant
    · rw [he.1 hv, (makesVariant_iff_of_numeric hn).1 hv]
      rfl
    · exact he.2 hv
  induction e using Expr.ind with
  | binaryOperation l r op ihl ihr =>
    intro h
    have ht : (Expr.binaryOperation l r op).irType =
        (Expr.binaryOperation l r op).valueType.irType := by
      show binaryType op l.irType r.irType = _
      rw [hnum l h.2.2.1 (ihl h.1), hnum r h.2.2.2 (ihr h.2.1),
        binaryType_irType op h.2.2.1 h.2.2.2]
      rfl
    exact irType_of_valueType ht id
  | comparison l r op ihl ihr =>
    intro h
    refine ⟨nofun, fun _ => ?_⟩
    show comparisonType op l.irType r.irType = .int1
    by_cases hv : l.MakesVariant ∨ r.MakesVariant
    · exact if_pos (hv.imp (ihl h.1).1 (ihr h.2.1).1)
    · rw [not_or] at hv
      rw [(ihl h.1).2 hv.1, (ihr h.2.1).2 hv.2, comparisonType_irType op h.2.2.1 h.2.2.2]
  | unaryOperation e op ih =>
    intro h
    cases op with
    | booleanNegation =>
      refine ⟨(ih h.1).1, fun hv => ((ih h.1).2 hv).trans ?_⟩
      have hbool : booleanOrVariant e.valueType = true := h.2
      cases ht : e.valueType <;> rw [ht] at hbool <;> first | rfl | cases hbool
      exact absurd (makesVariant_of_valueType ht) hv
    | numericPositive | numericNegative =>
      have ht := hnum e h.2 (ih h.1)
      exact irType_of_valueType (ht.trans (congrArg _ (valueType_sign h.2 (by simp)).symm)) id
  | variableReference x | getAttribute v a _ | methodCall m args _ =>
    exact fun _ => ⟨fun _ => rfl, fun _ => rfl⟩
  | doubleLiteral v | integerLiteral v | booleanLiteral v | stringLiteral v =>
    exact fun _ => ⟨nofun, fun _ => rfl⟩

theorem irType_eq_variant_iff {e : Expression} (h : e.WellTyped) :
    e.irType = .variant ↔ e.MakesVariant := by
  refine ⟨fun ht => by_contra fun hv => ?_, (irType_of_wellTyped e h).1⟩
  rw [(irType_of_wellTyped e h).2 hv] at ht
  refine hv (makesVariant_of_valueType ?_)
  cases hc : e.valueType <;> rw [hc] at ht <;> first | rfl | cases ht

theorem irType_eq_int1_iff {e : Expression} (h : e.WellTyped) :
    e.irType = .int1 ↔ e.IsCondition := by
  unfold IsCondition
  by_cases hv : e.MakesVariant
  · rw [(irType_of_wellTyped e h).1 hv]
    simp [hv]
  · rw [(irType_of_wellTyped e h).2 hv]
    cases e.valueType <;> simp [hv, ExpressionValueType.irType]

/-- Values that are no variants and that `==` and `!=` can compare. -/
def ComparableTypes (left right : ExpressionValueType) : Prop :=
  left ≠ .string ∧ right ≠ .string ∧ (left = .boolean → right ≠ .integer) ∧
    (right = .boolean → left ≠ .integer)

mutual

/-- No `==` or `!=` of values of classes that cannot be compared, and no negation of a double. -/
def Supported : Expression → Prop
  | .getAttribute v _ => v.Supported
  | .methodCall _ args => SupportedArguments args
  | .binaryOperation l r _ => l.Supported ∧ r.Supported
  | .unaryOperation e op => e.Supported ∧ (op = .numericNegative → e.valueType ≠ .double)
  | .comparison l r op =>
    l.Supported ∧ r.Supported ∧ (op = .equal ∨ op = .notEqual →
      l.MakesVariant ∨ r.MakesVariant ∨ ComparableTypes l.valueType r.valueType)
  | .variableReference _ | .doubleLiteral _ | .integerLiteral _ | .booleanLiteral _
  | .stringLiteral _ => True

def SupportedArguments : List (Option Expression) → Prop
  | [] => True
  | none :: args => SupportedArguments args
  | some e :: args => e.Supported ∧ SupportedArguments args

end

theorem numeric_cases {c : ExpressionValueType} (h : numericOrVariant c) (hv : c ≠ .variant) :
    c = .double ∨ c = .integer := by
  cases c <;> simp_all [numericOrVariant]

theorem boolean_of_booleanOrVariant {c : ExpressionValueType} (h : booleanOrVariant c)
    (hv : c ≠ .variant) : c = .boolean := by
  cases c <;> simp_all [booleanOrVariant]

/-- Numbers fit an operation that has an instruction for integers and one for doubles. -/
theorem numericFits_of_numeric {iop fop : Operation}
    (hi : iop.OperandsFit [.int64, .int64]) (hf : fop.OperandsFit [.double, .double])
    {a b : ExpressionValueType} (ha : numericOrVariant a) (hb : numericOrVariant b)
    (hav : a ≠ .variant) (hbv : b ≠ .variant) : NumericFits iop fop a.irType b.irType := by
  rcases numeric_cases ha hav with rfl | rfl <;> rcases numeric_cases hb hbv with rfl | rfl
  · exact ⟨.inl rfl, .inl rfl, hf⟩
  · exact ⟨.inl rfl, .inr rfl, hf⟩
  · exact ⟨.inr rfl, .inl rfl, hf⟩
  · exact hi

theorem numericFits_binary (op : BinaryOperation) {a b : ExpressionValueType}
    (ha : numericOrVariant a) (hb : numericOrVariant b) (hav : a ≠ .variant)
    (hbv : b ≠ .variant) :
    NumericFits (integerOperation op) (floatOperation op) a.irType b.irType := by
  refine numericFits_of_numeric ?_ ?_ ha hb hav hbv
  · cases op <;> exact ⟨64, rfl⟩
  · cases op <;> rfl

/-- The parser checks the operands of the other comparisons; `==` and `!=` take any. -/
theorem numericFits_comparison (op : ComparisonOperation) {a b : ExpressionValueType}
    (ha : operandType op a) (hb : operandType op b) (hav : a ≠ .variant) (hbv : b ≠ .variant) :
    NumericFits (integerComparison op) (floatComparison op) a.irType b.irType ↔
      (op = .equal ∨ op = .notEqual → ComparableTypes a b) := by
  cases op with
  | equal | notEqual =>
    cases a <;> cases b <;>
      simp_all [NumericFits, ExpressionValueType.irType, IRType.isInteger,
        IRType.isFloatingPoint, Operation.OperandsFit, integerComparison, floatComparison,
        ComparableTypes]
  | greaterThan | greaterOrEqual | lessThan | lessOrEqual =>
    have hint : (Operation.iCmp .lt).OperandsFit [.int64, .int64] := ⟨64, rfl⟩
    have hdouble : (Operation.fCmp .lt).OperandsFit [.double, .double] := rfl
    exact iff_of_true (numericFits_of_numeric hint hdouble ha hb hav hbv) (by simp)
  | or | and =>
    obtain rfl := boolean_of_booleanOrVariant ha hav
    obtain rfl := boolean_of_booleanOrVariant hb hbv
    exact iff_of_true ⟨1, rfl⟩ (by simp)

theorem supportedArguments_iff : ∀ {args : List (Option Expression)},
    (∀ e, some e ∈ args → (e.OperandsFit ↔ e.Supported)) →
      (ArgumentOperandsFit args ↔ SupportedArguments args)
  | [], _ => Iff.rfl
  | none :: args, h => by
    rw [ArgumentOperandsFit, SupportedArguments,
      supportedArguments_iff fun e he => h e (List.mem_cons_of_mem _ he)]
  | some e :: args, h => by
    rw [ArgumentOperandsFit, SupportedArguments, h e List.mem_cons_self,
      supportedArguments_iff fun e he => h e (List.mem_cons_of_mem _ he)]

theorem wellTypedArguments_iff {args : List (Option Expression)} :
    WellTypedArguments args ↔ ∀ e, some e ∈ args → e.WellTyped := by
  induction args with
  | nil => simp [WellTypedArguments]
  | cons arg args ih =>
    cases arg with
    | none => simp [WellTypedArguments, ih]
    | some e => simp [WellTypedArguments, ih]

/-- The instructions of an accepted expression get operands that fit if it is supported, and
only then. -/
theorem operandsFit_iff (e : Expression) : e.WellTyped → (e.OperandsFit ↔ e.Supported) := by
  induction e using Expr.ind with
  | getAttribute v a ih => exact fun h => ih h.1
  | methodCall m args ih =>
    exact fun h => supportedArguments_iff fun e he => ih e he (wellTypedArguments_iff.1 h e he)
  | binaryOperation l r op ihl ihr =>
    intro h
    rw [OperandsFit, Supported, ihl h.1, ihr h.2.1]
    have hfit : l.irType = .variant ∨ r.irType = .variant ∨
        NumericFits (integerOperation op) (floatOperation op) l.irType r.irType := by
      rw [irType_eq_variant_iff h.1, irType_eq_variant_iff h.2.1]
      refine or_iff_not_imp_left.2 fun hl => or_iff_not_imp_left.2 fun hr => ?_
      rw [(irType_of_wellTyped l h.1).2 hl, (irType_of_wellTyped r h.2.1).2 hr]
      exact numericFits_binary op h.2.2.1 h.2.2.2 (mt makesVariant_of_valueType hl)
        (mt makesVariant_of_valueType hr)
    rw [← and_assoc, and_iff_left hfit]
  | comparison l r op ihl ihr =>
    intro h
    rw [OperandsFit, Supported, ihl h.1, ihr h.2.1, irType_eq_variant_iff h.1,
      irType_eq_variant_iff h.2.1]
    refine and_congr_right fun _ => and_congr_right fun _ => ?_
    by_cases hl : l.MakesVariant
    · exact iff_of_true (.inl hl) fun _ => .inl hl
    by_cases hr : r.MakesVariant
    · exact iff_of_true (.inr (.inl hr)) fun _ => .inr (.inl hr)
    simp only [hl, hr, false_or]
    rw [(irType_of_wellTyped l h.1).2 hl, (irType_of_wellTyped r h.2.1).2 hr]
    exact numericFits_comparison op h.2.2.1 h.2.2.2 (mt makesVariant_of_valueType hl)
      (mt makesVariant_of_valueType hr)
  | unaryOperation e op ih =>
    intro h
    rw [OperandsFit, Supported, ih h.1, irType_eq_variant_iff h.1]
    refine and_congr_right fun _ => ?_
    by_cases hv : e.MakesVariant
    · refine iff_of_true (.inl hv) fun _ ht => ?_
      rcases valueType_of_makesVariant e hv with h' | h' <;> rw [ht] at h' <;> cases h'
    · rw [(irType_of_wellTyped e h.1).2 hv]
      have hne := mt makesVariant_of_valueType hv
      cases op with
      | booleanNegation =>
        rw [boolean_of_booleanOrVariant h.2 hne]
        simp [ExpressionValueType.irType, IRType.isInteger]
      | numericPositive => simp
      | numericNegative =>
        rcases numeric_cases h.2 hne with ht | ht <;> rw [ht] <;>
          simp [hv, ExpressionValueType.irType, IRType.isInteger]
  | _ => exact fun _ => Iff.rfl

end Expr

/-! ## Trees -/

namespace AST

mutual

/-- `C` of the condition of every if block. -/
def GoesOn (C : Expression → Prop) : AST → Prop
  | .statements l => GoesOnList C l
  | .rawBlock _ | .printBlock _ | .includeBlock .. => True
  | .ifBlock c t none => C c ∧ t.GoesOn C
  | .ifBlock c t (some e) => C c ∧ t.GoesOn C ∧ e.GoesOn C
  | .forBlock _ _ _ b none => b.GoesOn C
  | .forBlock _ _ _ b (some e) => b.GoesOn C ∧ e.GoesOn C

def GoesOnList (C : Expression → Prop) : List AST → Prop
  | [] => True
  | s :: l => s.GoesOn C ∧ GoesOnList C l

end

mutual

/-- `P` of every expression up to the first if block with a condition that is not `C`. -/
def BeforeThrow (C P : Expression → Prop) : AST → Prop
  | .statements l => BeforeThrowList C P l
  | .rawBlock _ | .includeBlock .. => True
  | .printBlock e => P e
  | .ifBlock c t none => P c ∧ (C c → t.BeforeThrow C P)
  | .ifBlock c t (some e) =>
    P c ∧ (C c → t.BeforeThrow C P ∧ (t.GoesOn C → e.BeforeThrow C P))
  | .forBlock _ _ i b none => P i ∧ b.BeforeThrow C P
  | .forBlock _ _ i b (some e) => P i ∧ b.BeforeThrow C P ∧ (b.GoesOn C → e.BeforeThrow C P)

def BeforeThrowList (C P : Expression → Prop) : List AST → Prop
  | [] => True
  | s :: l => s.BeforeThrow C P ∧ (s.GoesOn C → BeforeThrowList C P l)

end

variable {C P C' P' Q R : Expression → Prop}
  {I : Text → Option Expression → StringExpressionMap → Prop}

theorem goesOn_ifBlock {c : Expression} {t : AST} {e : Option AST} :
    (ifBlock c t e).GoesOn C ↔ C c ∧ t.GoesOn C ∧ (elseOf e).GoesOn C := by
  cases e <;> simp [GoesOn, elseOf, GoesOnList]

theorem goesOn_forBlock {k v : Option Text} {i : Expression} {b : AST} {e : Option AST} :
    (forBlock k v i b e).GoesOn C ↔ b.GoesOn C ∧ (elseOf e).GoesOn C := by
  cases e <;> simp [GoesOn, elseOf, GoesOnList]

theorem beforeThrow_ifBlock {c : Expression} {t : AST} {e : Option AST} :
    (ifBlock c t e).BeforeThrow C P ↔ P c ∧ (C c →
      t.BeforeThrow C P ∧ (t.GoesOn C → (elseOf e).BeforeThrow C P)) := by
  cases e <;> simp [BeforeThrow, elseOf, BeforeThrowList]

theorem beforeThrow_forBlock {k v : Option Text} {i : Expression} {b : AST} {e : Option AST} :
    (forBlock k v i b e).BeforeThrow C P ↔
      P i ∧ b.BeforeThrow C P ∧ (b.GoesOn C → (elseOf e).BeforeThrow C P) := by
  cases e <;> simp [BeforeThrow, elseOf, BeforeThrowList]

theorem everywhere_elseOf {e : Option AST} (h : ∀ b, e = some b → b.Everywhere Q R I) :
    (elseOf e).Everywhere Q R I := by
  cases e with
  | none => trivial
  | some e => exact h e rfl

/-- What is the same of every expression of a tree. -/
theorem goesOn_congr {a : AST} (hC : ∀ e, Q e → (C e ↔ C' e)) (ha : a.Everywhere Q R I) :
    a.GoesOn C ↔ a.GoesOn C' := by
  induction a with
  | statements l ih =>
    induction l with
    | nil => rfl
    | cons s l ihl =>
      exact and_congr (ih s List.mem_cons_self ha.1)
        (ihl (fun s hs => ih s (List.mem_cons_of_mem _ hs)) ha.2)
  | ifBlock c t e iht ihe =>
    obtain ⟨hc, ht, he⟩ := everywhere_ifBlock.1 ha
    rw [goesOn_ifBlock, goesOn_ifBlock, hC c hc, iht ht]
    cases e with
    | none => rfl
    | some e => exact and_congr_right fun _ => and_congr_right fun _ => ihe e rfl (he e rfl)
  | forBlock k v i b e ihb ihe =>
    obtain ⟨-, -, hb, he⟩ := everywhere_forBlock.1 ha
    rw [goesOn_forBlock, goesOn_forBlock, ihb hb]
    cases e with
    | none => rfl
    | some e => exact and_congr_right fun _ => ihe e rfl (he e rfl)
  | rawBlock t | printBlock e | includeBlock n s M => rfl

theorem beforeThrow_congr {a : AST} (hC : ∀ e, Q e → (C e ↔ C' e))
    (hP : ∀ e, Q e → (P e ↔ P' e)) (ha : a.Everywhere Q R I) :
    a.BeforeThrow C P ↔ a.BeforeThrow C' P' := by
  induction a with
  | statements l ih =>
    induction l with
    | nil => rfl
    | cons s l ihl =>
      exact and_congr (ih s List.mem_cons_self ha.1) (imp_congr (goesOn_congr hC ha.1)
        (ihl (fun s hs => ih s (List.mem_cons_of_mem _ hs)) ha.2))
  | ifBlock c t e iht ihe =>
    obtain ⟨hc, ht, he⟩ := everywhere_ifBlock.1 ha
    rw [beforeThrow_ifBlock, beforeThrow_ifBlock, hC c hc, hP c hc, iht ht, goesOn_congr hC ht]
    cases e with
    | none => rfl
    | some e => rw [show (elseOf (some e)).BeforeThrow C P ↔ _ from ihe e rfl (he e rfl)]; rfl
  | forBlock k v i b e ihb ihe =>
    obtain ⟨hi, -, hb, he⟩ := everywhere_forBlock.1 ha
    rw [beforeThrow_forBlock, beforeThrow_forBlock, hP i hi, ihb hb, goesOn_congr hC hb]
    cases e with
    | none => rfl
    | some e => rw [show (elseOf (some e)).BeforeThrow C P ↔ _ from ihe e rfl (he e rfl)]; rfl
  | printBlock e => exact hP e ha
  | rawBlock t | includeBlock n s M => rfl

end AST

/-- Every expression has a value, and every iterable is a variant. -/
abbrev AST.AllGenerate : AST → Prop :=
  Everywhere Expr.Generates (fun e => e.irType = .variant) fun _ _ _ => False

/-- Of these trees only if blocks make the visitor throw. -/
theorem AST.compiles_iff_goesOn {a : AST} (ha : a.AllGenerate) :
    a.Compiles ↔ a.GoesOn fun c => c.irType = .int1 := by
  induction a with
  | statements l ih =>
    induction l with
    | nil => rfl
    | cons s l ihl =>
      exact and_congr (ih s List.mem_cons_self ha.1)
        (ihl (fun s hs => ih s (List.mem_cons_of_mem _ hs)) ha.2)
  | ifBlock c t e iht ihe =>
    obtain ⟨hc, ht, he⟩ := everywhere_ifBlock.1 ha
    rw [compiles_ifBlock, goesOn_ifBlock, iht ht, and_iff_right hc]
    cases e with
    | none => rfl
    | some e => exact and_congr_right fun _ => and_congr_right fun _ => ihe e rfl (he e rfl)
  | forBlock k v i b e ihb ihe =>
    obtain ⟨hi, hv, hb, he⟩ := everywhere_forBlock.1 ha
    rw [compiles_forBlock, goesOn_forBlock, ihb hb, and_iff_right hi, and_iff_right hv]
    cases e with
    | none => rfl
    | some e => exact and_congr_right fun _ => ihe e rfl (he e rfl)
  | rawBlock t => rfl
  | printBlock e => exact iff_of_true ha trivial
  | includeBlock n s M => exact ha.elim

namespace LLVMVisitor

/-- The instructions of a visit get operands that fit if and only if those of every expression
visited do. -/
theorem Visits.allFit {B : IRBuilder} {a : AST} {s s' : Codegen} {l : List IRAction} {r : Bool}
    (h : Visits B a s l s' r) : s.Ready → a.AllGenerate →
      (AllFit l ↔ a.BeforeThrow (fun c => c.irType = .int1) Expr.OperandsFit) := by
  induction h with
  | nil => simp [AllFit, AST.BeforeThrow, AST.BeforeThrowList]
  | cons ha hs₁ has iha ihas =>
    intro hs hg
    have hc := (AST.compiles_iff_goesOn hg.1).1 ((ha.compiles_iff hs).2 rfl)
    have has' := ihas hs₁ hg.2
    simp only [allFit_append, AST.BeforeThrow, AST.BeforeThrowList, iha hs hg.1] at has' ⊢
    simp only [hc, true_imp_iff, has']
  | consThrows ha iha =>
    intro hs hg
    have hc := mt (AST.compiles_iff_goesOn hg.1).2 ((ha.compiles_iff hs).not.2 (by simp))
    simp only [AST.BeforeThrow, AST.BeforeThrowList, iha hs hg.1, hc, false_imp_iff, and_true]
  | rawBlock h =>
    intro hs _
    have hq := (h.sat (gives_printText (R := fun _ => True) hs)).1
    exact iff_of_true (allFit_of_quiet hq) trivial
  | printBlock he hs₁ hp =>
    intro hs _
    have hv := (expression_returns hs he).2.2
    have hq := (hp.sat (gives_printValue (R := fun _ => True) hs₁ hv.usable)).1
    rw [allFit_append, expression_allFit _ hs he, and_iff_left (allFit_of_quiet hq)]
    rfl
  | printThrows he => exact fun hs hg => absurd hg (expression_throws hs he).2.2
  | ifBlock hc hs₁ hv ht hs₂ he iht ihe =>
    intro hs hg
    obtain ⟨-, hgt, hge⟩ := AST.everywhere_ifBlock.1 hg
    have htype := (expression_returns hs hc).2.2.type.symm.trans hv
    have htc := (AST.compiles_iff_goesOn hgt).1 ((ht.compiles_iff (ready_withBlocks hs₁)).2 rfl)
    simp only [allFit_append, expression_allFit _ hs hc, allFit_ifHead, allFit_ifNext,
      iht (ready_withBlocks hs₁) hgt, ihe hs₂ (AST.everywhere_elseOf hge),
      AST.beforeThrow_ifBlock, htype, htc, and_true, true_imp_iff, and_assoc]
  | ifCondition hc =>
    intro hs hg
    exact absurd (AST.everywhere_ifBlock.1 hg).1 (expression_throws hs hc).2.2
  | ifType hc hv =>
    intro hs hg
    have htype := (expression_returns hs hc).2.2.type
    rw [htype] at hv
    simp only [expression_allFit _ hs hc, AST.beforeThrow_ifBlock, hv, false_imp_iff, and_true]
  | ifThen hc hs₁ hv ht iht =>
    intro hs hg
    obtain ⟨-, hgt, hge⟩ := AST.everywhere_ifBlock.1 hg
    have htype := (expression_returns hs hc).2.2.type.symm.trans hv
    have htc := mt (AST.compiles_iff_goesOn hgt).2
      ((ht.compiles_iff (ready_withBlocks hs₁)).not.2 (by simp))
    simp only [allFit_append, expression_allFit _ hs hc, allFit_ifHead,
      iht (ready_withBlocks hs₁) hgt, AST.beforeThrow_ifBlock, htype, htc, and_true,
      true_imp_iff, false_imp_iff]
  | ifElse hc hs₁ hv ht hs₂ he iht ihe =>
    intro hs hg
    obtain ⟨-, hgt, hge⟩ := AST.everywhere_ifBlock.1 hg
    have htype := (expression_returns hs hc).2.2.type.symm.trans hv
    have htc := (AST.compiles_iff_goesOn hgt).1 ((ht.compiles_iff (ready_withBlocks hs₁)).2 rfl)
    simp only [allFit_append, expression_allFit _ hs hc, allFit_ifHead, allFit_ifNext,
      iht (ready_withBlocks hs₁) hgt, ihe hs₂ (AST.everywhere_elseOf hge),
      AST.beforeThrow_ifBlock, htype, htc, and_true, true_imp_iff, and_assoc]
  | forBlock hi hs₁ hf hs₂ hb hs₃ hl hs₄ he hs₅ hz ihb ihe =>
    intro hs hg
    obtain ⟨-, -, hgb, hge⟩ := AST.everywhere_forBlock.1 hg
    have hloop := loopVisit hf (hb.frame hs₂).1 ((hb.frame hs₂).2 rfl) hs₃ hl
    have hF := (hz.sat (finishLoop_spec hs₅)).1
    have hbc := (AST.compiles_iff_goesOn hgb).1 ((hb.compiles_iff hs₂).2 rfl)
    simp only [allFit_append, expression_allFit _ (ready_withLoop hs) hi,
      allFit_entered hloop.entered, allFit_left hloop.left, allFit_finished hF, ihb hs₂ hgb,
      ihe hs₄ (AST.everywhere_elseOf hge), AST.beforeThrow_forBlock, hbc, and_true, true_imp_iff,
      and_assoc]
  | forIterable hi =>
    intro hs hg
    exact absurd (AST.everywhere_forBlock.1 hg).1 (expression_throws (ready_withLoop hs) hi).2.2
  | forBody hi hs₁ hf hs₂ hb ihb =>
    intro hs hg
    obtain ⟨-, -, hgb, hge⟩ := AST.everywhere_forBlock.1 hg
    have hE := hf.sat (enterLoop_spec (E := fun _ _ _ => True))
    have hbc := mt (AST.compiles_iff_goesOn hgb).2 ((hb.compiles_iff hs₂).not.2 (by simp))
    simp only [allFit_append, expression_allFit _ (ready_withLoop hs) hi, allFit_entered hE,
      ihb hs₂ hgb, AST.beforeThrow_forBlock, hbc, and_true, false_imp_iff]
  | forElse hi hs₁ hf hs₂ hb hs₃ hl hs₄ he ihb ihe =>
    intro hs hg
    obtain ⟨-, -, hgb, hge⟩ := AST.everywhere_forBlock.1 hg
    have hloop := loopVisit hf (hb.frame hs₂).1 ((hb.frame hs₂).2 rfl) hs₃ hl
    have hbc := (AST.compiles_iff_goesOn hgb).1 ((hb.compiles_iff hs₂).2 rfl)
    simp only [allFit_append, expression_allFit _ (ready_withLoop hs) hi,
      allFit_entered hloop.entered, allFit_left hloop.left, ihb hs₂ hgb,
      ihe hs₄ (AST.everywhere_elseOf hge), AST.beforeThrow_forBlock, hbc, and_true, true_imp_iff,
      and_assoc]
  | forFinish hi hs₁ hf hs₂ hb hs₃ hl hs₄ he hs₅ hz ihb ihe =>
    intro hs hg
    obtain ⟨-, hvar, hgb, hge⟩ := AST.everywhere_forBlock.1 hg
    have hloop := loopVisit hf (hb.frame hs₂).1 ((hb.frame hs₂).2 rfl) hs₃ hl
    obtain ⟨_, hF, -⟩ := hz.sat (finishLoop_spec hs₅)
    have hbc := (AST.compiles_iff_goesOn hgb).1 ((hb.compiles_iff hs₂).2 rfl)
    simp only [allFit_append, expression_allFit _ (ready_withLoop hs) hi,
      allFit_entered hloop.entered, allFit_left hloop.left, allFit_finished hF, ihb hs₂ hgb,
      ihe hs₄ (AST.everywhere_elseOf hge), AST.beforeThrow_forBlock, hbc, and_true, true_imp_iff,
      and_assoc]
  | includeBlock => exact fun _ hg => absurd hg id

/-- Every instruction that a clean visitor makes for the tree gets operands that fit. -/
def TypeSafe (B : IRBuilder) (a : AST) : Prop := ∀ s : Codegen, s.Clean → AllFit (visit B a s).log

theorem visit_allFit {B : IRBuilder} {a : AST} (ha : a.AllGenerate) {s : Codegen} (hs : s.Clean) :
    AllFit (visit B a s).log ↔ a.BeforeThrow (fun c => c.irType = .int1) Expr.OperandsFit := by
  obtain ⟨l, s', r, h, hok, herr⟩ := visit_run B a hs
  rw [← h.allFit Codegen.ready_start ha]
  have hentry : AllFit entryLog := by simp [AllFit, entryLog, IRAction.Fits]
  cases r with
  | true =>
    have hret : AllFit [.retVoid] := by simp [AllFit, IRAction.Fits]
    rw [hok rfl, allFit_append, allFit_append, and_iff_left hret, and_iff_right hentry]
  | false =>
    obtain ⟨err, hrun⟩ := herr rfl
    rw [hrun, allFit_append, and_iff_right hentry]

theorem allGenerate_of_checked {a : AST} (h : a.Checked) : a.AllGenerate :=
  AST.Everywhere.mono (fun e he => e.generates_of_wellTyped he.1 he.2)
    (fun e => e.irType_of_variant) (fun _ _ _ => id) a h

/-- The function of an accepted template without include blocks, after the last passes, is type
safe if and only if every expression up to the first condition that is no `i1` is supported. -/
theorem typeSafe_iff {B : IRBuilder} {t : RootTree} {line n : Nat} {a r : AST}
    (h : t.action line = .ok a) (hi : a.IncludeFree)
    (hr : runPasses (lastPasses.map (ASTPass.process · n)) a = .ok r) :
    TypeSafe B r ↔ r.BeforeThrow Expr.IsCondition Expr.Supported := by
  have hc := checked_lastPasses h hi hr
  rw [← AST.beforeThrow_congr (fun e he => Expr.irType_eq_int1_iff he.1)
    (fun e he => e.operandsFit_iff he.1) hc]
  have hg := allGenerate_of_checked hc
  exact ⟨fun h => (visit_allFit hg Codegen.clean_fresh).1 (h _ Codegen.clean_fresh),
    fun h s hs => (visit_allFit hg hs).2 h⟩

/-- `{{ e }}`. -/
def printTree (e : ExpressionTree) : RootTree := .statements (.one (.printBlock e))

/-- `{{ x == 1 }}`. -/
theorem typeSafe_variant :
    TypeSafe .noFolding (.printBlock (.comparison (.variableReference ['x']) (.integerLiteral 1)
      .equal)) := by
  have h : (printTree (.comparison (.varRef (.identifier ['x'])) (.integerLiteral 1)
      .equal)).action 1 = .ok (.printBlock (.comparison (.variableReference ['x'])
        (.integerLiteral 1) .equal)) := rfl
  have hr : runPasses (lastPasses.map (ASTPass.process · 1)) (.printBlock (.comparison
      (.variableReference ['x']) (.integerLiteral 1) .equal)) = .ok (.printBlock (.comparison
        (.variableReference ['x']) (.integerLiteral 1) .equal)) := by
    rfl
  refine (typeSafe_iff h trivial hr).2 ⟨trivial, trivial, fun _ => .inl rfl⟩

/-- `{{ true == 1 }}` passes the parser and the passes, and compares an `i1` with an `i64`. -/
theorem not_typeSafe_boolean :
    ∃ a r, (printTree (.comparison (.booleanLiteral true) (.integerLiteral 1) .equal)).action 1 =
      .ok a ∧ a.IncludeFree ∧ runPasses (lastPasses.map (ASTPass.process · 1)) a = .ok r ∧
      ¬TypeSafe .noFolding r := by
  refine ⟨_, .printBlock (.comparison (.booleanLiteral true) (.integerLiteral 1) .equal), rfl,
    trivial, rfl, fun h => ?_⟩
  have hmem := h _ Codegen.clean_fresh (.operation (.iCmp .eq) [constantInt 1 1, constantInt 64 1]
    (.instruction 1 .int1)) (by decide)
  obtain ⟨w, hw⟩ := hmem
  cases hw

end LLVMVisitor

end B2
