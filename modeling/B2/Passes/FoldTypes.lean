import B2.Passes.FoldConstants

/-!
# Literal types in constant folding

The steps of the pass are the comparison rules it applies (`comparisonSteps`).
A run respects the literal types when it never reads a literal through the
class of another one and every step whose two literal operands do not have the
types its operator needs leaves the node alone (`RespectsLiteralTypes`).

The guards of the ordering and the logical cases join their two tests with
`&&`, so a step with one operand of the type needed and one literal of another
type goes wrong. `firstTrouble` finds the first such step, or the first
division by zero, from the tree alone: from the types of its constant subtrees
(`constantType`) and the values of its integer ones (`constantLong`). Nothing
tests for an overflow, so a run goes on after one, with whatever integer the
`machine` makes of it.
-/

namespace B2

/-! ## Runs and their comparison steps -/

/-- A comparison rule about to be applied: its folded operands and its operator. -/
structure ComparisonStep where
  left : Expression
  right : Expression
  op : ComparisonOperation

/-- What runs after `x` has returned. -/
def afterOk {α β : Type} (x : Run α) (k : α → List β) : List β :=
  match x with
  | .ok a => k a
  | .error _ => []

section

variable [Overflow]

mutual

/-- The comparison rules `FoldConstantExpressionsPass` applies in a tree, in order. -/
def comparisonSteps : Expression → List ComparisonStep
  | .getAttribute v _ => comparisonSteps v
  | .methodCall _ args => argumentSteps args
  | .binaryOperation l r _ =>
    comparisonSteps l ++ afterOk (foldConstantExpressions l) fun _ => comparisonSteps r
  | .unaryOperation e _ => comparisonSteps e
  | .comparison l r op =>
    comparisonSteps l ++ afterOk (foldConstantExpressions l) fun left =>
      comparisonSteps r ++ afterOk (foldConstantExpressions r) fun right => [⟨left, right, op⟩]
  | .variableReference _ | .doubleLiteral _ | .integerLiteral _ | .booleanLiteral _
  | .stringLiteral _ => []

def argumentSteps : List (Option Expression) → List ComparisonStep
  | [] => []
  | none :: _ => []
  | some e :: args =>
    comparisonSteps e ++ afterOk (foldConstantExpressions e) fun _ => argumentSteps args

end

end

def isNumericType : ExpressionValueType → Bool
  | .double | .integer => true
  | _ => false

/-- The type of a literal node. -/
def literalType : Expression → Option ExpressionValueType
  | .doubleLiteral _ => some .double
  | .integerLiteral _ => some .integer
  | .booleanLiteral _ => some .boolean
  | .stringLiteral _ => some .string
  | _ => none

/-- The operator is defined on literals of these types. -/
def requiredTypes (op : ComparisonOperation) (a b : ExpressionValueType) : Bool :=
  match op with
  | .equal | .notEqual =>
    isNumericType a && isNumericType b || a == .boolean && b == .boolean ||
      a == .string && b == .string
  | .greaterThan | .greaterOrEqual | .lessThan | .lessOrEqual => isNumericType a && isNumericType b
  | .or | .and => a == .boolean && b == .boolean

/-- The step does not fold literals its operator is not defined on. -/
def ComparisonStep.LeftAlone (s : ComparisonStep) : Prop :=
  ∀ a b, literalType s.left = some a → literalType s.right = some b →
    requiredTypes s.op a b = false →
    foldComparison s.left s.right s.op = .ok (.comparison s.left s.right s.op)

/-- Folding `e` on a machine reads every literal as what it is and folds no mismatched
comparison. -/
def RespectsLiteralTypes (machine : Int → Int64) (e : Expression) : Prop :=
  letI := Overflow.goesOn machine
  foldConstantExpressions e ≠ .error (.undefined .wrongCast) ∧
    ∀ s ∈ comparisonSteps e, s.LeftAlone

/-! ## Constant subtrees -/

/-- Exactly one operand has the type the operator needs. -/
def oneSided (op : ComparisonOperation) (a b : ExpressionValueType) : Bool :=
  match op with
  | .equal | .notEqual => false
  | .greaterThan | .greaterOrEqual | .lessThan | .lessOrEqual =>
    isNumericType a != isNumericType b
  | .or | .and => (a == .boolean) != (b == .boolean)

def binaryConstantType (op : BinaryOperation) :
    Option ExpressionValueType → Option ExpressionValueType → Option ExpressionValueType
  | some .integer, some .integer => some .integer
  | some .double, some .double | some .double, some .integer | some .integer, some .double =>
    -- the modulus of two doubles stays an operation
    if op = .modulus then none else some .double
  | _, _ => none

def unaryConstantType (op : UnaryOperation) :
    Option ExpressionValueType → Option ExpressionValueType
  | some .boolean => if op = .booleanNegation then some .boolean else none
  | some .integer => if op = .booleanNegation then none else some .integer
  | some .double => if op = .booleanNegation then none else some .double
  | _ => none

def comparisonConstantType (op : ComparisonOperation) :
    Option ExpressionValueType → Option ExpressionValueType → Option ExpressionValueType
  | some a, some b => if requiredTypes op a b then some .boolean else none
  | _, _ => none

/-- The type of the constant a tree is, if it is one. -/
def constantType : Expression → Option ExpressionValueType
  | .doubleLiteral _ => some .double
  | .integerLiteral _ => some .integer
  | .booleanLiteral _ => some .boolean
  | .stringLiteral _ => some .string
  | .binaryOperation l r op => binaryConstantType op (constantType l) (constantType r)
  | .unaryOperation e op => unaryConstantType op (constantType e)
  | .comparison l r op => comparisonConstantType op (constantType l) (constantType r)
  | .variableReference _ | .getAttribute .. | .methodCall .. => none

section

variable (machine : Int → Int64)

/-- `v`, where a `long` can hold the exact result `z`, and what the machine makes of it else. -/
def heldValue (z v : Int) : Int := if FitsLong z then v else (machine z).toInt

/-- The value of a `long` operation, where it has one. -/
def longResult (op : BinaryOperation) (a b : Int) : Option Int :=
  match op with
  | .addition => some (heldValue machine (a + b) (a + b))
  | .subtraction => some (heldValue machine (a - b) (a - b))
  | .multiplication => some (heldValue machine (a * b) (a * b))
  | .division => if b = 0 then none else some (heldValue machine (a.tdiv b) (a.tdiv b))
  | .modulus => if b = 0 then none else some (heldValue machine (a.tdiv b) (a.tmod b))

/-- The value of an integer constant, where all its operations have one. -/
def constantLong : Expression → Option Int
  | .integerLiteral v => some v.toInt
  | .binaryOperation l r op =>
    match constantLong l, constantLong r with
    | some a, some b => longResult machine op a b
    | _, _ => none
  | .unaryOperation e op =>
    match op, constantLong e with
    | .numericPositive, some a => some (heldValue machine (a * 1) (a * 1))
    | .numericNegative, some a => some (heldValue machine (a * -1) (a * -1))
    | _, _ => none
  | _ => none

end

/-! ## The first step that goes wrong -/

inductive Trouble where
  /-- a division by zero or a null argument: the run ends here -/
  | stops
  /-- a comparison of literals only one of which has the type needed -/
  | mismatch
  deriving DecidableEq

def arithmeticTrouble (machine : Int → Int64) (e : Expression) : Option Trouble :=
  if constantType e = some .integer ∧ constantLong machine e = none then some .stops else none

def comparisonTrouble (op : ComparisonOperation) :
    Option ExpressionValueType → Option ExpressionValueType → Option Trouble
  | some a, some b => if oneSided op a b then some .mismatch else none
  | _, _ => none

section

variable (machine : Int → Int64)

mutual

/-- The first trouble in a tree, operands before operators and left before right. -/
def firstTrouble : Expression → Option Trouble
  | .getAttribute v _ => firstTrouble v
  | .methodCall _ args => firstArgumentTrouble args
  | .binaryOperation l r op =>
    (firstTrouble l).or ((firstTrouble r).or (arithmeticTrouble machine (.binaryOperation l r op)))
  | .unaryOperation e op => (firstTrouble e).or (arithmeticTrouble machine (.unaryOperation e op))
  | .comparison l r op =>
    (firstTrouble l).or ((firstTrouble r).or
      (comparisonTrouble op (constantType l) (constantType r)))
  | .variableReference _ | .doubleLiteral _ | .integerLiteral _ | .booleanLiteral _
  | .stringLiteral _ => none

def firstArgumentTrouble : List (Option Expression) → Option Trouble
  | [] => none
  | none :: _ => some .stops
  | some e :: args => (firstTrouble e).or (firstArgumentTrouble args)

end

end

/-! ## The verdict on a run -/

/-- What a trouble says about a run and its steps; without one the result satisfies `P`. -/
def Verdict {α : Type} (steps : List ComparisonStep) (x : Run α) (P : α → Prop) :
    Option Trouble → Prop
  | none => (∃ a, x = .ok a ∧ P a) ∧ ∀ s ∈ steps, s.LeftAlone
  | some .stops =>
    (∃ err, x = .error err ∧ err ≠ .undefined .wrongCast) ∧ ∀ s ∈ steps, s.LeftAlone
  | some .mismatch => x = .error (.undefined .wrongCast) ∨ ∃ s ∈ steps, ¬s.LeftAlone

theorem verdict_ok {α : Type} {P : α → Prop} {a : α} (h : P a) : Verdict [] (.ok a) P none :=
  ⟨⟨a, rfl, h⟩, by simp⟩

/-- Steps that left their node alone put before a run change nothing. -/
theorem Verdict.append {α : Type} {s₁ s₂ : List ComparisonStep} {x : Run α} {P : α → Prop}
    (h₁ : ∀ s ∈ s₁, s.LeftAlone) :
    ∀ {t : Option Trouble}, Verdict s₂ x P t → Verdict (s₁ ++ s₂) x P t
  | none, ⟨hx, h₂⟩ => ⟨hx, fun s hs => (List.mem_append.1 hs).elim (h₁ s) (h₂ s)⟩
  | some .stops, ⟨hx, h₂⟩ => ⟨hx, fun s hs => (List.mem_append.1 hs).elim (h₁ s) (h₂ s)⟩
  | some .mismatch, .inl hx => .inl hx
  | some .mismatch, .inr ⟨s, hs, h⟩ => .inr ⟨s, List.mem_append_right _ hs, h⟩

/-- Two runs one after the other: the first trouble is that of the first run that has one. -/
theorem Verdict.bind {α β : Type} {s₁ : List ComparisonStep} {s₂ : α → List ComparisonStep}
    {x : Run α} {k : α → Run β} {P : α → Prop} {Q : β → Prop} {t₁ t₂ : Option Trouble}
    (h₁ : Verdict s₁ x P t₁) (h₂ : ∀ a, P a → Verdict (s₂ a) (k a) Q t₂) :
    Verdict (s₁ ++ afterOk x s₂) (x >>= k) Q (t₁.or t₂) := by
  match t₁, h₁ with
  | none, ⟨⟨a, hx, ha⟩, hs⟩ =>
    subst hx
    exact (h₂ a ha).append hs
  | some .stops, ⟨⟨err, hx, herr⟩, hs⟩ =>
    subst hx
    exact ⟨⟨err, rfl, herr⟩, by simpa [afterOk] using hs⟩
  | some .mismatch, .inl hx =>
    subst hx
    exact .inl rfl
  | some .mismatch, .inr ⟨s, hs, h⟩ => exact .inr ⟨s, List.mem_append_left _ hs, h⟩

/-- A run that goes on without a comparison. -/
theorem Verdict.andThen {α β : Type} {steps : List ComparisonStep} {x : Run α} {k : α → Run β}
    {P : α → Prop} {Q : β → Prop} {t₁ t₂ : Option Trouble} (h₁ : Verdict steps x P t₁)
    (h₂ : ∀ a, P a → Verdict [] (k a) Q t₂) : Verdict steps (x >>= k) Q (t₁.or t₂) := by
  have hnil : afterOk x (fun _ => ([] : List ComparisonStep)) = [] := by cases x <;> rfl
  have := h₁.bind h₂
  rwa [hnil, List.append_nil] at this

theorem Verdict.map {α β : Type} {steps : List ComparisonStep} {x : Run α} {g : α → β}
    {P : α → Prop} {Q : β → Prop} {t : Option Trouble} (h : Verdict steps x P t)
    (hg : ∀ a, P a → Q (g a)) : Verdict steps (x >>= fun a => pure (g a)) Q t := by
  rw [← Option.or_none (o := t)]
  exact h.andThen fun a ha => verdict_ok (hg a ha)

/-! ## One comparison -/

section

variable {left right : Expression} {op : ComparisonOperation} {a b : ExpressionValueType}

theorem isLiteral_of_literalType (h : literalType left = some a) :
    isLiteralExpression left = true := by
  cases left <;> first | rfl | simp [literalType] at h

theorem foldComparison_of_literalType (hl : literalType left = some a)
    (hr : literalType right = some b) :
    foldComparison left right op = foldLiterals left right op := by
  simp [foldComparison, isLiteral_of_literalType hl, isLiteral_of_literalType hr]

theorem isNumeric_eq (h : literalType left = some a) :
    isNumericLiteralExpression left = isNumericType a := by
  cases left <;> simp only [literalType, Option.some.injEq, reduceCtorEq] at h <;> subst h <;> rfl

theorem isBoolean_eq (h : literalType left = some a) :
    isBooleanLiteralExpression left = (a == .boolean) := by
  cases left <;> simp only [literalType, Option.some.injEq, reduceCtorEq] at h <;> subst h <;> rfl

theorem isString_eq (h : literalType left = some a) :
    isStringLiteralExpression left = (a == .string) := by
  cases left <;> simp only [literalType, Option.some.injEq, reduceCtorEq] at h <;> subst h <;> rfl

theorem numericValue_of_type (h : literalType left = some a) :
    if isNumericType a then ∃ v, numericValue left = .ok v
    else numericValue left = .error (.undefined .wrongCast) := by
  cases left <;> simp only [literalType, Option.some.injEq, reduceCtorEq] at h <;> subst h <;>
    simp [isNumericType, numericValue]

theorem booleanValue_of_type (h : literalType left = some a) :
    if a = .boolean then ∃ v, booleanValue left = .ok v
    else booleanValue left = .error (.undefined .wrongCast) := by
  cases left <;> simp only [literalType, Option.some.injEq, reduceCtorEq] at h <;> subst h <;>
    simp [booleanValue]

theorem foldEquality_of_type (hl : literalType left = some a) (hr : literalType right = some b) :
    if requiredTypes .equal a b then ∃ v, foldEquality left right op = .ok (.booleanLiteral v)
    else foldEquality left right op = .ok (.comparison left right op) := by
  have hlv := numericValue_of_type hl
  have hrv := numericValue_of_type hr
  cases left <;> simp only [literalType, Option.some.injEq, reduceCtorEq] at hl <;> subst hl <;>
    cases right <;> simp only [literalType, Option.some.injEq, reduceCtorEq] at hr <;> subst hr <;>
    first | rfl | exact ⟨_, rfl⟩

theorem foldOrdering_of_type (op : ComparisonOperation) (hl : literalType left = some a)
    (hr : literalType right = some b) :
    if isNumericType a then
      if isNumericType b then ∃ v, foldOrdering left right op = .ok (.booleanLiteral v)
      else foldOrdering left right op = .error (.undefined .wrongCast)
    else if isNumericType b then foldOrdering left right op = .error (.undefined .wrongCast)
    else foldOrdering left right op = .ok (.comparison left right op) := by
  cases left <;> simp only [literalType, Option.some.injEq, reduceCtorEq] at hl <;> subst hl <;>
    cases right <;> simp only [literalType, Option.some.injEq, reduceCtorEq] at hr <;> subst hr <;>
    first | rfl | exact ⟨_, rfl⟩

/-- Where the left literal decides, the right one is not read. -/
theorem foldLogical_of_type (op : ComparisonOperation) (hl : literalType left = some a)
    (hr : literalType right = some b) :
    if a = .boolean then
      if b = .boolean then ∃ v, foldLogical left right op = .ok (.booleanLiteral v)
      else foldLogical left right op = .error (.undefined .wrongCast) ∨
        ∃ v, foldLogical left right op = .ok (.booleanLiteral v)
    else if b = .boolean then foldLogical left right op = .error (.undefined .wrongCast)
    else foldLogical left right op = .ok (.comparison left right op) := by
  cases left <;> simp only [literalType, Option.some.injEq, reduceCtorEq] at hl <;> subst hl
  case booleanLiteral v =>
    cases right <;> simp only [literalType, Option.some.injEq, reduceCtorEq] at hr <;> subst hr
    case booleanLiteral w =>
      refine ⟨if v = decide (op = .or) then v else w, ?_⟩
      by_cases hv : v = decide (op = .or) <;>
        simp [foldLogical, booleanValue, isBooleanLiteralExpression, hv, bind, Except.bind, pure,
          Except.pure]
    all_goals
      by_cases hv : v = decide (op = .or)
      · exact .inr ⟨v, by simp [foldLogical, booleanValue, isBooleanLiteralExpression, hv, bind,
          Except.bind, pure, Except.pure]⟩
      · exact .inl (by simp [foldLogical, booleanValue, isBooleanLiteralExpression, hv, bind,
          Except.bind])
  all_goals
    cases right <;> simp only [literalType, Option.some.injEq, reduceCtorEq] at hr <;> subst hr <;>
      rfl

/-- Literals of the types the operator needs fold to a boolean. -/
theorem foldComparison_required (hl : literalType left = some a) (hr : literalType right = some b)
    (h : requiredTypes op a b = true) :
    ∃ v, foldComparison left right op = .ok (.booleanLiteral v) := by
  rw [foldComparison_of_literalType hl hr]
  cases op with
  | equal | notEqual =>
    simpa only [foldLiterals, show requiredTypes .equal a b = true from h, if_true] using
      foldEquality_of_type hl hr
  | greaterThan | greaterOrEqual | lessThan | lessOrEqual =>
    simp only [requiredTypes, Bool.and_eq_true] at h
    simpa only [foldLiterals, h.1, h.2, if_true] using foldOrdering_of_type _ hl hr
  | or | and =>
    simp only [requiredTypes, Bool.and_eq_true, beq_iff_eq] at h
    simpa only [foldLiterals, h.1, h.2, if_true] using foldLogical_of_type _ hl hr

/-- Literals neither of which has the type needed stay, and so do unequal types under `==`. -/
theorem foldComparison_alone (hl : literalType left = some a) (hr : literalType right = some b)
    (h : requiredTypes op a b = false) (ho : oneSided op a b = false) :
    foldComparison left right op = .ok (.comparison left right op) := by
  rw [foldComparison_of_literalType hl hr]
  cases op with
  | equal | notEqual =>
    simpa only [foldLiterals, show requiredTypes .equal a b = false from h, Bool.false_eq_true, if_false] using
      foldEquality_of_type hl hr
  | greaterThan | greaterOrEqual | lessThan | lessOrEqual =>
    have hord := fun op => foldOrdering_of_type op hl hr
    cases ha : isNumericType a <;> cases hb : isNumericType b <;>
      simp_all [requiredTypes, oneSided, foldLiterals]
  | or | and =>
    have hlog := fun op => foldLogical_of_type op hl hr
    by_cases ha : a = .boolean <;> by_cases hb : b = .boolean <;>
      simp_all [requiredTypes, oneSided, foldLiterals]

/-- With one operand of the type needed the other is read through the wrong class or not at all. -/
theorem foldComparison_oneSided (hl : literalType left = some a) (hr : literalType right = some b)
    (ho : oneSided op a b = true) :
    foldComparison left right op = .error (.undefined .wrongCast) ∨
      ∃ v, foldComparison left right op = .ok (.booleanLiteral v) := by
  rw [foldComparison_of_literalType hl hr]
  cases op with
  | equal | notEqual => simp [oneSided] at ho
  | greaterThan | greaterOrEqual | lessThan | lessOrEqual =>
    have hord := fun op => foldOrdering_of_type op hl hr
    cases ha : isNumericType a <;> cases hb : isNumericType b <;>
      simp_all [oneSided, foldLiterals]
  | or | and =>
    have hlog := fun op => foldLogical_of_type op hl hr
    by_cases ha : a = .boolean <;> by_cases hb : b = .boolean <;>
      simp_all [oneSided, foldLiterals]

theorem requiredTypes_of_oneSided (h : oneSided op a b = true) : requiredTypes op a b = false := by
  cases op <;> simp_all [oneSided, requiredTypes] <;> grind

end

/-- What the constant analysis says of a folded tree. -/
structure Folded (machine : Int → Int64) (e e' : Expression) : Prop where
  type : literalType e' = constantType e
  long : ∀ v, e' = .integerLiteral v → constantLong machine e = some v.toInt

theorem literalType_comparison {left right : Expression} {op : ComparisonOperation} :
    literalType (.comparison left right op) = none := rfl

theorem foldComparison_of_none {left right : Expression} {op : ComparisonOperation}
    (h : literalType left = none ∨ literalType right = none) :
    foldComparison left right op = .ok (.comparison left right op) := by
  have hlit : ∀ e, literalType e = none → isLiteralExpression e = false := by
    intro e he
    cases e <;> first | rfl | simp [literalType] at he
  rcases h with h | h <;> simp [foldComparison, hlit _ h, pure, Except.pure]

section

variable {machine : Int → Int64}

/-- One comparison of folded operands. -/
theorem comparison_verdict {l r left right : Expression} {op : ComparisonOperation}
    (hl : Folded machine l left) (hr : Folded machine r right) :
    Verdict [⟨left, right, op⟩] (foldComparison left right op)
      (Folded machine (.comparison l r op))
      (comparisonTrouble op (constantType l) (constantType r)) := by
  have hstays : foldComparison left right op = .ok (.comparison left right op) →
      comparisonConstantType op (constantType l) (constantType r) = none →
      Verdict [⟨left, right, op⟩] (foldComparison left right op)
        (Folded machine (.comparison l r op)) none := by
    intro h hc
    refine ⟨⟨_, h, ?_, nofun⟩, ?_⟩
    · simp only [literalType, constantType, hc]
    · simpa [ComparisonStep.LeftAlone] using fun _ _ _ _ _ => h
  cases ha : constantType l with
  | none =>
    rw [ha] at hstays
    exact hstays (foldComparison_of_none (.inl (hl.type.trans ha))) rfl
  | some a =>
    cases hb : constantType r with
    | none =>
      rw [ha, hb] at hstays
      exact hstays (foldComparison_of_none (.inr (hr.type.trans hb))) rfl
    | some b =>
      have hl' := hl.type.trans ha
      have hr' := hr.type.trans hb
      rw [ha, hb] at hstays
      cases ho : oneSided op a b with
      | true =>
        simp only [comparisonTrouble, ho, if_true]
        rcases foldComparison_oneSided hl' hr' ho with h | ⟨v, h⟩
        · exact .inl h
        · refine .inr ⟨_, List.mem_singleton_self _, fun halone => ?_⟩
          have := halone a b hl' hr' (requiredTypes_of_oneSided ho)
          rw [h] at this
          simp at this
      | false =>
        simp only [comparisonTrouble, ho, Bool.false_eq_true, if_false]
        cases hq : requiredTypes op a b with
        | false =>
          exact hstays (foldComparison_alone hl' hr' hq ho) (by simp [comparisonConstantType, hq])
        | true =>
          obtain ⟨v, h⟩ := foldComparison_required hl' hr' hq
          refine ⟨⟨_, h, ?_, nofun⟩, ?_⟩
          · simp only [literalType, constantType, ha, hb, comparisonConstantType, hq, if_true]
          · simp only [List.mem_singleton, forall_eq, ComparisonStep.LeftAlone, hl', hr']
            grind

/-! ## One arithmetic operation -/

theorem fitsLong_toInt (v : Int64) : FitsLong v.toInt :=
  ⟨Int64.le_toInt v, Int64.toInt_lt v⟩

theorem fitsLong_tmod (a b : Int64) : FitsLong (a.toInt.tmod b.toInt) := by
  have ha := fitsLong_toInt a
  unfold FitsLong at ha ⊢
  have habs : (a.toInt.tmod b.toInt).natAbs = a.toInt.natAbs % b.toInt.natAbs :=
    Int.natAbs_tmod _ _
  have hle : a.toInt.natAbs % b.toInt.natAbs ≤ a.toInt.natAbs := Nat.mod_le _ _
  by_cases hpos : 0 ≤ a.toInt
  · omega
  · have hneg : 0 ≤ (-a.toInt).tmod b.toInt := Int.tmod_nonneg _ (by omega)
    rw [Int.neg_tmod] at hneg
    omega

variable [Overflow] (hmachine : ∀ z, Overflow.result z = .ok (machine z))

/-- A `long` computed by the pass is the value the tree names, or the run stops. -/
def LongAgrees (x : Run Int64) : Option Int → Prop
  | some z => ∃ v, x = .ok v ∧ v.toInt = z
  | none => ∃ err, x = .error err ∧ err ≠ .undefined .wrongCast

include hmachine in
theorem longValue_agrees {z v : Int} (hv : FitsLong z → FitsLong v) :
    LongAgrees (longValue z v) (some (heldValue machine z v)) := by
  unfold longValue heldValue
  by_cases hz : FitsLong z
  · rw [if_pos hz, if_pos hz]
    exact ⟨_, rfl, Int64.toInt_ofInt_of_le (hv hz).1 (hv hz).2⟩
  · rw [if_neg hz, if_neg hz, hmachine]
    exact ⟨_, rfl, rfl⟩

include hmachine in
theorem foldLongs_agrees (a b : Int64) (op : BinaryOperation) :
    LongAgrees (foldLongs a b op) (longResult machine op a.toInt b.toInt) := by
  have hzero : b.toInt = 0 ↔ b = 0 := by
    rw [← Int64.toInt_inj]; rfl
  cases op with
  | addition | subtraction | multiplication => exact longValue_agrees hmachine id
  | division =>
    simp only [foldLongs, longResult, hzero]
    split
    · exact ⟨_, rfl, by simp⟩
    · exact longValue_agrees hmachine id
  | modulus =>
    simp only [foldLongs, longResult, hzero]
    split
    · exact ⟨_, rfl, by simp⟩
    · exact longValue_agrees hmachine fun _ => fitsLong_tmod a b

omit [Overflow] in
/-- The verdict of an operation on `long` values. -/
theorem long_verdict {e : Expression} {x : Run Int64} (ht : constantType e = some .integer)
    (hx : LongAgrees x (constantLong machine e)) :
    Verdict [] (x >>= fun v => pure (.integerLiteral v)) (Folded machine e)
      (arithmeticTrouble machine e) := by
  cases hc : constantLong machine e with
  | none =>
    rw [hc] at hx
    obtain ⟨err, rfl, herr⟩ := hx
    simp only [arithmeticTrouble, ht, hc, and_self, if_true]
    exact ⟨⟨err, rfl, herr⟩, by simp⟩
  | some z =>
    rw [hc] at hx
    obtain ⟨v, rfl, hv⟩ := hx
    simp only [arithmeticTrouble, hc, reduceCtorEq, and_false, if_false]
    refine verdict_ok ⟨?_, ?_⟩
    · rw [ht]; rfl
    · rintro w ⟨⟩; rw [hc, hv]

omit [Overflow] in
/-- The verdict of an operation that has no `long` result. -/
theorem other_verdict {e e' : Expression} {x : Run Expression} (hx : x = .ok e')
    (ht : literalType e' = constantType e) (hi : constantType e ≠ some .integer) :
    Verdict [] x (Folded machine e) (arithmeticTrouble machine e) := by
  subst hx
  simp only [arithmeticTrouble, hi, false_and, if_false]
  refine verdict_ok ⟨ht, ?_⟩
  rintro w rfl
  exact absurd ht.symm hi

include hmachine in
theorem binaryOperation_verdict {l r left right : Expression} {op : BinaryOperation}
    (hl : Folded machine l left) (hr : Folded machine r right) :
    Verdict [] (foldBinaryOperation left right op) (Folded machine (.binaryOperation l r op))
      (arithmeticTrouble machine (.binaryOperation l r op)) := by
  have htype : constantType (.binaryOperation l r op) =
      binaryConstantType op (literalType left) (literalType right) := by
    rw [hl.type, hr.type, constantType]
  cases left
  case integerLiteral a =>
    cases right
    case integerLiteral b =>
      refine long_verdict htype ?_
      have := foldLongs_agrees hmachine a b op
      simpa only [constantLong, hl.long a rfl, hr.long b rfl] using this
    all_goals cases op <;> exact other_verdict rfl htype.symm (by simp [htype, literalType, binaryConstantType])
  all_goals
    cases right <;> cases op <;> exact other_verdict rfl htype.symm (by simp [htype, literalType, binaryConstantType])

include hmachine in
theorem unaryOperation_verdict {s sub : Expression} {op : UnaryOperation}
    (hs : Folded machine s sub) :
    Verdict [] (foldUnaryOperation sub op) (Folded machine (.unaryOperation s op))
      (arithmeticTrouble machine (.unaryOperation s op)) := by
  have htype : constantType (.unaryOperation s op) = unaryConstantType op (literalType sub) := by
    rw [hs.type, constantType]
  cases sub
  case integerLiteral a =>
    cases op with
    | booleanNegation => exact other_verdict rfl htype.symm (by simp [htype, literalType, unaryConstantType])
    | numericPositive | numericNegative =>
      refine long_verdict htype ?_
      simp only [constantLong, hs.long a rfl]
      exact longValue_agrees hmachine id
  all_goals cases op <;> exact other_verdict rfl htype.symm (by simp [htype, literalType, unaryConstantType])

/-! ## The whole tree -/

theorem arguments_verdict : ∀ (args : List (Option Expression)),
    (∀ e, some e ∈ args →
      Verdict (comparisonSteps e) e.fold (Folded machine e) (firstTrouble machine e)) →
      Verdict (argumentSteps args) (Expr.foldArguments args) (fun _ => True)
        (firstArgumentTrouble machine args)
  | [], _ => verdict_ok trivial
  | none :: args, _ => ⟨⟨_, rfl, by simp⟩, by simp [argumentSteps]⟩
  | some e :: args, h => by
    have he := h e List.mem_cons_self
    have hargs := arguments_verdict args fun e' h' => h e' (List.mem_cons_of_mem _ h')
    simp only [argumentSteps, foldConstantExpressions_eq_fold, Expr.foldArguments,
      firstArgumentTrouble]
    exact he.bind fun e' _ => hargs.map fun _ _ => trivial

include hmachine in
/-- Folding a tree goes the way its first trouble says. -/
theorem fold_verdict (e : Expression) :
    Verdict (comparisonSteps e) e.fold (Folded machine e) (firstTrouble machine e) := by
  induction e using Expr.ind with
  | variableReference _ | doubleLiteral _ | booleanLiteral _ | stringLiteral _ =>
    exact verdict_ok ⟨rfl, by rintro _ ⟨⟩⟩
  | integerLiteral v => exact verdict_ok ⟨rfl, by rintro w ⟨⟩; rfl⟩
  | getAttribute v a ih =>
    simp only [comparisonSteps, Expr.fold, firstTrouble]
    exact ih.map fun _ _ => ⟨rfl, by rintro _ ⟨⟩⟩
  | methodCall m args ih =>
    simp only [comparisonSteps, Expr.fold, firstTrouble]
    exact (arguments_verdict args ih).map fun _ _ => ⟨rfl, by rintro _ ⟨⟩⟩
  | binaryOperation l r op ihl ihr =>
    simp only [comparisonSteps, foldConstantExpressions_eq_fold, Expr.fold, firstTrouble]
    exact ihl.bind fun left hl => ihr.andThen fun right hr => binaryOperation_verdict hmachine hl hr
  | unaryOperation s op ih =>
    simp only [comparisonSteps, Expr.fold, firstTrouble]
    exact ih.andThen fun sub hs => unaryOperation_verdict hmachine hs
  | comparison l r op ihl ihr =>
    simp only [comparisonSteps, foldConstantExpressions_eq_fold, Expr.fold, firstTrouble]
    exact ihl.bind fun left hl => ihr.bind fun right hr => comparison_verdict hl hr

end

/-- The pass respects the literal types of exactly the trees in which no comparison of
literals with one operand of the wrong type is met before the run stops. -/
theorem respectsLiteralTypes_iff (machine : Int → Int64) (e : Expression) :
    RespectsLiteralTypes machine e ↔ firstTrouble machine e ≠ some .mismatch := by
  let _ := Overflow.goesOn machine
  have hv := fold_verdict (fun z => show Overflow.result z = .ok (machine z) from rfl) e
  rw [RespectsLiteralTypes, foldConstantExpressions_eq_fold]
  cases ht : firstTrouble machine e with
  | none =>
    rw [ht] at hv
    obtain ⟨⟨a, ha, -⟩, hs⟩ := hv
    simpa [ha] using hs
  | some t =>
    rw [ht] at hv
    cases t with
    | stops =>
      obtain ⟨⟨err, herr, hne⟩, hs⟩ := hv
      simpa [herr, hne] using hs
    | mismatch =>
      simp only [ne_eq, not_true_eq_false, iff_false, not_and, not_forall]
      rintro h
      obtain ⟨s, hs, hl⟩ := hv.resolve_left h
      exact ⟨s, hs, hl⟩

/-- `1 < "a"`, which an include with a string for a variable produces from `1 < x`. -/
theorem not_respectsLiteralTypes_mixed :
    ¬RespectsLiteralTypes Int64.ofInt (.comparison (.integerLiteral 1)
      (.stringLiteral "a".toList) .lessThan) := by
  rintro ⟨h, -⟩
  exact h rfl

end B2
