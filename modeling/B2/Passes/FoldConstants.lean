import B2.Passes.Walker

/-!
# Constant folding

`FoldConstantExpressionsPass`. Its `process_node` folds the operands itself and
the walker then visits them again; `Expr.fold` is the plain bottom-up fold that
meets every operand once, and `process_eq_fold` says the two agree.
`NUMERIC_VALUE` is a conditional with a `long` and a `double` branch, so its
type is `double`.
-/

namespace B2

section

variable {ν : Type}

def isLiteralExpression : Expr ν → Bool
  | .doubleLiteral _ | .integerLiteral _ | .booleanLiteral _ | .stringLiteral _ => true
  | _ => false

def isNumericLiteralExpression : Expr ν → Bool
  | .doubleLiteral _ | .integerLiteral _ => true
  | _ => false

def isBooleanLiteralExpression : Expr ν → Bool
  | .booleanLiteral _ => true
  | _ => false

def isStringLiteralExpression : Expr ν → Bool
  | .stringLiteral _ => true
  | _ => false

def isDoubleLiteralExpression : Expr ν → Bool
  | .doubleLiteral _ => true
  | _ => false

/-- `NUMERIC_VALUE`. -/
def numericValue : Expr ν → Run Double
  | .integerLiteral v => .ok (.ofLong v)
  | .doubleLiteral v => .ok v
  | _ => .error (.undefined .wrongCast)

/-- `static_cast<IntegerLiteralExpression*>(x)->value`. -/
def integerValue : Expr ν → Run Int64
  | .integerLiteral v => .ok v
  | _ => .error (.undefined .wrongCast)

/-- `static_cast<BooleanLiteralExpression*>(x)->value`. -/
def booleanValue : Expr ν → Run Bool
  | .booleanLiteral v => .ok v
  | _ => .error (.undefined .wrongCast)

/-- `static_cast<StringLiteralExpression*>(x)->value`. -/
def stringValue : Expr ν → Run Text
  | .stringLiteral v => .ok v
  | _ => .error (.undefined .wrongCast)

end

/-- A `long` can hold the integer. -/
def FitsLong (z : Int) : Prop := -2 ^ 63 ≤ z ∧ z < 2 ^ 63

instance (z : Int) : Decidable (FitsLong z) := inferInstanceAs (Decidable (_ ∧ _))

/-- What becomes of `long` arithmetic whose exact result no `long` holds. -/
class Overflow where
  result : Int → Run Int64

/-- The behaviour is undefined: the run has no result. -/
instance Overflow.stops : Overflow := ⟨fun _ => .error (.undefined .signedOverflow)⟩

/-- The run goes on with the `long` that the machine gives. -/
abbrev Overflow.goesOn (machine : Int → Int64) : Overflow := ⟨fun z => .ok (machine z)⟩

section

variable [Overflow]

/-- The `long` value `v` of an operation, where the exact result `z` fits. -/
def longValue (z v : Int) : Run Int64 :=
  if FitsLong z then .ok (.ofInt v) else Overflow.result z

/-- The result of `long` arithmetic whose exact value is `z`. -/
def checkedLong (z : Int) : Run Int64 := longValue z z

/-- Arithmetic on two values of type `double`; a modulus is left alone. -/
def foldDoubles (left right : Expression) : BinaryOperation → Run Expression
  | .addition => do return .doubleLiteral (.add (← numericValue left) (← numericValue right))
  | .subtraction => do return .doubleLiteral (.sub (← numericValue left) (← numericValue right))
  | .multiplication => do return .doubleLiteral (.mul (← numericValue left) (← numericValue right))
  | .division => do return .doubleLiteral (.div (← numericValue left) (← numericValue right))
  | .modulus => return .binaryOperation left right .modulus

/-- Arithmetic on two values of type `long`. The remainder is defined where the quotient is. -/
def foldLongs (a b : Int64) : BinaryOperation → Run Int64
  | .addition => checkedLong (a.toInt + b.toInt)
  | .subtraction => checkedLong (a.toInt - b.toInt)
  | .multiplication => checkedLong (a.toInt * b.toInt)
  | .division =>
    if b = 0 then .error (.runtimeError "Division by zero".toList)
    else checkedLong (a.toInt.tdiv b.toInt)
  | .modulus =>
    if b = 0 then .error (.runtimeError "Modulo by zero".toList)
    else longValue (a.toInt.tdiv b.toInt) (a.toInt.tmod b.toInt)

/-- `process_node(BinaryOperationExpression*)` after its operands. -/
def foldBinaryOperation (left right : Expression) (op : BinaryOperation) : Run Expression :=
  if !isNumericLiteralExpression left || !isNumericLiteralExpression right then
    return .binaryOperation left right op
  else if isDoubleLiteralExpression left || isDoubleLiteralExpression right then
    foldDoubles left right op
  else do return .integerLiteral (← foldLongs (← integerValue left) (← integerValue right) op)

/-- The `NumericPositive` and `NumericNegative` cases after the operand. -/
def foldSign (sub_expr : Expression) (op : UnaryOperation) : Run Expression :=
  let multiplier : Int := if op = .numericNegative then -1 else 1
  match sub_expr with
  | .doubleLiteral v => return .doubleLiteral (.mul v (.ofLong (.ofInt multiplier)))
  | .integerLiteral v => do return .integerLiteral (← checkedLong (v.toInt * multiplier))
  | _ => return .unaryOperation sub_expr op

/-- The `BooleanNegation` case after the operand. -/
def foldNegation (sub_expr : Expression) : Run Expression :=
  if isBooleanLiteralExpression sub_expr then
    do return .booleanLiteral (!(← booleanValue sub_expr))
  else return .unaryOperation sub_expr .booleanNegation

end

/-- The comparison of two numbers an ordering or equality operator stands for. -/
def compareDoubles (a b : Double) : ComparisonOperation → Bool
  | .equal => a.eq b
  | .notEqual => !a.eq b
  | .greaterThan => b.lt a
  | .greaterOrEqual => b.le a
  | .lessThan => a.lt b
  | .lessOrEqual => a.le b
  | .or | .and => false

/-- The `Equal` and `NotEqual` cases. -/
def foldEquality (left right : Expression) (op : ComparisonOperation) : Run Expression :=
  if isNumericLiteralExpression left && isNumericLiteralExpression right then
    do return .booleanLiteral (compareDoubles (← numericValue left) (← numericValue right) op)
  else if isBooleanLiteralExpression left && isBooleanLiteralExpression right then do
    let left_bool ← booleanValue left
    let right_bool ← booleanValue right
    return .booleanLiteral (if op = .equal then left_bool == right_bool
      else left_bool != right_bool)
  else if isStringLiteralExpression left && isStringLiteralExpression right then do
    let left_string ← stringValue left
    let right_string ← stringValue right
    return .booleanLiteral (if op = .equal then left_string == right_string
      else left_string != right_string)
  else return .comparison left right op

/-- The `GreaterThan`, `GreaterOrEqual`, `LessThan` and `LessOrEqual` cases. -/
def foldOrdering (left right : Expression) (op : ComparisonOperation) : Run Expression :=
  if !isNumericLiteralExpression left && !isNumericLiteralExpression right then
    return .comparison left right op
  else do
    return .booleanLiteral (compareDoubles (← numericValue left) (← numericValue right) op)

/-- The `Or` and `And` cases. -/
def foldLogical (left right : Expression) (op : ComparisonOperation) : Run Expression :=
  if !isBooleanLiteralExpression left && !isBooleanLiteralExpression right then
    return .comparison left right op
  else do
    let left_bool ← booleanValue left
    -- `||` and `&&` read the right operand only where the left one does not decide
    if left_bool == decide (op = .or) then return .booleanLiteral left_bool
    else do return .booleanLiteral (← booleanValue right)

/-- The last `switch` of `process_node(ComparisonExpression*)`, both operands literal. -/
def foldLiterals (left right : Expression) (op : ComparisonOperation) : Run Expression :=
  match op with
  | .equal | .notEqual => foldEquality left right op
  | .greaterThan | .greaterOrEqual | .lessThan | .lessOrEqual => foldOrdering left right op
  | .or | .and => foldLogical left right op

/-- `process_node(ComparisonExpression*)` after its operands. -/
def foldComparison (left right : Expression) (op : ComparisonOperation) : Run Expression :=
  if !isLiteralExpression left || !isLiteralExpression right then
    return .comparison left right op
  else foldLiterals left right op

/-- An operand that already is a literal of the kind wanted is not folded. -/
def foldOperand (wanted : Expression → Bool) (process : Expression → Run Expression)
    (e : Expression) : Run Expression :=
  if wanted e then return e else process e

section

variable [Overflow]

/-- `FoldConstantExpressionsPass`. -/
def foldConstantExpressionsPass : ExpressionPass where
  processNode process
    | .binaryOperation l r op => do
      let left ← foldOperand isNumericLiteralExpression process l
      let right ← foldOperand isNumericLiteralExpression process r
      foldBinaryOperation left right op
    | .unaryOperation e op =>
      match op with
      | .numericPositive | .numericNegative => do
        foldSign (← foldOperand isNumericLiteralExpression process e) op
      | .booleanNegation => do
        foldNegation (← foldOperand isBooleanLiteralExpression process e)
    | .comparison l r op => do
      let left ← foldOperand isLiteralExpression process l
      let right ← foldOperand isLiteralExpression process r
      foldComparison left right op
    | e => return e

/-- The pass on a whole expression. -/
def foldConstantExpressions (e : Expression) : Run Expression := foldConstantExpressionsPass.run e

/-! ## The bottom-up fold -/

/-- `process_node(UnaryOperationExpression*)` after its operand. -/
def foldUnaryOperation (sub_expr : Expression) (op : UnaryOperation) : Run Expression :=
  match op with
  | .numericPositive | .numericNegative => foldSign sub_expr op
  | .booleanNegation => foldNegation sub_expr

namespace Expr

mutual

/-- Every operand folded once, from left to right, and then the node. -/
def fold : Expression → Run Expression
  | .variableReference x => .ok (.variableReference x)
  | .getAttribute v a => do return .getAttribute (← v.fold) a
  | .methodCall m args => do return .methodCall m (← foldArguments args)
  | .doubleLiteral v => .ok (.doubleLiteral v)
  | .integerLiteral v => .ok (.integerLiteral v)
  | .booleanLiteral v => .ok (.booleanLiteral v)
  | .stringLiteral v => .ok (.stringLiteral v)
  | .binaryOperation l r op => do
    let left ← l.fold
    let right ← r.fold
    foldBinaryOperation left right op
  | .unaryOperation e op => do foldUnaryOperation (← e.fold) op
  | .comparison l r op => do
    let left ← l.fold
    let right ← r.fold
    foldComparison left right op

def foldArguments : List (Option Expression) → Run (List (Option Expression))
  | [] => .ok []
  | none :: _ => .error (.undefined .nullPointer)
  | some e :: args => do
    let e' ← e.fold
    let args' ← foldArguments args
    return some e' :: args'

end

end Expr

/-! ## What a rule returns -/

theorem fold_of_isLiteral {e : Expression} (h : isLiteralExpression e = true) : e.fold = .ok e := by
  cases e <;> first | rfl | simp [isLiteralExpression] at h

omit [Overflow] in
theorem depth_of_isLiteral {e : Expression} (h : isLiteralExpression e = true) : e.depth = 1 := by
  cases e <;> first | rfl | simp [isLiteralExpression] at h

omit [Overflow] in
theorem isLiteral_of_isNumeric {e : Expression} (h : isNumericLiteralExpression e = true) :
    isLiteralExpression e = true := by
  cases e <;> simp_all [isNumericLiteralExpression, isLiteralExpression]

omit [Overflow] in
theorem isLiteral_of_isBoolean {e : Expression} (h : isBooleanLiteralExpression e = true) :
    isLiteralExpression e = true := by
  cases e <;> simp_all [isBooleanLiteralExpression, isLiteralExpression]

/-- A rule folds its node to a literal or leaves the node with the operands it was given. -/
theorem foldBinaryOperation_cases {left right e : Expression} {op : BinaryOperation}
    (h : foldBinaryOperation left right op = .ok e) :
    isLiteralExpression e = true ∨ e = .binaryOperation left right op := by
  unfold foldBinaryOperation at h
  split at h
  · exact .inr (pure_eq_ok.1 h).symm
  · split at h
    · cases op <;> simp only [foldDoubles, bind_eq_ok, pure_eq_ok] at h
      case modulus => exact .inr h.symm
      all_goals
        obtain ⟨_, -, _, -, rfl⟩ := h
        exact .inl rfl
    · simp only [bind_eq_ok, pure_eq_ok] at h
      obtain ⟨_, -, _, -, _, -, rfl⟩ := h
      exact .inl rfl

theorem foldUnaryOperation_cases {sub e : Expression} {op : UnaryOperation}
    (h : foldUnaryOperation sub op = .ok e) :
    isLiteralExpression e = true ∨ e = .unaryOperation sub op := by
  have hsign : ∀ op', foldSign sub op' = .ok e →
      isLiteralExpression e = true ∨ e = .unaryOperation sub op' := by
    intro op' h
    cases sub <;> simp only [foldSign, bind_eq_ok, pure_eq_ok] at h
    case doubleLiteral v => exact .inl (by rw [← h]; rfl)
    case integerLiteral v => obtain ⟨_, -, rfl⟩ := h; exact .inl rfl
    all_goals exact .inr h.symm
  cases op with
  | numericPositive => exact hsign _ h
  | numericNegative => exact hsign _ h
  | booleanNegation =>
    simp only [foldUnaryOperation, foldNegation] at h
    split at h
    · simp only [bind_eq_ok, pure_eq_ok] at h
      obtain ⟨_, -, rfl⟩ := h
      exact .inl rfl
    · exact .inr (pure_eq_ok.1 h).symm

omit [Overflow] in
theorem foldLiterals_cases {left right e : Expression} {op : ComparisonOperation}
    (h : foldLiterals left right op = .ok e) :
    (∃ v, e = .booleanLiteral v) ∨ e = .comparison left right op := by
  have heq : foldEquality left right op = .ok e →
      (∃ v, e = .booleanLiteral v) ∨ e = .comparison left right op := by
    intro h
    unfold foldEquality at h
    split_ifs at h <;> simp only [bind_eq_ok, pure_eq_ok] at h
    all_goals first
      | exact .inr h.symm
      | obtain ⟨_, -, _, -, rfl⟩ := h; exact .inl ⟨_, rfl⟩
  have hord : foldOrdering left right op = .ok e →
      (∃ v, e = .booleanLiteral v) ∨ e = .comparison left right op := by
    intro h
    unfold foldOrdering at h
    split_ifs at h <;> simp only [bind_eq_ok, pure_eq_ok] at h
    · exact .inr h.symm
    · obtain ⟨_, -, _, -, rfl⟩ := h; exact .inl ⟨_, rfl⟩
  have hlog : foldLogical left right op = .ok e →
      (∃ v, e = .booleanLiteral v) ∨ e = .comparison left right op := by
    intro h
    unfold foldLogical at h
    split at h
    · exact .inr (pure_eq_ok.1 h).symm
    · obtain ⟨b, -, h⟩ := bind_eq_ok.1 h
      split at h
      · exact .inl ⟨_, (pure_eq_ok.1 h).symm⟩
      · simp only [bind_eq_ok, pure_eq_ok] at h
        obtain ⟨_, -, rfl⟩ := h
        exact .inl ⟨_, rfl⟩
  cases op with
  | equal | notEqual => exact heq h
  | greaterThan | greaterOrEqual | lessThan | lessOrEqual => exact hord h
  | or | and => exact hlog h

omit [Overflow] in
theorem foldComparison_cases {left right e : Expression} {op : ComparisonOperation}
    (h : foldComparison left right op = .ok e) :
    (∃ v, e = .booleanLiteral v) ∨ e = .comparison left right op := by
  unfold foldComparison at h
  split at h
  · exact .inr (pure_eq_ok.1 h).symm
  · exact foldLiterals_cases h

/-! ## Folding a folded tree -/

namespace Expr

theorem foldArguments_eq_ok {args args' : List (Option Expression)}
    (h : foldArguments args = .ok args')
    (ih : ∀ e, some e ∈ args → ∀ e', e.fold = .ok e' → e'.fold = .ok e' ∧ e'.depth ≤ e.depth) :
    foldArguments args' = .ok args' ∧ argumentsDepth args' ≤ argumentsDepth args := by
  induction args generalizing args' with
  | nil => cases h; exact ⟨rfl, le_rfl⟩
  | cons arg args ihargs =>
    cases arg with
    | none => cases h
    | some e =>
      simp only [foldArguments, bind_eq_ok, pure_eq_ok] at h
      obtain ⟨e', he, args'', hargs, rfl⟩ := h
      obtain ⟨hf, hd⟩ := ih e List.mem_cons_self e' he
      obtain ⟨hfs, hds⟩ := ihargs hargs fun e h => ih e (List.mem_cons_of_mem _ h)
      refine ⟨?_, ?_⟩
      · simp only [foldArguments, hf, hfs]; rfl
      · simp only [argumentsDepth]; omega

/-- Folding a result again returns it, and folding makes no tree higher. -/
theorem fold_stable (e : Expression) :
    ∀ e', e.fold = .ok e' → e'.fold = .ok e' ∧ e'.depth ≤ e.depth := by
  induction e using Expr.ind with
  | variableReference _ | doubleLiteral _ | integerLiteral _ | booleanLiteral _
  | stringLiteral _ =>
    intro e' h
    cases h
    exact ⟨rfl, le_rfl⟩
  | getAttribute v a ih =>
    intro e' h
    simp only [fold, bind_eq_ok, pure_eq_ok] at h
    obtain ⟨v', hv, rfl⟩ := h
    obtain ⟨hf, hd⟩ := ih v' hv
    exact ⟨by simp only [fold, hf]; rfl, by simp only [depth]; omega⟩
  | methodCall m args ih =>
    intro e' h
    simp only [fold, bind_eq_ok, pure_eq_ok] at h
    obtain ⟨args', hargs, rfl⟩ := h
    obtain ⟨hf, hd⟩ := foldArguments_eq_ok hargs ih
    exact ⟨by simp only [fold, hf]; rfl, by simp only [depth]; omega⟩
  | binaryOperation l r op ihl ihr =>
    intro e' h
    simp only [fold, bind_eq_ok] at h
    obtain ⟨l', hl, r', hr, h⟩ := h
    obtain ⟨hfl, hdl⟩ := ihl l' hl
    obtain ⟨hfr, hdr⟩ := ihr r' hr
    rcases foldBinaryOperation_cases h with hlit | rfl
    · refine ⟨fold_of_isLiteral hlit, ?_⟩
      rw [depth_of_isLiteral hlit]; exact depth_pos _
    · exact ⟨by simp only [fold, hfl, hfr]; exact h, by simp only [depth]; omega⟩
  | unaryOperation e op ih =>
    intro e' h
    simp only [fold, bind_eq_ok] at h
    obtain ⟨s, hs, h⟩ := h
    obtain ⟨hf, hd⟩ := ih s hs
    rcases foldUnaryOperation_cases h with hlit | rfl
    · refine ⟨fold_of_isLiteral hlit, ?_⟩
      rw [depth_of_isLiteral hlit]; exact depth_pos _
    · exact ⟨by simp only [fold, hf]; exact h, by simp only [depth]; omega⟩
  | comparison l r op ihl ihr =>
    intro e' h
    simp only [fold, bind_eq_ok] at h
    obtain ⟨l', hl, r', hr, h⟩ := h
    obtain ⟨hfl, hdl⟩ := ihl l' hl
    obtain ⟨hfr, hdr⟩ := ihr r' hr
    rcases foldComparison_cases h with ⟨v, rfl⟩ | rfl
    · exact ⟨rfl, depth_pos _⟩
    · exact ⟨by simp only [fold, hfl, hfr]; exact h, by simp only [depth]; omega⟩

end Expr

/-! ## The walker is the bottom-up fold -/

theorem mapM_derefArgument_fold {f : Expression → Run Expression} :
    ∀ (args : List (Option Expression)), (∀ e, some e ∈ args → f e = e.fold) →
      args.mapM (derefArgument f) = Expr.foldArguments args
  | [], _ => rfl
  | none :: _, _ => rfl
  | some e :: args, h => by
    have he := h e List.mem_cons_self
    have hargs := mapM_derefArgument_fold args fun e' h' =>
      h e' (List.mem_cons_of_mem _ h')
    rw [List.mapM_cons, derefArgument, he, hargs, Expr.foldArguments]
    cases e.fold <;> rfl

/-- An operand is folded, whether or not `process_node` tests it first. -/
theorem foldOperand_eq_fold {wanted : Expression → Bool} {f : Expression → Run Expression}
    {e : Expression} (hw : wanted e = true → isLiteralExpression e = true) (hf : f e = e.fold) :
    foldOperand wanted f e = e.fold := by
  unfold foldOperand
  split
  · rw [fold_of_isLiteral (hw ‹_›)]; rfl
  · exact hf

section

variable {n : Nat} (ih : ∀ e : Expression, e.depth ≤ n →
  foldConstantExpressionsPass.process n e = e.fold)

include ih

/-- A literal the walker dispatches on again is returned. -/
theorem process_literal {e : Expression} (he : isLiteralExpression e = true) (hn : 1 ≤ n) :
    foldConstantExpressionsPass.process n e = .ok e := by
  rw [ih e (by rw [depth_of_isLiteral he]; exact hn), fold_of_isLiteral he]

/-- A folded operand the walker meets again is returned. -/
theorem process_folded {e e' : Expression} (hd : e.depth ≤ n) (hf : e.fold = .ok e') :
    foldConstantExpressionsPass.process n e' = .ok e' := by
  obtain ⟨hs, hd'⟩ := e.fold_stable e' hf
  rw [ih e' (hd'.trans hd), hs]

theorem process_binaryOperation {l r : Expression} {op : BinaryOperation}
    (hl : l.depth ≤ n) (hr : r.depth ≤ n) :
    foldConstantExpressionsPass.process (n + 1) (.binaryOperation l r op) =
      (Expr.binaryOperation l r op).fold := by
  have hnode : foldConstantExpressionsPass.processNode (foldConstantExpressionsPass.process n)
      (.binaryOperation l r op) = (Expr.binaryOperation l r op).fold := by
    simp only [Expr.fold, ← foldOperand_eq_fold isLiteral_of_isNumeric (ih l hl),
      ← foldOperand_eq_fold isLiteral_of_isNumeric (ih r hr)]
    rfl
  simp only [ExpressionPass.process, hnode]
  cases he : (Expr.binaryOperation l r op).fold with
  | error _ => rfl
  | ok e =>
    simp only [Expr.fold, bind_eq_ok] at he
    obtain ⟨left, hleft, right, hright, he⟩ := he
    rcases foldBinaryOperation_cases he with hlit | rfl
    · cases e <;> first
        | exact process_literal ih hlit (l.depth_pos.trans_le hl)
        | simp [isLiteralExpression] at hlit
    · simp only [bind, Except.bind, process_folded ih hl hleft, process_folded ih hr hright]
      rfl

theorem process_comparison {l r : Expression} {op : ComparisonOperation}
    (hl : l.depth ≤ n) (hr : r.depth ≤ n) :
    foldConstantExpressionsPass.process (n + 1) (.comparison l r op) =
      (Expr.comparison l r op).fold := by
  have hnode : foldConstantExpressionsPass.processNode (foldConstantExpressionsPass.process n)
      (.comparison l r op) = (Expr.comparison l r op).fold := by
    simp only [Expr.fold, ← foldOperand_eq_fold id (ih l hl), ← foldOperand_eq_fold id (ih r hr)]
    rfl
  simp only [ExpressionPass.process, hnode]
  cases he : (Expr.comparison l r op).fold with
  | error _ => rfl
  | ok e =>
    simp only [Expr.fold, bind_eq_ok] at he
    obtain ⟨left, hleft, right, hright, he⟩ := he
    rcases foldComparison_cases he with ⟨v, rfl⟩ | rfl
    · exact process_literal ih rfl (l.depth_pos.trans_le hl)
    · simp only [bind, Except.bind, process_folded ih hl hleft, process_folded ih hr hright]
      rfl

theorem process_unaryOperation {s : Expression} {op : UnaryOperation} (hs : s.depth ≤ n) :
    foldConstantExpressionsPass.process (n + 1) (.unaryOperation s op) =
      (Expr.unaryOperation s op).fold := by
  have hnode : foldConstantExpressionsPass.processNode (foldConstantExpressionsPass.process n)
      (.unaryOperation s op) = (Expr.unaryOperation s op).fold := by
    cases op with
    | numericPositive | numericNegative =>
      simp only [Expr.fold, ← foldOperand_eq_fold isLiteral_of_isNumeric (ih s hs)]
      rfl
    | booleanNegation =>
      simp only [Expr.fold, ← foldOperand_eq_fold isLiteral_of_isBoolean (ih s hs)]
      rfl
  simp only [ExpressionPass.process, hnode]
  cases he : (Expr.unaryOperation s op).fold with
  | error _ => rfl
  | ok e =>
    simp only [Expr.fold, bind_eq_ok] at he
    obtain ⟨sub, hsub, he⟩ := he
    rcases foldUnaryOperation_cases he with hlit | rfl
    · cases e <;> first
        | exact process_literal ih hlit (s.depth_pos.trans_le hs)
        | simp [isLiteralExpression] at hlit
    · simp only [bind, Except.bind, process_folded ih hs hsub]
      rfl

end

/-- The nested recursion of the pass is the bottom-up fold, from the height of the tree on. -/
theorem process_eq_fold : ∀ n (e : Expression), e.depth ≤ n →
    foldConstantExpressionsPass.process n e = e.fold := by
  intro n
  induction n with
  | zero => intro e h; have := e.depth_pos; omega
  | succ n ih =>
    intro e h
    cases e with
    | variableReference _ | doubleLiteral _ | integerLiteral _ | booleanLiteral _
    | stringLiteral _ => rfl
    | getAttribute v a =>
      simp only [Expr.fold, ← ih v (by simpa [Expr.depth] using h)]
      rfl
    | methodCall m args =>
      have hargs := mapM_derefArgument_fold args fun e he =>
        ih e ((Expr.depth_le_argumentsDepth he).trans (by simpa [Expr.depth] using h))
      simp only [Expr.fold, ← hargs]
      rfl
    | unaryOperation s op => exact process_unaryOperation ih (by simpa [Expr.depth] using h)
    | binaryOperation l r op =>
      simp only [Expr.depth, Nat.add_le_add_iff_right, max_le_iff] at h
      exact process_binaryOperation ih h.1 h.2
    | comparison l r op =>
      simp only [Expr.depth, Nat.add_le_add_iff_right, max_le_iff] at h
      exact process_comparison ih h.1 h.2

theorem foldConstantExpressions_eq_fold (e : Expression) : foldConstantExpressions e = e.fold :=
  process_eq_fold _ e le_rfl

end

end B2
