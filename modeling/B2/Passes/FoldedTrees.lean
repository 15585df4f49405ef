import B2.Passes.IncludeTypes

/-!
# What folding leaves

A subexpression is named by its position, the path of operand indices from the
root. Every position of a folded tree is a position of the tree that was
folded, and what stands there is the fold of what stood there
(`subexpressionAt_fold`), so a fact about folding a whole tree holds at every
position that is left.
-/

namespace B2

namespace Expr

variable {ν : Type}

/-- The operands of a node, from left to right. -/
def children : Expr ν → List (Option (Expr ν))
  | .getAttribute v _ => [some v]
  | .methodCall _ args => args
  | .binaryOperation l r _ | .comparison l r _ => [some l, some r]
  | .unaryOperation e _ => [some e]
  | .variableReference _ | .doubleLiteral _ | .integerLiteral _ | .booleanLiteral _
  | .stringLiteral _ => []

def subexpressionAt (e : Expr ν) : List Nat → Option (Expr ν)
  | [] => some e
  | i :: p => e.children[i]?.join.bind fun c => c.subexpressionAt p

theorem join_eq_some {α : Type} {o : Option (Option α)} {a : α} :
    o.join = some a ↔ o = some (some a) := by
  rcases o with _ | _ | a' <;> simp

theorem subexpressionAt_cons {e s : Expr ν} {i : Nat} {p : List Nat} :
    e.subexpressionAt (i :: p) = some s ↔
      ∃ c, e.children[i]? = some (some c) ∧ c.subexpressionAt p = some s := by
  simp only [subexpressionAt, Option.bind_eq_some_iff, join_eq_some]

theorem children_of_isLiteral {e : Expression} (h : isLiteralExpression e = true) :
    e.children = [] := by
  cases e <;> first | rfl | simp [isLiteralExpression] at h

/-! ## Positions of a folded tree -/

theorem foldArguments_getElem {args args' : List (Option Expression)} {i : Nat} {c' : Expression}
    (h : foldArguments args = .ok args') (hc : args'[i]? = some (some c')) :
    ∃ c, args[i]? = some (some c) ∧ c.fold = .ok c' := by
  induction args generalizing args' i with
  | nil => cases h; simp at hc
  | cons arg args ih =>
    cases arg with
    | none => cases h
    | some e =>
      simp only [foldArguments, bind_eq_ok, pure_eq_ok] at h
      obtain ⟨e', he, args'', hargs, rfl⟩ := h
      cases i with
      | zero =>
        simp only [List.getElem?_cons_zero, Option.some.injEq] at hc
        subst hc
        exact ⟨e, rfl, he⟩
      | succ i => exact ih hargs hc

/-- The operands a rule left in its place are the folded operands. -/
theorem children_fold {e e' c' : Expression} {i : Nat} (h : e.fold = .ok e')
    (hc : e'.children[i]? = some (some c')) :
    ∃ c, e.children[i]? = some (some c) ∧ c.fold = .ok c' := by
  have hlit : isLiteralExpression e' = true → False := by
    intro hlit
    rw [children_of_isLiteral hlit] at hc
    simp at hc
  cases e with
  | variableReference _ | doubleLiteral _ | integerLiteral _ | booleanLiteral _
  | stringLiteral _ =>
    cases h
    simp [children] at hc
  | getAttribute v a =>
    simp only [fold, bind_eq_ok, pure_eq_ok] at h
    obtain ⟨v', hv, rfl⟩ := h
    obtain _ | i := i
    · simp only [children, List.getElem?_cons_zero, Option.some.injEq] at hc
      subst hc
      exact ⟨v, rfl, hv⟩
    · simp [children] at hc
  | methodCall m args =>
    simp only [fold, bind_eq_ok, pure_eq_ok] at h
    obtain ⟨args', hargs, rfl⟩ := h
    exact foldArguments_getElem hargs hc
  | binaryOperation l r op | comparison l r op =>
    simp only [fold, bind_eq_ok] at h
    obtain ⟨l', hl, r', hr, h⟩ := h
    have hkept : e'.children = [some l', some r'] := by
      first
        | exact (foldBinaryOperation_cases h).elim (fun h => (hlit h).elim) fun h => by rw [h]; rfl
        | rcases foldComparison_cases h with ⟨_, rfl⟩ | rfl
          · exact (hlit rfl).elim
          · rfl
    rw [hkept] at hc
    obtain _ | _ | i := i
    · simp only [List.getElem?_cons_zero, Option.some.injEq] at hc
      subst hc
      exact ⟨l, rfl, hl⟩
    · simp only [List.getElem?_cons_succ, List.getElem?_cons_zero, Option.some.injEq] at hc
      subst hc
      exact ⟨r, rfl, hr⟩
    · simp at hc
  | unaryOperation s op =>
    simp only [fold, bind_eq_ok] at h
    obtain ⟨s', hs, h⟩ := h
    rcases foldUnaryOperation_cases h with h | rfl
    · exact (hlit h).elim
    · obtain _ | i := i
      · simp only [children, List.getElem?_cons_zero, Option.some.injEq] at hc
        subst hc
        exact ⟨s, rfl, hs⟩
      · simp [children] at hc

theorem subexpressionAt_fold {s' : Expression} : ∀ {p : List Nat} {e e' : Expression},
    e.fold = .ok e' → e'.subexpressionAt p = some s' →
      ∃ s, e.subexpressionAt p = some s ∧ s.fold = .ok s'
  | [], e, e', h, hs => by
    cases hs
    exact ⟨e, rfl, h⟩
  | i :: p, e, e', h, hs => by
    obtain ⟨c', hc', hs⟩ := subexpressionAt_cons.1 hs
    obtain ⟨c, hc, hfold⟩ := children_fold h hc'
    obtain ⟨s, hp, hs⟩ := subexpressionAt_fold hfold hs
    exact ⟨s, subexpressionAt_cons.2 ⟨c, hc, hp⟩, hs⟩

end Expr

/-! ## Nodes a rule can fold -/

/-- The rule of a node, applied to its operands as they are. -/
def foldNode : Expression → Run Expression
  | .binaryOperation l r op => foldBinaryOperation l r op
  | .unaryOperation e op => foldUnaryOperation e op
  | .comparison l r op => foldComparison l r op
  | e => .ok e

/-- The operands are literals of classes for which a rule has a case. -/
def reducible : Expression → Bool
  | .binaryOperation l r op =>
    isNumericLiteralExpression l && isNumericLiteralExpression r &&
      !(op == .modulus && (isDoubleLiteralExpression l || isDoubleLiteralExpression r))
  | .unaryOperation e op =>
    match op with
    | .numericPositive | .numericNegative => isNumericLiteralExpression e
    | .booleanNegation => isBooleanLiteralExpression e
  | .comparison l r op =>
    isLiteralExpression l && isLiteralExpression r &&
      match op with
      | .equal | .notEqual =>
        isNumericLiteralExpression l && isNumericLiteralExpression r ||
          isBooleanLiteralExpression l && isBooleanLiteralExpression r ||
          isStringLiteralExpression l && isStringLiteralExpression r
      | .greaterThan | .greaterOrEqual | .lessThan | .lessOrEqual =>
        isNumericLiteralExpression l || isNumericLiteralExpression r
      | .or | .and => isBooleanLiteralExpression l || isBooleanLiteralExpression r
  | _ => false

theorem foldBinaryOperation_eq_self_iff {l r : Expression} {op : BinaryOperation} :
    foldBinaryOperation l r op = .ok (.binaryOperation l r op) ↔
      reducible (.binaryOperation l r op) = false := by
  simp only [foldBinaryOperation, reducible]
  cases hl : isNumericLiteralExpression l
  · simp [pure, Except.pure]
  cases hr : isNumericLiteralExpression r
  · simp [pure, Except.pure]
  cases hd : isDoubleLiteralExpression l || isDoubleLiteralExpression r
  · simp only [Bool.not_true, Bool.or_self, Bool.false_eq_true, if_false, bind_eq_ok, pure_eq_ok,
      reduceCtorEq, and_false, exists_false]
    simp
  · cases op with
    | modulus => simp [foldDoubles, pure, Except.pure]
    | addition | subtraction | multiplication | division =>
      simp only [foldDoubles, Bool.not_true, Bool.or_self, Bool.false_eq_true, if_false, if_true,
        bind_eq_ok, pure_eq_ok, reduceCtorEq, and_false, exists_false]
      simp

theorem foldUnaryOperation_eq_self_iff {e : Expression} {op : UnaryOperation} :
    foldUnaryOperation e op = .ok (.unaryOperation e op) ↔
      reducible (.unaryOperation e op) = false := by
  cases op with
  | numericPositive | numericNegative =>
    cases e <;> simp only [foldUnaryOperation, foldSign, reducible, isNumericLiteralExpression,
      bind_eq_ok, pure_eq_ok, reduceCtorEq, and_false, exists_false]
  | booleanNegation =>
    cases e <;> simp only [foldUnaryOperation, foldNegation, reducible, isBooleanLiteralExpression,
      Bool.false_eq_true, if_false, if_true, bind_eq_ok, pure_eq_ok, reduceCtorEq, and_false,
      exists_false]

theorem foldLiterals_eq_self_iff {l r : Expression} {op : ComparisonOperation}
    (hl : isLiteralExpression l = true) (hr : isLiteralExpression r = true) :
    foldLiterals l r op = .ok (.comparison l r op) ↔ reducible (.comparison l r op) = false := by
  cases op with
  | equal | notEqual =>
    simp only [foldLiterals, foldEquality, reducible, hl, hr, Bool.true_and]
    split_ifs <;> simp only [bind_eq_ok, pure_eq_ok, reduceCtorEq, and_false, exists_false] <;>
      simp_all
  | greaterThan | greaterOrEqual | lessThan | lessOrEqual =>
    simp only [foldLiterals, foldOrdering, reducible, hl, hr, Bool.true_and]
    split_ifs <;> simp only [bind_eq_ok, pure_eq_ok, reduceCtorEq, and_false, exists_false] <;>
      simp_all
  | or | and =>
    simp only [foldLiterals, foldLogical, reducible, hl, hr, Bool.true_and]
    split_ifs with h
    · simp_all [pure_eq_ok]
    · refine iff_of_false (fun hself => ?_) (by simp_all)
      obtain ⟨b, -, hself⟩ := bind_eq_ok.1 hself
      split at hself <;> simp only [bind_eq_ok, pure_eq_ok, reduceCtorEq, and_false,
        exists_false] at hself

/-- A rule leaves a node as it is exactly when it has no case for its operands. -/
theorem foldNode_eq_self_iff (e : Expression) : foldNode e = .ok e ↔ reducible e = false := by
  cases e with
  | binaryOperation l r op => exact foldBinaryOperation_eq_self_iff
  | unaryOperation e op => exact foldUnaryOperation_eq_self_iff
  | comparison l r op =>
    simp only [foldNode, foldComparison]
    split_ifs with h
    · refine iff_of_true rfl ?_
      cases hl : isLiteralExpression l <;> simp_all [reducible]
    · simp only [Bool.or_eq_true, Bool.not_eq_true', not_or, Bool.not_eq_false] at h
      exact foldLiterals_eq_self_iff h.1 h.2
  | _ => exact iff_of_true rfl rfl

/-- The rule of the root leaves a tree alone that is its own fold. -/
theorem foldNode_of_fold {e : Expression} (h : e.fold = .ok e) : foldNode e = .ok e := by
  cases e with
  | binaryOperation l r op =>
    simp only [Expr.fold, bind_eq_ok] at h
    obtain ⟨l', -, r', -, h⟩ := h
    rcases foldBinaryOperation_cases h with hlit | heq
    · simp [isLiteralExpression] at hlit
    · cases heq
      exact h
  | unaryOperation e op =>
    simp only [Expr.fold, bind_eq_ok] at h
    obtain ⟨s, -, h⟩ := h
    rcases foldUnaryOperation_cases h with hlit | heq
    · simp [isLiteralExpression] at hlit
    · cases heq
      exact h
  | comparison l r op =>
    simp only [Expr.fold, bind_eq_ok] at h
    obtain ⟨l', -, r', -, h⟩ := h
    rcases foldComparison_cases h with ⟨v, heq⟩ | heq
    · cases heq
    · cases heq
      exact h
  | _ => rfl

/-! ## The fold ends -/

/-- The run does not run out of fuel. -/
def Finishes {α : Type} (x : Run α) : Prop := x ≠ .error .outOfFuel

theorem finishes_ok {α : Type} (a : α) : Finishes (.ok a : Run α) := nofun

theorem Finishes.bind {α β : Type} {x : Run α} {k : α → Run β} (hx : Finishes x)
    (hk : ∀ a, Finishes (k a)) : Finishes (x >>= k) := by
  cases x with
  | error err => exact fun h => hx (by cases h; rfl)
  | ok a => exact hk a

theorem Finishes.map {α β : Type} {x : Run α} {f : α → β} (hx : Finishes x) :
    Finishes (x >>= fun a => pure (f a)) := hx.bind fun a => finishes_ok (f a)

theorem finishes_numericValue (e : Expression) : Finishes (numericValue e) := by
  cases e <;> nofun

theorem finishes_integerValue (e : Expression) : Finishes (integerValue e) := by
  cases e <;> nofun

theorem finishes_booleanValue (e : Expression) : Finishes (booleanValue e) := by
  cases e <;> nofun

theorem finishes_stringValue (e : Expression) : Finishes (stringValue e) := by
  cases e <;> nofun

theorem finishes_longValue (z v : Int) : Finishes (longValue z v) := by
  unfold longValue
  split <;> nofun

theorem finishes_checkedLong (z : Int) : Finishes (checkedLong z) := finishes_longValue z z

theorem finishes_foldLongs (a b : Int64) (op : BinaryOperation) :
    Finishes (foldLongs a b op) := by
  cases op with
  | addition | subtraction | multiplication => exact finishes_checkedLong _
  | division =>
    simp only [foldLongs]
    split
    · nofun
    · exact finishes_checkedLong _
  | modulus =>
    simp only [foldLongs]
    split
    · nofun
    · exact finishes_longValue _ _

theorem finishes_foldBinaryOperation (l r : Expression) (op : BinaryOperation) :
    Finishes (foldBinaryOperation l r op) := by
  unfold foldBinaryOperation
  split_ifs
  · exact finishes_ok _
  · cases op with
    | modulus => exact finishes_ok _
    | addition | subtraction | multiplication | division =>
      exact (finishes_numericValue l).bind fun _ => (finishes_numericValue r).map
  · exact (finishes_integerValue l).bind fun a => (finishes_integerValue r).bind fun b =>
      (finishes_foldLongs a b op).map

theorem finishes_foldUnaryOperation (e : Expression) (op : UnaryOperation) :
    Finishes (foldUnaryOperation e op) := by
  cases op with
  | numericPositive | numericNegative =>
    cases e <;> first
      | exact (finishes_checkedLong _).map
      | exact finishes_ok _
  | booleanNegation =>
    simp only [foldUnaryOperation, foldNegation]
    split
    · exact (finishes_booleanValue e).map
    · exact finishes_ok _

theorem finishes_foldEquality (l r : Expression) (op : ComparisonOperation) :
    Finishes (foldEquality l r op) := by
  unfold foldEquality
  split
  · exact (finishes_numericValue l).bind fun _ => (finishes_numericValue r).map
  · split
    · exact (finishes_booleanValue l).bind fun _ => (finishes_booleanValue r).map
    · split
      · exact (finishes_stringValue l).bind fun _ => (finishes_stringValue r).map
      · exact finishes_ok _

theorem finishes_foldComparison (l r : Expression) (op : ComparisonOperation) :
    Finishes (foldComparison l r op) := by
  unfold foldComparison
  split
  · exact finishes_ok _
  · cases op with
    | equal | notEqual => exact finishes_foldEquality l r _
    | greaterThan | greaterOrEqual | lessThan | lessOrEqual =>
      simp only [foldLiterals, foldOrdering]
      split
      · exact finishes_ok _
      · exact (finishes_numericValue l).bind fun _ => (finishes_numericValue r).map
    | or | and =>
      simp only [foldLiterals, foldLogical]
      split
      · exact finishes_ok _
      · refine (finishes_booleanValue l).bind fun _ => ?_
        split
        · exact finishes_ok _
        · exact (finishes_booleanValue r).map

theorem finishes_foldArguments : ∀ {args : List (Option Expression)},
    (∀ e, some e ∈ args → Finishes e.fold) → Finishes (Expr.foldArguments args)
  | [], _ => finishes_ok _
  | none :: _, _ => nofun
  | some e :: args, ih => by
    rw [Expr.foldArguments]
    exact (ih e List.mem_cons_self).bind fun _ =>
      (finishes_foldArguments fun e he => ih e (List.mem_cons_of_mem _ he)).map

theorem finishes_fold (e : Expression) : Finishes e.fold := by
  induction e using Expr.ind with
  | getAttribute v a ih => exact ih.map
  | methodCall m args ih => exact (finishes_foldArguments ih).map
  | binaryOperation l r op ihl ihr =>
    exact ihl.bind fun left => ihr.bind fun right => finishes_foldBinaryOperation left right op
  | unaryOperation e op ih => exact ih.bind fun sub => finishes_foldUnaryOperation sub op
  | comparison l r op ihl ihr =>
    exact ihl.bind fun left => ihr.bind fun right => finishes_foldComparison left right op
  | _ => exact finishes_ok _

/-! ## The pass on a whole tree -/

/-- From the height of the tree on, the nested recursion ends as the bottom-up fold ends, and
nothing is left to fold in its result. -/
theorem foldConstantExpressionsPass_is_fold (e : Expression) :
    (∀ n, e.depth ≤ n → foldConstantExpressionsPass.process n e = e.fold) ∧
      Finishes e.fold ∧
      ∀ e', foldConstantExpressions e = .ok e' →
        (∀ p s, e'.subexpressionAt p = some s → reducible s = false) ∧
          foldConstantExpressions e' = .ok e' := by
  refine ⟨fun n hn => process_eq_fold n e hn, finishes_fold e, fun e' h => ⟨fun p s hs => ?_, ?_⟩⟩
  · rw [foldConstantExpressions_eq_fold] at h
    obtain ⟨s₀, -, hfold⟩ := Expr.subexpressionAt_fold h hs
    have hself := (s₀.fold_stable s hfold).1
    exact (foldNode_eq_self_iff s).1 (foldNode_of_fold hself)
  · rw [foldConstantExpressions_eq_fold] at h ⊢
    exact (e.fold_stable e' h).1

/-- Folding keeps the type of the tree and of everything that is left in it. -/
theorem foldConstantExpressions_valueType {e e' : Expression}
    (h : foldConstantExpressions e = .ok e') :
    e'.valueType = e.valueType ∧
      ∀ p s', e'.subexpressionAt p = some s' →
        ∃ s, e.subexpressionAt p = some s ∧ s'.valueType = s.valueType := by
  rw [foldConstantExpressions_eq_fold] at h
  refine ⟨(fold_wellTyped e e' h).1, fun p s' hs' => ?_⟩
  obtain ⟨s, hs, hfold⟩ := Expr.subexpressionAt_fold h hs'
  exact ⟨s, hs, (fold_wellTyped s s' hfold).1⟩

/-- `x + 1 * 2`. -/
def sumWithProduct : Expression :=
  .binaryOperation (.variableReference "x".toList)
    (.binaryOperation (.integerLiteral 1) (.integerLiteral 2) .multiplication) .addition

/-- It folds to `x + 2`. -/
theorem sumWithProduct_valueType :
    (Expr.binaryOperation (.variableReference "x".toList) (.integerLiteral 2) .addition).valueType =
        sumWithProduct.valueType ∧
      ∀ p s', (Expr.binaryOperation (.variableReference "x".toList) (.integerLiteral 2)
          .addition).subexpressionAt p = some s' →
        ∃ s, sumWithProduct.subexpressionAt p = some s ∧ s'.valueType = s.valueType :=
  foldConstantExpressions_valueType rfl

end B2
