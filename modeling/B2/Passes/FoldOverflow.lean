import B2.Passes.FoldTypes
import B2.Passes.IncludeTypes

/-!
# Integer arithmetic in constant folding

`longOperations` are the operations on `long` values that the pass carries out
in a tree, in order. C++ defines them where the result fits in a `long`; a
division and a remainder also need a quotient that fits. The pass tests for a
zero divisor and for nothing else.

`firstStop` finds from the tree alone what ends a run early: the first null
argument or zero divisor, where the pass raises an error, or the first
operation that leaves the range. It computes on integers without bound
(`exactLong`), which agree with the literals of the pass up to there.
-/

namespace B2

/-- An operation of the pass on values of type `long`. -/
inductive LongOperation where
  | binary (left right : Int64) (op : BinaryOperation)
  /-- `oldValue * multiplier` -/
  | sign (oldValue : Int64) (multiplier : Int)

/-- C++ defines the operation on these values. -/
def LongOperation.Defined : LongOperation → Prop
  | .binary a b .addition => FitsLong (a.toInt + b.toInt)
  | .binary a b .subtraction => FitsLong (a.toInt - b.toInt)
  | .binary a b .multiplication => FitsLong (a.toInt * b.toInt)
  | .binary a b .division | .binary a b .modulus =>
    b ≠ 0 ∧ ¬(a = Int64.minValue ∧ b = -1)
  | .sign v multiplier => FitsLong (v.toInt * multiplier)

/-- The pass tests the divisor before it divides. -/
def dividesByZero (b : Int64) : BinaryOperation → Bool
  | .division | .modulus => b = 0
  | .addition | .subtraction | .multiplication => false

/-- The operation the rule of a node with folded operands carries out. -/
def nodeOperation : Expression → List LongOperation
  | .binaryOperation (.integerLiteral a) (.integerLiteral b) op =>
    if dividesByZero b op then [] else [.binary a b op]
  | .unaryOperation (.integerLiteral v) .numericPositive => [.sign v 1]
  | .unaryOperation (.integerLiteral v) .numericNegative => [.sign v (-1)]
  | _ => []

mutual

/-- The operations on `long` values that `FoldConstantExpressionsPass` carries out in a tree. -/
def longOperations : Expression → List LongOperation
  | .getAttribute v _ => longOperations v
  | .methodCall _ args => argumentOperations args
  | .binaryOperation l r op =>
    longOperations l ++ afterOk (foldConstantExpressions l) fun left =>
      longOperations r ++ afterOk (foldConstantExpressions r) fun right =>
        nodeOperation (.binaryOperation left right op)
  | .unaryOperation e op =>
    longOperations e ++ afterOk (foldConstantExpressions e) fun sub =>
      nodeOperation (.unaryOperation sub op)
  | .comparison l r _ =>
    longOperations l ++ afterOk (foldConstantExpressions l) fun _ => longOperations r
  | .variableReference _ | .doubleLiteral _ | .integerLiteral _ | .booleanLiteral _
  | .stringLiteral _ => []

def argumentOperations : List (Option Expression) → List LongOperation
  | [] => []
  | none :: _ => []
  | some e :: args =>
    longOperations e ++ afterOk (foldConstantExpressions e) fun _ => argumentOperations args

end

/-- Folding `e` does no arithmetic that C++ leaves undefined. -/
def FoldsDefined (e : Expression) : Prop := ∀ o ∈ longOperations e, o.Defined

/-! ## The condition, on integers without bound -/

/-- An operation on integers, the division truncated; none by zero. -/
def exactResult (op : BinaryOperation) (a b : Int) : Option Int :=
  match op with
  | .addition => some (a + b)
  | .subtraction => some (a - b)
  | .multiplication => some (a * b)
  | .division => if b = 0 then none else some (a.tdiv b)
  | .modulus => if b = 0 then none else some (a.tmod b)

/-- What has to fit for the operation to be defined: its result, or the quotient. -/
def criticalResult (op : BinaryOperation) (a b : Int) : Int :=
  match op with
  | .addition => a + b
  | .subtraction => a - b
  | .multiplication => a * b
  | .division | .modulus => a.tdiv b

def signMultiplier : UnaryOperation → Option Int
  | .numericPositive => some 1
  | .numericNegative => some (-1)
  | .booleanNegation => none

/-- The integer a constant tree stands for. -/
def exactLong : Expression → Option Int
  | .integerLiteral v => some v.toInt
  | .binaryOperation l r op =>
    match exactLong l, exactLong r with
    | some a, some b => exactResult op a b
    | _, _ => none
  | .unaryOperation e op =>
    match exactLong e, signMultiplier op with
    | some a, some multiplier => some (a * multiplier)
    | _, _ => none
  | _ => none

inductive Stop where
  /-- a null argument or a zero divisor -/
  | error
  | overflow
  deriving DecidableEq

def binaryStop (op : BinaryOperation) : Option Int → Option Int → Option Stop
  | some a, some b =>
    if exactResult op a b = none then some .error
    else if FitsLong (criticalResult op a b) then none else some .overflow
  | _, _ => none

def unaryStop (op : UnaryOperation) (a : Option Int) : Option Stop :=
  match a, signMultiplier op with
  | some a, some multiplier => if FitsLong (a * multiplier) then none else some .overflow
  | _, _ => none

mutual

/-- What ends the folding of a tree early, operands before operators and left before right. -/
def firstStop : Expression → Option Stop
  | .getAttribute v _ => firstStop v
  | .methodCall _ args => firstArgumentStop args
  | .binaryOperation l r op =>
    (firstStop l).or ((firstStop r).or (binaryStop op (exactLong l) (exactLong r)))
  | .unaryOperation e op => (firstStop e).or (unaryStop op (exactLong e))
  | .comparison l r _ => (firstStop l).or (firstStop r)
  | .variableReference _ | .doubleLiteral _ | .integerLiteral _ | .booleanLiteral _
  | .stringLiteral _ => none

def firstArgumentStop : List (Option Expression) → Option Stop
  | [] => none
  | none :: _ => some .error
  | some e :: args => (firstStop e).or (firstArgumentStop args)

end

/-! ## One operation -/

theorem longValue_of_fits {z v : Int} (h : FitsLong z) : longValue z v = .ok (.ofInt v) :=
  if_pos h

theorem checkedLong_of_fits {z : Int} (h : FitsLong z) : checkedLong z = .ok (.ofInt z) :=
  longValue_of_fits h

/-- The one quotient of `long` values that does not fit is the least value by -1. -/
theorem fitsLong_tdiv_iff (a b : Int64) :
    FitsLong (a.toInt.tdiv b.toInt) ↔ ¬(a = Int64.minValue ∧ b = -1) := by
  have ha := fitsLong_toInt a
  have hmin : a = Int64.minValue ↔ a.toInt = -2 ^ 63 := by
    rw [← Int64.toInt_inj]; rfl
  have hneg : b = -1 ↔ b.toInt = -1 := by
    rw [← Int64.toInt_inj]; rfl
  rw [hmin, hneg]
  unfold FitsLong at ha ⊢
  have habs : (a.toInt.tdiv b.toInt).natAbs = a.toInt.natAbs / b.toInt.natAbs :=
    Int.natAbs_tdiv _ _
  by_cases hb : b.toInt = -1
  · rw [hb, Int.tdiv_neg, Int.tdiv_one]
    omega
  · by_cases hle : b.toInt.natAbs ≤ 1
    · have hcases : b.toInt = 0 ∨ b.toInt = 1 := by omega
      rcases hcases with h | h
      · rw [h, Int.tdiv_zero]
        omega
      · rw [h, Int.tdiv_one]
        omega
    · have hhalf : a.toInt.natAbs / b.toInt.natAbs ≤ a.toInt.natAbs / 2 :=
        Nat.div_le_div_left (by omega) (by omega)
      omega

/-! ## How a run stops -/

/-- What the first stop says about a run and its operations; without one the result
satisfies `P`. -/
def StopsAs {α : Type} (operations : List LongOperation) (x : Run α) (P : α → Prop) :
    Option Stop → Prop
  | none => (∃ a, x = .ok a ∧ P a) ∧ ∀ o ∈ operations, o.Defined
  | some .error => (∃ err, x = .error err) ∧ ∀ o ∈ operations, o.Defined
  | some .overflow => ∃ o ∈ operations, ¬o.Defined

theorem stopsAs_ok {α : Type} {P : α → Prop} {a : α} (h : P a) : StopsAs [] (.ok a) P none :=
  ⟨⟨a, rfl, h⟩, by simp⟩

/-- Defined operations put before a run change nothing. -/
theorem StopsAs.append {α : Type} {o₁ o₂ : List LongOperation} {x : Run α} {P : α → Prop}
    (h₁ : ∀ o ∈ o₁, o.Defined) :
    ∀ {t : Option Stop}, StopsAs o₂ x P t → StopsAs (o₁ ++ o₂) x P t
  | none, ⟨hx, h₂⟩ => ⟨hx, fun o ho => (List.mem_append.1 ho).elim (h₁ o) (h₂ o)⟩
  | some .error, ⟨hx, h₂⟩ => ⟨hx, fun o ho => (List.mem_append.1 ho).elim (h₁ o) (h₂ o)⟩
  | some .overflow, ⟨o, ho, h⟩ => ⟨o, List.mem_append_right _ ho, h⟩

/-- Two runs one after the other: the first stop is that of the first run that has one. -/
theorem StopsAs.bind {α β : Type} {o₁ : List LongOperation} {o₂ : α → List LongOperation}
    {x : Run α} {k : α → Run β} {P : α → Prop} {Q : β → Prop} {t₁ t₂ : Option Stop}
    (h₁ : StopsAs o₁ x P t₁) (h₂ : ∀ a, x = .ok a → P a → StopsAs (o₂ a) (k a) Q t₂) :
    StopsAs (o₁ ++ afterOk x o₂) (x >>= k) Q (t₁.or t₂) := by
  match t₁, h₁ with
  | none, ⟨⟨a, hx, ha⟩, hs⟩ =>
    have h := h₂ a hx ha
    subst hx
    exact h.append hs
  | some .error, ⟨⟨err, hx⟩, hs⟩ =>
    subst hx
    exact ⟨⟨err, rfl⟩, by simpa [afterOk] using hs⟩
  | some .overflow, ⟨o, ho, h⟩ => exact ⟨o, List.mem_append_left _ ho, h⟩

/-- A run that goes on without an operation. -/
theorem StopsAs.andThen {α β : Type} {operations : List LongOperation} {x : Run α}
    {k : α → Run β} {P : α → Prop} {Q : β → Prop} {t₁ t₂ : Option Stop}
    (h₁ : StopsAs operations x P t₁) (h₂ : ∀ a, x = .ok a → P a → StopsAs [] (k a) Q t₂) :
    StopsAs operations (x >>= k) Q (t₁.or t₂) := by
  have hnil : afterOk x (fun _ => ([] : List LongOperation)) = [] := by cases x <;> rfl
  have := h₁.bind h₂
  rwa [hnil, List.append_nil] at this

theorem StopsAs.map {α β : Type} {operations : List LongOperation} {x : Run α} {g : α → β}
    {P : α → Prop} {Q : β → Prop} {t : Option Stop} (h : StopsAs operations x P t)
    (hg : ∀ a, P a → Q (g a)) : StopsAs operations (x >>= fun a => pure (g a)) Q t := by
  rw [← Option.or_none (o := t)]
  exact h.andThen fun a _ ha => stopsAs_ok (hg a ha)

/-! ## One node -/

/-- The value of an integer literal. -/
def literalLong : Expression → Option Int
  | .integerLiteral v => some v.toInt
  | _ => none

theorem literalLong_eq_some {e : Expression} {z : Int} (h : literalLong e = some z) :
    ∃ v, e = .integerLiteral v ∧ v.toInt = z := by
  cases e <;> simp only [literalLong, Option.some.injEq, reduceCtorEq] at h
  exact ⟨_, rfl, h⟩

/-- A checked result is the exact one, or the operation is not defined. -/
theorem checkedLong_stops {o : LongOperation} {z : Int} {P : Expression → Prop}
    (ho : o.Defined ↔ FitsLong z) (hP : ∀ v : Int64, v.toInt = z → P (.integerLiteral v)) :
    StopsAs [o] (checkedLong z >>= fun v => pure (.integerLiteral v)) P
      (if FitsLong z then none else some .overflow) := by
  split
  · rename_i hz
    rw [checkedLong_of_fits hz]
    refine ⟨⟨_, rfl, hP _ ?_⟩, by simpa using ho.2 hz⟩
    exact Int64.toInt_ofInt_of_le hz.1 hz.2
  · rename_i hz
    exact ⟨o, List.mem_singleton_self o, fun h => hz (ho.1 h)⟩

theorem foldLongs_stops (a b : Int64) (op : BinaryOperation) {P : Expression → Prop}
    (hP : ∀ v : Int64, exactResult op a.toInt b.toInt = some v.toInt → P (.integerLiteral v)) :
    StopsAs (if dividesByZero b op then [] else [.binary a b op])
      (foldLongs a b op >>= fun v => pure (.integerLiteral v)) P
      (binaryStop op (some a.toInt) (some b.toInt)) := by
  have hzero : b.toInt = 0 ↔ b = 0 := by
    rw [← Int64.toInt_inj]; rfl
  cases op with
  | addition | subtraction | multiplication =>
    exact checkedLong_stops Iff.rfl fun v hv => hP v (by rw [exactResult, hv])
  | division =>
    simp only [foldLongs, dividesByZero, binaryStop, exactResult, criticalResult, hzero,
      decide_eq_true_eq] at hP ⊢
    by_cases hb : b = 0
    · simp only [hb, if_true]
      exact ⟨⟨_, rfl⟩, by simp⟩
    · simp only [hb, if_false, reduceCtorEq] at hP ⊢
      refine checkedLong_stops ?_ fun v hv => hP v (by rw [hv])
      rw [fitsLong_tdiv_iff]
      exact and_iff_right hb
  | modulus =>
    simp only [foldLongs, dividesByZero, binaryStop, exactResult, criticalResult, hzero,
      decide_eq_true_eq] at hP ⊢
    by_cases hb : b = 0
    · simp only [hb, if_true]
      exact ⟨⟨_, rfl⟩, by simp⟩
    · simp only [hb, if_false, reduceCtorEq] at hP ⊢
      have hdef : LongOperation.Defined (.binary a b .modulus) ↔
          FitsLong (a.toInt.tdiv b.toInt) := by
        rw [fitsLong_tdiv_iff]
        exact and_iff_right hb
      by_cases hq : FitsLong (a.toInt.tdiv b.toInt)
      · have hm := fitsLong_tmod a b
        simp only [hq, longValue_of_fits hq, if_true]
        refine ⟨⟨_, rfl, hP _ ?_⟩, by simpa using hdef.2 hq⟩
        rw [Int64.toInt_ofInt_of_le hm.1 hm.2]
      · simp only [hq, if_false]
        exact ⟨_, List.mem_singleton_self _, fun h => hq (hdef.1 h)⟩

/-- The literal a tree folds to, if it is one of an integer, is what the tree stands for. -/
def Exact (e e' : Expression) : Prop := literalLong e' = exactLong e

theorem numericValue_of_isNumeric {e : Expression} (h : isNumericLiteralExpression e = true) :
    ∃ v, numericValue e = .ok v := by
  cases e <;> first | exact ⟨_, rfl⟩ | simp [isNumericLiteralExpression] at h

/-- Without two integers the rule does no arithmetic on `long` values. -/
theorem foldBinaryOperation_of_not_long {left right : Expression} (op : BinaryOperation)
    (h : literalLong left = none ∨ literalLong right = none) :
    ∃ e', foldBinaryOperation left right op = .ok e' ∧ literalLong e' = none := by
  unfold foldBinaryOperation
  split_ifs with hnum hd
  · exact ⟨_, rfl, rfl⟩
  · simp only [Bool.or_eq_true, Bool.not_eq_true', not_or, Bool.not_eq_false] at hnum
    obtain ⟨v, hv⟩ := numericValue_of_isNumeric hnum.1
    obtain ⟨w, hw⟩ := numericValue_of_isNumeric hnum.2
    cases op <;> simp only [foldDoubles, hv, hw] <;> exact ⟨_, rfl, rfl⟩
  · exfalso
    cases left <;> cases right <;>
      simp_all [isNumericLiteralExpression, isDoubleLiteralExpression, literalLong]

theorem nodeOperation_of_not_long {left right : Expression} {op : BinaryOperation}
    (h : literalLong left = none ∨ literalLong right = none) :
    nodeOperation (.binaryOperation left right op) = [] := by
  unfold nodeOperation
  split <;> simp_all [literalLong]

theorem foldBinaryOperation_stops {l r left right : Expression} {op : BinaryOperation}
    (hl : Exact l left) (hr : Exact r right) :
    StopsAs (nodeOperation (.binaryOperation left right op)) (foldBinaryOperation left right op)
      (Exact (.binaryOperation l r op)) (binaryStop op (exactLong l) (exactLong r)) := by
  have hother : literalLong left = none ∨ literalLong right = none →
      binaryStop op (exactLong l) (exactLong r) = none →
      exactLong (.binaryOperation l r op) = none →
      StopsAs (nodeOperation (.binaryOperation left right op)) (foldBinaryOperation left right op)
        (Exact (.binaryOperation l r op)) (binaryStop op (exactLong l) (exactLong r)) := by
    intro h hstop hexact
    obtain ⟨e', he', hlong⟩ := foldBinaryOperation_of_not_long op h
    rw [nodeOperation_of_not_long h, he', hstop]
    exact stopsAs_ok (hlong.trans hexact.symm)
  cases ha : exactLong l with
  | none =>
    rw [ha] at hother
    exact hother (.inl (hl.trans ha)) rfl (by simp only [exactLong, ha])
  | some a =>
    cases hb : exactLong r with
    | none =>
      rw [ha, hb] at hother
      exact hother (.inr (hr.trans hb)) rfl (by simp only [exactLong, ha, hb])
    | some b =>
      obtain ⟨v, rfl, rfl⟩ := literalLong_eq_some (hl.trans ha)
      obtain ⟨w, rfl, rfl⟩ := literalLong_eq_some (hr.trans hb)
      refine foldLongs_stops v w op fun u hu => ?_
      simp only [Exact, exactLong, ha, hb, hu]
      rfl

theorem foldUnaryOperation_stops {e sub : Expression} {op : UnaryOperation} (he : Exact e sub) :
    StopsAs (nodeOperation (.unaryOperation sub op)) (foldUnaryOperation sub op)
      (Exact (.unaryOperation e op)) (unaryStop op (exactLong e)) := by
  cases ha : exactLong e with
  | none =>
    have hnone : exactLong (.unaryOperation e op) = none := by simp only [exactLong, ha]
    have hsub : literalLong sub = none := he.trans ha
    have hop : nodeOperation (.unaryOperation sub op) = [] := by
      unfold nodeOperation
      split <;> simp_all [literalLong]
    rw [hop]
    cases op with
    | booleanNegation => cases sub <;> exact stopsAs_ok hnone.symm
    | numericPositive | numericNegative =>
      cases sub <;> first | exact stopsAs_ok hnone.symm | simp [literalLong] at hsub
  | some a =>
    obtain ⟨v, rfl, rfl⟩ := literalLong_eq_some (he.trans ha)
    cases op with
    | booleanNegation => exact stopsAs_ok (by simp only [Exact, exactLong, ha]; rfl)
    | numericPositive | numericNegative =>
      refine checkedLong_stops Iff.rfl fun w hw => ?_
      simp only [Exact, exactLong, ha, signMultiplier, literalLong, hw]
      rfl

theorem literalType_eq_valueType {e : Expression} {a : ExpressionValueType}
    (h : literalType e = some a) : e.valueType = a := by
  cases e <;> simp only [literalType, Option.some.injEq, reduceCtorEq] at h <;> exact h

theorem literalType_ne_variant {e : Expression} {a : ExpressionValueType}
    (h : literalType e = some a) : a ≠ .variant := by
  rintro rfl
  cases e <;> simp [literalType] at h

/-- Literals that both pass the parser's check do not mix types one of which is needed. -/
theorem oneSided_of_operandType {op : ComparisonOperation} {a b : ExpressionValueType}
    (ha : a ≠ .variant) (hb : b ≠ .variant) (hl : operandType op a = true)
    (hr : operandType op b = true) : oneSided op a b = false := by
  have hnum : ∀ {c : ExpressionValueType}, c ≠ .variant → numericOrVariant c = true →
      isNumericType c = true := by
    intro c hc h
    cases c <;> simp_all [numericOrVariant, isNumericType]
  have hbool : ∀ {c : ExpressionValueType}, c ≠ .variant → booleanOrVariant c = true →
      c = .boolean := by
    intro c hc h
    cases c <;> simp_all [booleanOrVariant]
  cases op with
  | equal | notEqual => rfl
  | greaterThan | greaterOrEqual | lessThan | lessOrEqual =>
    simp [oneSided, hnum ha hl, hnum hb hr]
  | or | and => simp [oneSided, hbool ha hl, hbool hb hr]

/-- A comparison that passes the parser's checks raises no error. -/
theorem foldComparison_of_operandType {left right : Expression} (op : ComparisonOperation)
    (hl : operandType op left.valueType = true) (hr : operandType op right.valueType = true) :
    ∃ e', foldComparison left right op = .ok e' ∧ literalLong e' = none := by
  cases ha : literalType left with
  | none => exact ⟨_, foldComparison_of_none (.inl ha), rfl⟩
  | some a =>
    cases hb : literalType right with
    | none => exact ⟨_, foldComparison_of_none (.inr hb), rfl⟩
    | some b =>
      cases hq : requiredTypes op a b with
      | true =>
        obtain ⟨v, h⟩ := foldComparison_required ha hb hq
        exact ⟨_, h, rfl⟩
      | false =>
        refine ⟨_, foldComparison_alone ha hb hq ?_, rfl⟩
        rw [literalType_eq_valueType ha] at hl
        rw [literalType_eq_valueType hb] at hr
        exact oneSided_of_operandType (literalType_ne_variant ha) (literalType_ne_variant hb) hl hr

/-! ## The whole tree -/

theorem foldArguments_stops : ∀ {args : List (Option Expression)},
    (∀ e, some e ∈ args → StopsAs (longOperations e) e.fold (Exact e) (firstStop e)) →
      StopsAs (argumentOperations args) (Expr.foldArguments args) (fun _ => True)
        (firstArgumentStop args)
  | [], _ => stopsAs_ok trivial
  | none :: args, _ => ⟨⟨_, rfl⟩, by simp [argumentOperations]⟩
  | some e :: args, h => by
    have he := h e List.mem_cons_self
    have hargs := foldArguments_stops fun e' h' => h e' (List.mem_cons_of_mem _ h')
    simp only [argumentOperations, foldConstantExpressions_eq_fold, Expr.foldArguments,
      firstArgumentStop]
    exact he.bind fun e' _ _ => hargs.map fun _ _ => trivial

theorem wellTyped_of_mem {e : Expression} {args : List (Option Expression)}
    (h : Expr.WellTypedArguments args) (he : some e ∈ args) : e.WellTyped := by
  induction args with
  | nil => simp at he
  | cons arg args ih =>
    cases arg with
    | none => exact ih h (by simpa using he)
    | some e' =>
      rcases List.mem_cons.1 he with heq | he
      · cases heq
        exact h.1
      · exact ih h.2 he

/-- Folding a tree that passes the parser's checks stops the way its first stop says. -/
theorem fold_stops (e : Expression) (hw : e.WellTyped) :
    StopsAs (longOperations e) e.fold (Exact e) (firstStop e) := by
  induction e using Expr.ind with
  | variableReference _ | doubleLiteral _ | booleanLiteral _ | stringLiteral _
  | integerLiteral _ => exact stopsAs_ok rfl
  | getAttribute v a ih =>
    simp only [longOperations, Expr.fold, firstStop]
    exact (ih hw.1).map fun _ _ => rfl
  | methodCall m args ih =>
    simp only [longOperations, Expr.fold, firstStop]
    exact (foldArguments_stops fun e he => ih e he (wellTyped_of_mem hw he)).map fun _ _ => rfl
  | binaryOperation l r op ihl ihr =>
    simp only [longOperations, foldConstantExpressions_eq_fold, Expr.fold, firstStop]
    exact (ihl hw.1).bind fun left _ hl => (ihr hw.2.1).bind fun right _ hr =>
      foldBinaryOperation_stops hl hr
  | unaryOperation s op ih =>
    simp only [longOperations, foldConstantExpressions_eq_fold, Expr.fold, firstStop]
    exact (ih hw.1).bind fun sub _ hs => foldUnaryOperation_stops hs
  | comparison l r op ihl ihr =>
    simp only [longOperations, foldConstantExpressions_eq_fold, Expr.fold, firstStop]
    refine (ihl hw.1).bind fun left hleft _ => ?_
    rw [← Option.or_none (o := firstStop r)]
    refine StopsAs.andThen (ihr hw.2.1) fun right hright _ => ?_
    obtain ⟨e', he', hlong⟩ := foldComparison_of_operandType op
      (by rw [(fold_wellTyped l left hleft).1]; exact hw.2.2.1)
      (by rw [(fold_wellTyped r right hright).1]; exact hw.2.2.2)
    rw [he']
    exact stopsAs_ok hlong

/-- The pass does only defined arithmetic in exactly the trees of the parser in which no
operation leaves the range before an error is raised. -/
theorem foldsDefined_iff {t : ExpressionTree} {line : Nat} {e : Expression}
    (h : t.action line = .ok e) : FoldsDefined e ↔ firstStop e ≠ some .overflow := by
  have hs := fold_stops e (t.action_wellTyped e h)
  cases hstop : firstStop e with
  | none =>
    rw [hstop] at hs
    exact iff_of_true hs.2 (by simp)
  | some stop =>
    rw [hstop] at hs
    cases stop with
    | error => exact iff_of_true hs.2 (by simp)
    | overflow =>
      obtain ⟨o, ho, hdef⟩ := hs
      exact iff_of_false (fun h => hdef (h o ho)) (by simp)

/-- `7 / (2 - 2)`: the pass raises an error and does not divide. -/
def zeroDivisor : ExpressionTree :=
  .binaryOperation (.integerLiteral 7)
    (.parentheses (.binaryOperation (.integerLiteral 2) (.integerLiteral 2) .subtraction)) .division

theorem foldsDefined_zeroDivisor :
    FoldsDefined (.binaryOperation (.integerLiteral 7)
      (.binaryOperation (.integerLiteral 2) (.integerLiteral 2) .subtraction) .division) := by
  refine (@foldsDefined_iff zeroDivisor 1 _ rfl).2 ?_
  decide

/-- `(-9223372036854775807 - 1) / -1`. -/
def leastByMinusOne : ExpressionTree :=
  .binaryOperation
    (.parentheses (.binaryOperation (.minus (.integerLiteral 9223372036854775807))
      (.integerLiteral 1) .subtraction))
    (.minus (.integerLiteral 1)) .division

/-- The sum of the greatest `long` and one, and the quotient of the least one by -1. -/
theorem not_foldsDefined_greatest :
    (∃ e, (ExpressionTree.binaryOperation (.integerLiteral 9223372036854775807)
        (.integerLiteral 1) .addition).action 1 = .ok e ∧ ¬FoldsDefined e) ∧
      ∃ e, leastByMinusOne.action 1 = .ok e ∧ ¬FoldsDefined e := by
  refine ⟨⟨_, rfl, fun h => ?_⟩, ⟨_, rfl, fun h => ?_⟩⟩
  · have := h (.binary 9223372036854775807 1 .addition) (List.mem_singleton_self _)
    exact absurd (show FitsLong _ from this) (by decide)
  · have := h (.binary Int64.minValue (-1) .division)
      (.tail _ (.tail _ (.tail _ (.head _))))
    exact this.2 ⟨rfl, rfl⟩

end B2
