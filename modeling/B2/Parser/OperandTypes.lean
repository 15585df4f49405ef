import B2.Parser.Accepted

/-!
# Operand types

The assertions of the grammar's actions check the operand types of every tree
the parser builds: `AST.WellTyped` states them and `RootTree.action_wellTyped`
says that every accepted tree meets them.
-/

namespace B2

def numericOrVariant : ExpressionValueType → Bool
  | .integer | .double | .variant => true
  | _ => false

def booleanOrVariant : ExpressionValueType → Bool
  | .boolean | .variant => true
  | _ => false

def operandType (op : ComparisonOperation) : ExpressionValueType → Bool :=
  match op with
  | .equal | .notEqual => fun _ => true
  | .greaterThan | .greaterOrEqual | .lessThan | .lessOrEqual => numericOrVariant
  | .or | .and => booleanOrVariant

def unaryOperandType (op : UnaryOperation) : ExpressionValueType → Bool :=
  match op with
  | .numericPositive | .numericNegative => numericOrVariant
  | .booleanNegation => booleanOrVariant

namespace Expr

mutual

/-- Every operator has operands of the types the parser accepts, every attribute base is a
`Variant`. -/
def WellTyped : Expression → Prop
  | .getAttribute v _ => v.WellTyped ∧ v.valueType = .variant
  | .methodCall _ args => WellTypedArguments args
  | .binaryOperation l r _ =>
    l.WellTyped ∧ r.WellTyped ∧ numericOrVariant l.valueType ∧ numericOrVariant r.valueType
  | .unaryOperation e op => e.WellTyped ∧ unaryOperandType op e.valueType
  | .comparison l r op =>
    l.WellTyped ∧ r.WellTyped ∧ operandType op l.valueType ∧ operandType op r.valueType
  | .variableReference _ | .doubleLiteral _ | .integerLiteral _ | .booleanLiteral _
  | .stringLiteral _ => True

def WellTypedArguments : List (Option Expression) → Prop
  | [] => True
  | none :: args => WellTypedArguments args
  | some e :: args => e.WellTyped ∧ WellTypedArguments args

end

end Expr

/-- What the checks and the grammar of the parser enforce. -/
def AST.WellTyped : AST → Prop :=
  Everywhere Expr.WellTyped (fun e => e.valueType = .variant)
    (OfArguments Expr.WellTyped fun e => e.valueType = .variant)

/-! ## Trees the parser accepts -/

section

variable {line : Nat}

theorem assertThat_eq_ok {cond : Bool} {msg : Text} {u : Unit} :
    assertThat line cond msg = .ok u ↔ cond = true := by
  unfold assertThat
  split <;> simp_all

theorem assertNumeric_eq_ok {e : Expression} {u : Unit} :
    assertNumeric line e = .ok u ↔ numericOrVariant e.valueType = true := by
  rw [assertNumeric, assertThat_eq_ok]
  simp only [isNumeric, isVariant]
  cases e.valueType <;> decide

theorem assertBoolean_eq_ok {e : Expression} {u : Unit} :
    assertBoolean line e = .ok u ↔ booleanOrVariant e.valueType = true := by
  rw [assertBoolean, assertThat_eq_ok]
  simp only [isBoolean, isVariant]
  cases e.valueType <;> decide

theorem assertOperand_eq_ok {op : ComparisonOperation} {e : Expression} {u : Unit} :
    assertOperand line op e = .ok u ↔ operandType op e.valueType = true := by
  cases op with
  | equal | notEqual => simp [assertOperand, operandType]
  | greaterThan | greaterOrEqual | lessThan | lessOrEqual => exact assertNumeric_eq_ok
  | or | and => exact assertBoolean_eq_ok

theorem VarRefTree.action_wellTyped : ∀ t : VarRefTree,
    t.action.WellTyped ∧ t.action.valueType = .variant
  | .identifier _ => ⟨trivial, rfl⟩
  | .getAttribute v _ => ⟨action_wellTyped v, rfl⟩

theorem wellTypedArguments_map_some : ∀ {l : List Expression},
    Expr.WellTypedArguments (l.map some) ↔ ∀ e ∈ l, e.WellTyped
  | [] => by simp [Expr.WellTypedArguments]
  | e :: l => by simp [Expr.WellTypedArguments, wellTypedArguments_map_some]

mutual

theorem ExpressionTree.action_wellTyped : ∀ (t : ExpressionTree) (e : Expression),
    t.action line = .ok e → e.WellTyped
  | .varRef v, e, h => by
    cases h
    exact v.action_wellTyped.1
  | .stringLiteral _, e, h | .doubleLiteral _, e, h | .integerLiteral _, e, h
  | .booleanLiteral _, e, h => by
    cases h
    trivial
  | .minus t, e, h | .plus t, e, h => by
    simp only [ExpressionTree.action, bind_eq_ok, pure_eq_ok, assertNumeric_eq_ok] at h
    obtain ⟨s, hs, -, hn, rfl⟩ := h
    exact ⟨t.action_wellTyped s hs, hn⟩
  | .not t, e, h => by
    simp only [ExpressionTree.action, bind_eq_ok, pure_eq_ok, assertBoolean_eq_ok] at h
    obtain ⟨s, hs, -, hn, rfl⟩ := h
    exact ⟨t.action_wellTyped s hs, hn⟩
  | .binaryOperation l r op, e, h => by
    simp only [ExpressionTree.action, bind_eq_ok, pure_eq_ok, assertNumeric_eq_ok] at h
    obtain ⟨left, hl, right, hr, -, hnl, -, hnr, rfl⟩ := h
    exact ⟨l.action_wellTyped left hl, r.action_wellTyped right hr, hnl, hnr⟩
  | .comparison l r op, e, h => by
    simp only [ExpressionTree.action, bind_eq_ok, pure_eq_ok, assertOperand_eq_ok] at h
    obtain ⟨left, hl, right, hr, -, hnl, -, hnr, rfl⟩ := h
    exact ⟨l.action_wellTyped left hl, r.action_wellTyped right hr, hnl, hnr⟩
  | .parentheses t, e, h => t.action_wellTyped e h
  | .methodCall m args, e, h => by
    simp only [ExpressionTree.action, bind_eq_ok, pure_eq_ok] at h
    obtain ⟨l, hl, rfl⟩ := h
    exact wellTypedArguments_map_some.2 (args.action_wellTyped l hl)

theorem ArgumentsTree.action_wellTyped : ∀ (t : ArgumentsTree) (l : List Expression),
    t.action line = .ok l → ∀ e ∈ l, e.WellTyped
  | .one t, l, h => by
    simp only [ArgumentsTree.action, bind_eq_ok, pure_eq_ok] at h
    obtain ⟨e, he, rfl⟩ := h
    simpa using t.action_wellTyped e he
  | .snoc other t, l, h => by
    simp only [ArgumentsTree.action, bind_eq_ok, pure_eq_ok] at h
    obtain ⟨l', hl, e, he, rfl⟩ := h
    simpa [or_imp, forall_and] using
      ⟨other.action_wellTyped l' hl, t.action_wellTyped e he⟩

end

theorem StringExpressionMap.insert_forall {M : StringExpressionMap} {P : Expression → Prop}
    {x : Text} {e : Expression} (hM : ∀ p ∈ M.entries, P p.2) (he : P e) :
    ∀ p ∈ (M.insert x e).entries, P p.2 := by
  intro p hp
  rcases List.mem_append.1 hp with hp | hp
  · exact hM p (List.mem_filter.1 hp).1
  · rw [List.mem_singleton.1 hp]
    exact he

theorem MappingTree.action_wellTyped : ∀ (t : MappingTree) (M : StringExpressionMap),
    t.action line = .ok M → ∀ p ∈ M.entries, p.2.WellTyped
  | .identifier x, M, h => by
    cases h
    exact StringExpressionMap.insert_forall (by simp [StringExpressionMap.empty]) trivial
  | .assign x t, M, h => by
    simp only [action, bind_eq_ok, pure_eq_ok] at h
    obtain ⟨e, he, rfl⟩ := h
    exact StringExpressionMap.insert_forall (by simp [StringExpressionMap.empty])
      (t.action_wellTyped e he)
  | .snocIdentifier mapping x, M, h => by
    simp only [action, bind_eq_ok, pure_eq_ok] at h
    obtain ⟨M', hM, rfl⟩ := h
    exact StringExpressionMap.insert_forall (action_wellTyped mapping M' hM) trivial
  | .snocAssign mapping x t, M, h => by
    simp only [action, bind_eq_ok, pure_eq_ok] at h
    obtain ⟨M', hM, e, he, rfl⟩ := h
    exact StringExpressionMap.insert_forall (action_wellTyped mapping M' hM)
      (t.action_wellTyped e he)

theorem IncludeBlockTree.action_wellTyped : ∀ (t : IncludeBlockTree) (a : AST),
    t.action line = .ok a → a.WellTyped
  | .plain name, a, h => by
    cases h
    simp [AST.WellTyped, AST.Everywhere, AST.OfArguments, StringExpressionMap.empty]
  | .usingScope name t, a, h => by
    simp only [action, assertMap, bind_eq_ok, pure_eq_ok, assertThat_eq_ok, isVariant] at h
    obtain ⟨s, hs, -, hv, rfl⟩ := h
    simpa [AST.WellTyped, AST.Everywhere, AST.OfArguments, StringExpressionMap.empty] using
      ⟨t.action_wellTyped s hs, eq_of_beq hv⟩
  | .withMapping name mapping, a, h => by
    simp only [action, bind_eq_ok, pure_eq_ok] at h
    obtain ⟨M, hM, rfl⟩ := h
    simpa [AST.WellTyped, AST.Everywhere, AST.OfArguments] using mapping.action_wellTyped M hM

/-- Every tree the parser returns is well typed. -/
theorem RootTree.action_wellTyped {t : RootTree} {a : AST} (h : t.action line = .ok a) :
    a.WellTyped :=
  RootTree.action_everywhere ExpressionTree.action_wellTyped VarRefTree.action_wellTyped
    IncludeBlockTree.action_wellTyped h

end

end B2
