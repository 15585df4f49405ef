import B2.Parser.Derivation
import B2.Precedence.OperatorTree

/-!
# Conflicts of the grammar

Without its precedences `syntax.y` is ambiguous: it derives most expressions with two
operators in two ways, and adjacent raw text in many. `resolve` is the derivation that
the generated parser builds in the place of another one with the same tokens. So the
precedences lose no template.
-/

namespace B2

/-! ## Operators between operands -/

inductive Connective where
  | binary (op : BinaryOperation)
  | comparison (op : ComparisonOperation)
  deriving DecidableEq

namespace Connective

def operator : Connective → Operator
  | .binary op => .binary op
  | .comparison op => .comparison op

def token : Connective → Token
  | .binary op => op.token
  | .comparison op => op.token

/-- The production of the operator. -/
def apply : Connective → ExpressionTree → ExpressionTree → ExpressionTree
  | .binary op, l, r => .binaryOperation l r op
  | .comparison op, l, r => .comparison l r op

def Reduces (production lookahead : Connective) : Prop :=
  production.operator.Reduces lookahead.operator

instance decidableReduces : DecidableRel Reduces := fun _ _ =>
  inferInstanceAs (Decidable (_ < _ ∨ (_ = _ ∧ _ = true)))

/-- The productions of prefix operators are reduced before any of these operators. -/
theorem reduces_sign (op : Connective) : Operator.sign.Reduces op.operator := by
  left
  rcases op with op | op <;> cases op <;> decide

theorem reduces_not (op : Connective) : Operator.not.Reduces op.operator := by
  left
  rcases op with op | op <;> cases op <;> decide

variable {op : Connective} {l r : ExpressionTree}

@[simp] theorem tokens_apply : (op.apply l r).tokens = l.tokens ++ op.token :: r.tokens := by
  cases op <;> rfl

@[simp] theorem leftSpine_apply : (op.apply l r).leftSpine = op.operator :: l.leftSpine := by
  cases op <;> rfl

@[simp] theorem rightSpine_apply : (op.apply l r).rightSpine = op.operator :: r.rightSpine := by
  cases op <;> rfl

theorem resolved_apply : (op.apply l r).Resolved ↔
    l.EndsBefore op.operator ∧ ExpressionTree.GoesOn op.operator r ∧ l.Resolved ∧ r.Resolved := by
  cases op <;> rfl

end Connective

namespace ExpressionTree

open Precedence (OperatorTree)

/-! ## Operands -/

/-- No operator of the tree is outside prefix operators, parentheses and arguments. -/
def IsOperand : ExpressionTree → Prop
  | .binaryOperation .. | .comparison .. => False
  | .minus e | .plus e | .not e => e.IsOperand
  | _ => True

theorem IsOperand.leftSpine {e : ExpressionTree} (h : e.IsOperand) : e.leftSpine = [] := by
  cases e with
  | binaryOperation | comparison => exact h.elim
  | _ => rfl

theorem IsOperand.goesOn {e : ExpressionTree} (h : e.IsOperand) (production : Operator) :
    GoesOn production e := by
  intro operator hoperator
  rw [h.leftSpine] at hoperator
  exact absurd hoperator List.not_mem_nil

/-- An operand ends in prefix operators only. -/
theorem IsOperand.endsBefore : ∀ {e : ExpressionTree}, e.IsOperand → ∀ op : Connective,
    e.EndsBefore op.operator
  | .minus e, h, op | .plus e, h, op =>
    List.forall_mem_cons.2 ⟨op.reduces_sign, IsOperand.endsBefore (e := e) h op⟩
  | .not e, h, op => List.forall_mem_cons.2 ⟨op.reduces_not, IsOperand.endsBefore (e := e) h op⟩
  | .varRef _, _, _ | .stringLiteral _, _, _ | .doubleLiteral _, _, _ | .integerLiteral _, _, _
  | .booleanLiteral _, _, _ | .parentheses _, _, _ | .methodCall _ _, _, _ =>
    fun _ h => absurd h List.not_mem_nil

/-- Only operators with a left operand begin where the expression begins. -/
theorem exists_connective {e : ExpressionTree} {operator : Operator} (h : operator ∈ e.leftSpine) :
    ∃ op : Connective, operator = op.operator := by
  induction e using ExpressionTree.leftSpine.induct with
  | case1 l _ op ih =>
    rcases List.mem_cons.1 h with rfl | h
    · exact ⟨.binary op, rfl⟩
    · exact ih h
  | case2 l _ op ih =>
    rcases List.mem_cons.1 h with rfl | h
    · exact ⟨.comparison op, rfl⟩
    · exact ih h
  | case3 e hbinary hcomparison =>
    rw [ExpressionTree.leftSpine] at h
    · exact absurd h List.not_mem_nil
    · exact hbinary
    · exact hcomparison

/-- A prefix operator goes on with no other operator. -/
theorem leftSpine_eq_nil {e : ExpressionTree} {prefixed : Operator}
    (hreduces : ∀ op : Connective, prefixed.Reduces op.operator) (h : GoesOn prefixed e) :
    e.leftSpine = [] := by
  refine List.eq_nil_iff_forall_not_mem.2 fun operator hoperator => ?_
  obtain ⟨op, rfl⟩ := exists_connective hoperator
  exact h _ hoperator (hreduces op)

theorem Resolved.isOperand : ∀ {e : ExpressionTree}, e.Resolved → e.leftSpine = [] → e.IsOperand
  | .minus e, ⟨hgoes, he⟩, _ | .plus e, ⟨hgoes, he⟩, _ =>
    Resolved.isOperand (e := e) he (leftSpine_eq_nil Connective.reduces_sign hgoes)
  | .not e, ⟨hgoes, he⟩, _ =>
    Resolved.isOperand (e := e) he (leftSpine_eq_nil Connective.reduces_not hgoes)
  | .binaryOperation .., _, h | .comparison .., _, h => absurd h (List.cons_ne_nil _ _)
  | .varRef _, _, _ | .stringLiteral _, _, _ | .doubleLiteral _, _, _ | .integerLiteral _, _, _
  | .booleanLiteral _, _, _ | .parentheses _, _, _ | .methodCall _ _, _, _ => trivial

/-! ## Sequences of operands -/

/-- The tree over its operands. -/
def toTree : ExpressionTree → OperatorTree Connective ExpressionTree
  | .binaryOperation l r op => .node (.binary op) l.toTree r.toTree
  | .comparison l r op => .node (.comparison op) l.toTree r.toTree
  | e => .operand e

def ofTree : OperatorTree Connective ExpressionTree → ExpressionTree
  | .operand e => e
  | .node op l r => op.apply (ofTree l) (ofTree r)

/-- An operand and what follows it, the tree that the parser builds of them. -/
def assemble (x : ExpressionTree × List (Connective × ExpressionTree)) : ExpressionTree :=
  ofTree (.build Connective.Reduces x.1 x.2)

/-- The tokens of the operators, each with the operand after it. -/
def restTokens (s : List (Connective × ExpressionTree)) : List Token :=
  s.flatMap fun x => x.1.token :: x.2.tokens

/-- All operands are as the parser builds them. -/
def OperandsResolved (x : ExpressionTree × List (Connective × ExpressionTree)) : Prop :=
  (x.1.IsOperand ∧ x.1.Resolved) ∧ ∀ y ∈ x.2, y.2.IsOperand ∧ y.2.Resolved

theorem ofTree_toTree (e : ExpressionTree) : ofTree e.toTree = e := by
  induction e using ExpressionTree.toTree.induct with
  | case1 l r op ihl ihr =>
    rw [toTree, ofTree, ihl, ihr]
    rfl
  | case2 l r op ihl ihr =>
    rw [toTree, ofTree, ihl, ihr]
    rfl
  | case3 e hbinary hcomparison =>
    rw [toTree]
    · rfl
    · exact hbinary
    · exact hcomparison

theorem tokens_ofTree (t : OperatorTree Connective ExpressionTree) :
    (ofTree t).tokens = t.first.tokens ++ restTokens t.rest := by
  induction t with
  | operand e => exact (List.append_nil _).symm
  | node op l r ihl ihr =>
    simp only [ofTree, Connective.tokens_apply, ihl, ihr, OperatorTree.first, OperatorTree.rest,
      restTokens, List.flatMap_append, List.flatMap_cons, List.append_assoc, List.cons_append]

theorem tokens_assemble (x : ExpressionTree × List (Connective × ExpressionTree)) :
    (assemble x).tokens = x.1.tokens ++ restTokens x.2 := by
  rw [assemble, tokens_ofTree, OperatorTree.first_build, OperatorTree.rest_build]

variable {t : OperatorTree Connective ExpressionTree}

theorem operandsResolved_node {op : Connective} {l r : OperatorTree Connective ExpressionTree} :
    OperandsResolved ((OperatorTree.node op l r).first, (OperatorTree.node op l r).rest) ↔
      OperandsResolved (l.first, l.rest) ∧ OperandsResolved (r.first, r.rest) := by
  simp only [OperandsResolved, OperatorTree.first, OperatorTree.rest, List.forall_mem_append,
    List.forall_mem_cons, and_assoc]

theorem leftSpine_ofTree (h : OperandsResolved (t.first, t.rest)) :
    (ofTree t).leftSpine = t.leftSpine.map Connective.operator := by
  induction t with
  | operand e => exact h.1.1.leftSpine
  | node op l r ihl _ =>
    rw [ofTree, Connective.leftSpine_apply, ihl (operandsResolved_node.1 h).1]
    rfl

/-- An operator reduces what a sequence ends in if it reduces the productions between the
operands. -/
theorem endsBefore_ofTree (h : OperandsResolved (t.first, t.rest)) {op : Connective}
    (ht : ∀ p ∈ t.rightSpine, p.Reduces op) : (ofTree t).EndsBefore op.operator := by
  induction t with
  | operand e => exact h.1.1.endsBefore op
  | node p l r _ ihr =>
    obtain ⟨hp, hr⟩ := List.forall_mem_cons.1 ht
    rw [EndsBefore, ofTree, Connective.rightSpine_apply]
    exact List.forall_mem_cons.2 ⟨hp, ihr (operandsResolved_node.1 h).2 hr⟩

theorem resolved_ofTree (h : OperandsResolved (t.first, t.rest))
    (ht : t.Resolved Connective.Reduces) : (ofTree t).Resolved := by
  induction t with
  | operand e => exact h.1.2
  | node op l r ihl ihr =>
    obtain ⟨hl, hr⟩ := operandsResolved_node.1 h
    obtain ⟨hends, hgoes, htl, htr⟩ := ht
    refine Connective.resolved_apply.2 ⟨endsBefore_ofTree hl hends, ?_, ihl hl htl, ihr hr htr⟩
    rw [GoesOn, leftSpine_ofTree hr]
    exact List.forall_mem_map.2 hgoes

theorem resolved_assemble {x : ExpressionTree × List (Connective × ExpressionTree)}
    (h : OperandsResolved x) : (assemble x).Resolved := by
  refine resolved_ofTree ?_ OperatorTree.resolved_build
  rwa [OperatorTree.first_build, OperatorTree.rest_build]

/-- A resolved tree, over its operands. -/
theorem Resolved.toTree {e : ExpressionTree} (h : e.Resolved) :
    e.toTree.Resolved Connective.Reduces ∧ OperandsResolved (e.toTree.first, e.toTree.rest) := by
  have hright : ∀ e : ExpressionTree, ∀ p ∈ e.toTree.rightSpine, p.operator ∈ e.rightSpine := by
    intro e
    induction e using ExpressionTree.toTree.induct with
    | case1 l r op _ ihr | case2 l r op _ ihr =>
      refine List.forall_mem_cons.2 ⟨List.mem_cons_self, fun p hp => ?_⟩
      exact List.mem_cons_of_mem _ (ihr p hp)
    | case3 e hbinary hcomparison =>
      rw [ExpressionTree.toTree]
      · exact fun p hp => absurd hp List.not_mem_nil
      · exact hbinary
      · exact hcomparison
  have hleft : ∀ e : ExpressionTree, ∀ o ∈ e.toTree.leftSpine, o.operator ∈ e.leftSpine := by
    intro e
    induction e using ExpressionTree.toTree.induct with
    | case1 l r op ihl _ | case2 l r op ihl _ =>
      refine List.forall_mem_cons.2 ⟨List.mem_cons_self, fun o ho => ?_⟩
      exact List.mem_cons_of_mem _ (ihl o ho)
    | case3 e hbinary hcomparison =>
      rw [ExpressionTree.toTree]
      · exact fun o ho => absurd ho List.not_mem_nil
      · exact hbinary
      · exact hcomparison
  induction e using ExpressionTree.toTree.induct with
  | case1 l r op ihl ihr | case2 l r op ihl ihr =>
    obtain ⟨hends, hgoes, hl, hr⟩ := h
    obtain ⟨htl, hol⟩ := ihl hl
    obtain ⟨htr, hor⟩ := ihr hr
    refine ⟨⟨fun p hp => hends _ (hright l p hp), fun o ho => hgoes _ (hleft r o ho), htl, htr⟩, ?_⟩
    exact operandsResolved_node.2 ⟨hol, hor⟩
  | case3 e hbinary hcomparison =>
    have hnil : e.leftSpine = [] := by
      rw [ExpressionTree.leftSpine]
      · exact hbinary
      · exact hcomparison
    rw [ExpressionTree.toTree]
    · exact ⟨trivial, ⟨h.isOperand hnil, h⟩, fun y hy => absurd hy List.not_mem_nil⟩
    · exact hbinary
    · exact hcomparison

/-- A resolved tree is what the parser builds of its operands. -/
theorem Resolved.assemble_eq {e : ExpressionTree} (h : e.Resolved) :
    assemble (e.toTree.first, e.toTree.rest) = e := by
  rw [assemble, h.toTree.1.build_eq, ofTree_toTree]

/-! ## The derivation that the parser builds -/

mutual

/-- The operands of an expression with the operators between them. A prefix operator belongs to the
first operand of what it is applied to. -/
def operands : ExpressionTree → ExpressionTree × List (Connective × ExpressionTree)
  | .binaryOperation l r op =>
    (l.operands.1, l.operands.2 ++ (.binary op, r.operands.1) :: r.operands.2)
  | .comparison l r op =>
    (l.operands.1, l.operands.2 ++ (.comparison op, r.operands.1) :: r.operands.2)
  | .minus e => (.minus e.operands.1, e.operands.2)
  | .plus e => (.plus e.operands.1, e.operands.2)
  | .not e => (.not e.operands.1, e.operands.2)
  | .parentheses e => (.parentheses (assemble e.operands), [])
  | .methodCall m args => (.methodCall m (resolveArguments args), [])
  | .varRef v => (.varRef v, [])
  | .stringLiteral v => (.stringLiteral v, [])
  | .doubleLiteral v => (.doubleLiteral v, [])
  | .integerLiteral v => (.integerLiteral v, [])
  | .booleanLiteral v => (.booleanLiteral v, [])

def resolveArguments : ArgumentsTree → ArgumentsTree
  | .one e => .one (assemble e.operands)
  | .snoc other e => .snoc (resolveArguments other) (assemble e.operands)

end

def resolve (e : ExpressionTree) : ExpressionTree := assemble e.operands

mutual

theorem tokens_operands : ∀ e : ExpressionTree,
    e.operands.1.tokens ++ restTokens e.operands.2 = e.tokens
  | .binaryOperation l r op | .comparison l r op => by
    have hl := tokens_operands l
    have hr := tokens_operands r
    simp only [restTokens] at hl hr
    simp only [operands, restTokens, tokens, List.flatMap_append, List.flatMap_cons, ← hl, ← hr,
      List.append_assoc, List.cons_append]
    rfl
  | .minus e | .plus e | .not e => by
    simp only [operands, tokens, List.cons_append, tokens_operands e]
  | .parentheses e => by
    simp only [operands, tokens, restTokens, List.flatMap_nil, List.append_nil, tokens_assemble]
    rw [← tokens_operands e]
    rfl
  | .methodCall m args => by
    simp only [operands, tokens, restTokens, List.flatMap_nil, List.append_nil,
      tokens_resolveArguments args]
  | .varRef _ | .stringLiteral _ | .doubleLiteral _ | .integerLiteral _ | .booleanLiteral _ =>
    List.append_nil _

theorem tokens_resolveArguments : ∀ args : ArgumentsTree,
    (resolveArguments args).tokens = args.tokens
  | .one e => (tokens_assemble _).trans (tokens_operands e)
  | .snoc other e => by
    rw [resolveArguments, ArgumentsTree.tokens, tokens_resolveArguments other, tokens_assemble,
      tokens_operands e]
    rfl

end

mutual

theorem operandsResolved : ∀ e : ExpressionTree, OperandsResolved e.operands
  | .binaryOperation l r _ | .comparison l r _ => by
    obtain ⟨hl, hl'⟩ := operandsResolved l
    exact ⟨hl, List.forall_mem_append.2 ⟨hl', List.forall_mem_cons.2 (operandsResolved r)⟩⟩
  | .minus e | .plus e | .not e => by
    obtain ⟨⟨hoperand, he⟩, hrest⟩ := operandsResolved e
    exact ⟨⟨hoperand, hoperand.goesOn _, he⟩, hrest⟩
  | .parentheses e =>
    ⟨⟨trivial, resolved_assemble (operandsResolved e)⟩, fun _ h => absurd h List.not_mem_nil⟩
  | .methodCall _ args =>
    ⟨⟨trivial, resolved_resolveArguments args⟩, fun _ h => absurd h List.not_mem_nil⟩
  | .varRef _ | .stringLiteral _ | .doubleLiteral _ | .integerLiteral _ | .booleanLiteral _ =>
    ⟨⟨trivial, trivial⟩, fun _ h => absurd h List.not_mem_nil⟩

theorem resolved_resolveArguments : ∀ args : ArgumentsTree,
    ArgumentsResolved (resolveArguments args)
  | .one e => resolved_assemble (operandsResolved e)
  | .snoc other e => ⟨resolved_resolveArguments other, resolved_assemble (operandsResolved e)⟩

end

@[simp] theorem tokens_resolve (e : ExpressionTree) : e.resolve.tokens = e.tokens :=
  (tokens_assemble _).trans (tokens_operands e)

theorem resolved_resolve (e : ExpressionTree) : e.resolve.Resolved :=
  resolved_assemble (operandsResolved e)

end ExpressionTree

def MappingTree.resolve : MappingTree → MappingTree
  | .identifier val => .identifier val
  | .assign key val => .assign key val.resolve
  | .snocIdentifier mapping val => .snocIdentifier mapping.resolve val
  | .snocAssign mapping key val => .snocAssign mapping.resolve key val.resolve

def IncludeBlockTree.resolve : IncludeBlockTree → IncludeBlockTree
  | .plain name => .plain name
  | .usingScope name scope => .usingScope name scope.resolve
  | .withMapping name mapping => .withMapping name mapping.resolve

/-- Raw text and the raw text after it. -/
def RawBlocksTree.append (blocks : RawBlocksTree) : RawBlocksTree → RawBlocksTree
  | .one text => .snoc blocks text
  | .snoc blocks' text => .snoc (blocks.append blocks') text

/-- A statement more, to which raw text before it belongs if it is raw text. -/
def StatementsTree.add : StatementsTree → StatementTree → StatementsTree
  | .one (.rawBlocks blocks), .rawBlocks blocks' => .one (.rawBlocks (blocks.append blocks'))
  | .snoc l (.rawBlocks blocks), .rawBlocks blocks' =>
    .snoc l (.rawBlocks (blocks.append blocks'))
  | l, s => .snoc l s

mutual

def StatementTree.resolve : StatementTree → StatementTree
  | .rawBlocks blocks => .rawBlocks blocks
  | .printBlock e => .printBlock e.resolve
  | .ifBlock cond then_body elif_blocks else_body =>
    .ifBlock cond.resolve then_body.resolve elif_blocks.resolve else_body.resolve
  | .forStatement key value iterable body elseBody =>
    .forStatement key value iterable body.resolve elseBody.resolve
  | .includeBlock block => .includeBlock block.resolve

def StatementsTree.resolve : StatementsTree → StatementsTree
  | .one s => .one s.resolve
  | .snoc l s => l.resolve.add s.resolve

def ElseifBlocksTree.resolve : ElseifBlocksTree → ElseifBlocksTree
  | .empty => .empty
  | .snoc prev_elif cond body => .snoc prev_elif.resolve cond.resolve body.resolve

def ElseBlockTree.resolve : ElseBlockTree → ElseBlockTree
  | .empty => .empty
  | .body body => .body body.resolve

end

def RootTree.resolve : RootTree → RootTree
  | .empty => .empty
  | .statements l => .statements l.resolve

/-! ### It has the same tokens -/

theorem MappingTree.tokens_resolve (mapping : MappingTree) :
    mapping.resolve.tokens = mapping.tokens := by
  induction mapping with
  | identifier val => rfl
  | assign key val => simp only [resolve, tokens, ExpressionTree.tokens_resolve]
  | snocIdentifier mapping val ih => rw [resolve, tokens, ih, tokens]
  | snocAssign mapping key val ih =>
    simp only [resolve, tokens, ih, ExpressionTree.tokens_resolve]

theorem IncludeBlockTree.tokens_resolve (block : IncludeBlockTree) :
    block.resolve.tokens = block.tokens := by
  cases block with
  | plain name => rfl
  | usingScope name scope => simp only [resolve, tokens, ExpressionTree.tokens_resolve]
  | withMapping name mapping => simp only [resolve, tokens, mapping.tokens_resolve]

theorem RawBlocksTree.tokens_append (blocks blocks' : RawBlocksTree) :
    (blocks.append blocks').tokens = blocks.tokens ++ blocks'.tokens := by
  induction blocks' with
  | one text => rfl
  | snoc blocks' text ih => rw [append, tokens, ih, tokens, List.append_assoc]

theorem StatementsTree.tokens_add (l : StatementsTree) (s : StatementTree) :
    (l.add s).tokens = l.tokens ++ s.tokens := by
  fun_cases StatementsTree.add l s with
  | case1 blocks blocks' => exact blocks.tokens_append blocks'
  | case2 l blocks blocks' =>
    show l.tokens ++ (blocks.append blocks').tokens = _
    rw [blocks.tokens_append, ← List.append_assoc]
    rfl
  | case3 => rfl

mutual

theorem StatementTree.tokens_resolve : ∀ s : StatementTree, s.resolve.tokens = s.tokens
  | .rawBlocks _ => rfl
  | .printBlock e => by
    rw [StatementTree.resolve, StatementTree.tokens, e.tokens_resolve, StatementTree.tokens]
  | .ifBlock cond then_body elif_blocks else_body => by
    rw [StatementTree.resolve, StatementTree.tokens, cond.tokens_resolve,
      then_body.tokens_resolve, elif_blocks.tokens_resolve, else_body.tokens_resolve,
      StatementTree.tokens]
  | .forStatement key value iterable body elseBody => by
    rw [StatementTree.resolve, StatementTree.tokens, body.tokens_resolve, elseBody.tokens_resolve,
      StatementTree.tokens]
  | .includeBlock block => block.tokens_resolve

theorem StatementsTree.tokens_resolve : ∀ l : StatementsTree, l.resolve.tokens = l.tokens
  | .one s => s.tokens_resolve
  | .snoc l s => by
    rw [StatementsTree.resolve, StatementsTree.tokens_add, l.tokens_resolve, s.tokens_resolve]
    rfl

theorem ElseifBlocksTree.tokens_resolve : ∀ t : ElseifBlocksTree, t.resolve.tokens = t.tokens
  | .empty => rfl
  | .snoc prev_elif cond body => by
    rw [ElseifBlocksTree.resolve, ElseifBlocksTree.tokens, prev_elif.tokens_resolve,
      cond.tokens_resolve, body.tokens_resolve, ElseifBlocksTree.tokens]

theorem ElseBlockTree.tokens_resolve : ∀ t : ElseBlockTree, t.resolve.tokens = t.tokens
  | .empty => rfl
  | .body body => by
    rw [ElseBlockTree.resolve, ElseBlockTree.tokens, body.tokens_resolve, ElseBlockTree.tokens]

end

theorem RootTree.tokens_resolve (root : RootTree) : root.resolve.tokens = root.tokens := by
  cases root with
  | empty => rfl
  | statements l => exact l.tokens_resolve

/-! ### The parser builds it -/

theorem MappingTree.resolved_resolve (mapping : MappingTree) : mapping.resolve.Resolved := by
  induction mapping with
  | identifier val => trivial
  | assign key val => exact val.resolved_resolve
  | snocIdentifier mapping val ih => exact ih
  | snocAssign mapping key val ih => exact ⟨ih, val.resolved_resolve⟩

theorem IncludeBlockTree.resolved_resolve (block : IncludeBlockTree) : block.resolve.Resolved := by
  cases block with
  | plain name => trivial
  | usingScope name scope => exact scope.resolved_resolve
  | withMapping name mapping => exact mapping.resolved_resolve

theorem StatementsTree.resolved_add {l : StatementsTree} {s : StatementTree} (hl : l.Resolved)
    (hs : s.Resolved) : (l.add s).Resolved := by
  fun_cases StatementsTree.add l s with
  | case1 => trivial
  | case2 l blocks blocks' => exact ⟨hl.1, hl.2.1, trivial⟩
  | case3 l s hone hsnoc =>
    refine ⟨?_, hl, hs⟩
    rintro ⟨hlast, hraw⟩
    cases s with
    | rawBlocks blocks' =>
      cases l with
      | one s =>
        cases s with
        | rawBlocks blocks => exact hone blocks blocks' rfl rfl
        | _ => exact hlast.elim
      | snoc l s =>
        cases s with
        | rawBlocks blocks => exact hsnoc l blocks blocks' rfl rfl
        | _ => exact hlast.elim
    | _ => exact hraw.elim

mutual

theorem StatementTree.resolved_resolve : ∀ s : StatementTree, s.resolve.Resolved
  | .rawBlocks _ => trivial
  | .printBlock e => e.resolved_resolve
  | .ifBlock cond then_body elif_blocks else_body =>
    ⟨cond.resolved_resolve, then_body.resolved_resolve, elif_blocks.resolved_resolve,
      else_body.resolved_resolve⟩
  | .forStatement _ _ _ body elseBody => ⟨body.resolved_resolve, elseBody.resolved_resolve⟩
  | .includeBlock block => block.resolved_resolve

theorem StatementsTree.resolved_resolve : ∀ l : StatementsTree, l.resolve.Resolved
  | .one s => s.resolved_resolve
  | .snoc l s => StatementsTree.resolved_add l.resolved_resolve s.resolved_resolve

theorem ElseifBlocksTree.resolved_resolve : ∀ t : ElseifBlocksTree, t.resolve.Resolved
  | .empty => trivial
  | .snoc prev_elif cond body =>
    ⟨prev_elif.resolved_resolve, cond.resolved_resolve, body.resolved_resolve⟩

theorem ElseBlockTree.resolved_resolve : ∀ t : ElseBlockTree, t.resolve.Resolved
  | .empty => trivial
  | .body body => body.resolved_resolve

end

theorem RootTree.resolved_resolve (root : RootTree) : root.resolve.Resolved := by
  cases root with
  | empty => trivial
  | statements l => exact l.resolved_resolve

end B2
