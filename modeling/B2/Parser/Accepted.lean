import B2.Ast.Substitution
import B2.Parser.Grammar
import B2.Passes.Everywhere

/-!
# Accepted trees

What holds of the expressions and the include blocks that the actions build
holds everywhere in the trees the parser returns (`RootTree.action_everywhere`).
-/

namespace B2

section

variable {line : Nat} {P Q : Expression → Prop}
  {I : Text → Option Expression → StringExpressionMap → Prop}

theorem resetElseBody_everywhere {body : Option AST} {node a : AST}
    (hbody : ∀ b, body = some b → b.Everywhere P Q I) (hnode : node.Everywhere P Q I)
    (h : resetElseBody body node = .ok a) : a.Everywhere P Q I := by
  cases node <;> simp only [resetElseBody, Except.ok.injEq, reduceCtorEq] at h
  case ifBlock c t e =>
    subst h
    have hct : P c ∧ t.Everywhere P Q I := by
      cases e with
      | none => exact hnode
      | some e => exact ⟨hnode.1, hnode.2.1⟩
    cases body with
    | none => exact hct
    | some b => exact ⟨hct.1, hct.2, hbody b rfl⟩

theorem resetLastElseBody_everywhere {body : Option AST}
    (hbody : ∀ b, body = some b → b.Everywhere P Q I) (node : AST) : ∀ a, node.Everywhere P Q I →
      resetLastElseBody body node = .ok a → a.Everywhere P Q I := by
  induction node with
  | ifBlock c t e _ ihe =>
    intro a hnode h
    cases e with
    | none =>
      cases h
      exact resetElseBody_everywhere hbody hnode rfl
    | some e =>
      simp only [resetLastElseBody, bind_eq_ok, pure_eq_ok] at h
      obtain ⟨e', he, rfl⟩ := h
      exact ⟨hnode.1, hnode.2.1, ihe e rfl e' hnode.2.2 he⟩
  | _ => intro a _ h; simp [resetLastElseBody] at h

theorem elseifBlocksAction_everywhere {prev : Option AST} {elif a : AST}
    (hprev : ∀ b, prev = some b → b.Everywhere P Q I) (helif : elif.Everywhere P Q I)
    (h : elseifBlocksAction prev elif = .ok a) : a.Everywhere P Q I := by
  cases prev with
  | none => cases h; exact helif
  | some prev => exact resetElseBody_everywhere (by rintro _ ⟨⟩; exact helif) (hprev prev rfl) h

theorem ifBlockAction_everywhere {c : Expression} {t a : AST} {elifs e : Option AST}
    (hc : P c) (ht : t.Everywhere P Q I) (helifs : ∀ b, elifs = some b → b.Everywhere P Q I)
    (he : ∀ b, e = some b → b.Everywhere P Q I) (h : ifBlockAction c t elifs e = .ok a) :
    a.Everywhere P Q I := by
  cases elifs with
  | none =>
    cases h
    cases e with
    | none => exact ⟨hc, ht⟩
    | some e => exact ⟨hc, ht, he e rfl⟩
  | some elifs =>
    simp only [ifBlockAction, bind_eq_ok, pure_eq_ok] at h
    obtain ⟨b, hb, rfl⟩ := h
    exact ⟨hc, ht, resetLastElseBody_everywhere he elifs b (helifs elifs rfl) hb⟩

theorem RawBlocksTree.action_everywhere : ∀ t : RawBlocksTree,
    AST.EverywhereList P Q I t.action
  | .one text => by simp [action, AST.EverywhereList, AST.Everywhere]
  | .snoc blocks text => by
    rw [action, AST.everywhereList_append]
    exact ⟨action_everywhere blocks, by simp [AST.EverywhereList, AST.Everywhere]⟩

variable (hP : ∀ (t : ExpressionTree) (e : Expression), t.action line = .ok e → P e)
  (hQ : ∀ v : VarRefTree, P v.action ∧ Q v.action)
  (hI : ∀ (t : IncludeBlockTree) (a : AST), t.action line = .ok a → a.Everywhere P Q I)

include hP hQ hI

mutual

theorem StatementTree.action_everywhere : ∀ (t : StatementTree) (a : AST),
    t.action line = .ok a → a.Everywhere P Q I
  | .rawBlocks blocks, a, h => by
    cases h
    exact AST.everywhere_fromStatementsArray.2 blocks.action_everywhere
  | .printBlock t, a, h => by
    simp only [StatementTree.action, bind_eq_ok, pure_eq_ok] at h
    obtain ⟨e, he, rfl⟩ := h
    exact hP t e he
  | .includeBlock block, a, h => hI block a h
  | .forStatement key value iterable body elseBody, a, h => by
    simp only [StatementTree.action, bind_eq_ok, pure_eq_ok] at h
    obtain ⟨b, hb, e, he, k, -, v, -, rfl⟩ := h
    have hi := hQ iterable
    have hb := AST.everywhere_fromStatementsArray.2 (body.action_everywhere b hb)
    cases e with
    | none => exact ⟨hi.1, hi.2, hb⟩
    | some e => exact ⟨hi.1, hi.2, hb, elseBody.action_everywhere (some e) he e rfl⟩
  | .ifBlock cond then_body elif_blocks else_body, a, h => by
    simp only [StatementTree.action, bind_eq_ok] at h
    obtain ⟨c, hc, t, ht, elifs, helifs, e, he, h⟩ := h
    refine ifBlockAction_everywhere (hP cond c hc) ?_
      (elif_blocks.action_everywhere elifs helifs) (else_body.action_everywhere e he) h
    exact AST.everywhere_fromStatementsArray.2 (then_body.action_everywhere t ht)

theorem StatementsTree.action_everywhere : ∀ (t : StatementsTree) (l : List AST),
    t.action line = .ok l → AST.EverywhereList P Q I l
  | .one s, l, h => by
    simp only [StatementsTree.action, bind_eq_ok, pure_eq_ok] at h
    obtain ⟨a, ha, rfl⟩ := h
    exact AST.everywhere_asStatements.2 (s.action_everywhere a ha)
  | .snoc t s, l, h => by
    simp only [StatementsTree.action, bind_eq_ok, pure_eq_ok] at h
    obtain ⟨l', hl, a, ha, rfl⟩ := h
    exact AST.everywhereList_append.2
      ⟨t.action_everywhere l' hl, AST.everywhere_asStatements.2 (s.action_everywhere a ha)⟩

theorem ElseifBlocksTree.action_everywhere : ∀ (t : ElseifBlocksTree) (e : Option AST),
    t.action line = .ok e → ∀ a, e = some a → a.Everywhere P Q I
  | .empty, e, h => by
    cases h
    nofun
  | .snoc prev_elif cond body, e, h => by
    simp only [ElseifBlocksTree.action, bind_eq_ok, pure_eq_ok] at h
    obtain ⟨prev, hprev, c, hc, b, hb, a, ha, rfl⟩ := h
    rintro _ ⟨⟩
    refine elseifBlocksAction_everywhere (prev_elif.action_everywhere prev hprev) ?_ ha
    exact ⟨hP cond c hc,
      AST.everywhere_fromStatementsArray.2 (body.action_everywhere b hb)⟩

theorem ElseBlockTree.action_everywhere : ∀ (t : ElseBlockTree) (e : Option AST),
    t.action line = .ok e → ∀ a, e = some a → a.Everywhere P Q I
  | .empty, e, h => by
    cases h
    nofun
  | .body body, e, h => by
    simp only [ElseBlockTree.action, bind_eq_ok, pure_eq_ok] at h
    obtain ⟨l, hl, rfl⟩ := h
    rintro _ ⟨⟩
    exact AST.everywhere_fromStatementsArray.2 (body.action_everywhere l hl)

end

/-- A property of every tree the parser returns, from the expressions and include blocks it
builds. -/
theorem RootTree.action_everywhere {t : RootTree} {a : AST} (h : t.action line = .ok a) :
    a.Everywhere P Q I := by
  cases t with
  | empty =>
    cases h
    simp [AST.Everywhere, AST.EverywhereList]
  | statements l =>
    simp only [action, bind_eq_ok, pure_eq_ok] at h
    obtain ⟨l', hl, rfl⟩ := h
    exact AST.everywhere_fromStatementsArray.2 (l.action_everywhere hP hQ hI l' hl)

end

/-! ## Arguments -/

section

variable {line : Nat}

theorem VarRefTree.action_proper : ∀ t : VarRefTree, t.action.Proper
  | .identifier _ => trivial
  | .getAttribute v _ => action_proper v

mutual

theorem ExpressionTree.action_proper : ∀ (t : ExpressionTree) (e : Expression),
    t.action line = .ok e → e.Proper
  | .varRef v, e, h => by
    cases h
    exact v.action_proper
  | .stringLiteral _, e, h | .doubleLiteral _, e, h | .integerLiteral _, e, h
  | .booleanLiteral _, e, h => by
    cases h
    trivial
  | .minus t, e, h | .plus t, e, h | .not t, e, h => by
    simp only [ExpressionTree.action, bind_eq_ok, pure_eq_ok] at h
    obtain ⟨s, hs, -, -, rfl⟩ := h
    exact t.action_proper s hs
  | .binaryOperation l r op, e, h | .comparison l r op, e, h => by
    simp only [ExpressionTree.action, bind_eq_ok, pure_eq_ok] at h
    obtain ⟨left, hl, right, hr, -, -, -, -, rfl⟩ := h
    exact ⟨l.action_proper left hl, r.action_proper right hr⟩
  | .parentheses t, e, h => t.action_proper e h
  | .methodCall m args, e, h => by
    simp only [ExpressionTree.action, bind_eq_ok, pure_eq_ok] at h
    obtain ⟨l, hl, rfl⟩ := h
    exact Expr.properArguments_iff.2 ⟨l, rfl, args.action_proper l hl⟩

theorem ArgumentsTree.action_proper : ∀ (t : ArgumentsTree) (l : List Expression),
    t.action line = .ok l → ∀ e ∈ l, e.Proper
  | .one t, l, h => by
    simp only [ArgumentsTree.action, bind_eq_ok, pure_eq_ok] at h
    obtain ⟨e, he, rfl⟩ := h
    simpa using t.action_proper e he
  | .snoc other t, l, h => by
    simp only [ArgumentsTree.action, bind_eq_ok, pure_eq_ok] at h
    obtain ⟨l', hl, e, he, rfl⟩ := h
    simpa [or_imp, forall_and] using ⟨other.action_proper l' hl, t.action_proper e he⟩

end

/-- No method call outside the include blocks of a returned tree has a null argument. -/
theorem RootTree.action_proper {t : RootTree} {a : AST} (h : t.action line = .ok a) : a.Proper := by
  refine RootTree.action_everywhere ExpressionTree.action_proper
    (fun v => ⟨v.action_proper, trivial⟩) (fun t a h => ?_) h
  cases t with
  | plain name => cases h; trivial
  | usingScope name t =>
    simp only [IncludeBlockTree.action, bind_eq_ok, pure_eq_ok] at h
    obtain ⟨_, _, _, _, rfl⟩ := h
    trivial
  | withMapping name mapping =>
    simp only [IncludeBlockTree.action, bind_eq_ok, pure_eq_ok] at h
    obtain ⟨_, _, rfl⟩ := h
    trivial

end

end B2
