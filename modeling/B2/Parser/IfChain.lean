import B2.Parser.Grammar

/-!
# Chains of `else if`

An if block with `else if` branches stands for the right-nested chain of if
blocks that tries the branches in source order (`elseChain`). The action of
`elseif_blocks` puts every further branch in the `elseBody` of the first one,
where it takes the place of the branch before it, so the parser's chain holds
the first and the last branch only (`ifBlock_action`).
-/

namespace B2

/-- The nodes for a list of branches, the body of the last `else` at the end. -/
def elseChain : List (Expression × AST) → Option AST → Option AST
  | [], else_body => else_body
  | (c, b) :: branches, else_body => some (.ifBlock c b (elseChain branches else_body))

section

variable [WrongCast]

/-- The conditions and bodies of the `else if` branches, in source order. -/
def ElseifBlocksTree.branches (line : Nat) : ElseifBlocksTree → Run (List (Expression × AST))
  | .empty => .ok []
  | .snoc prev_elif cond body => do
    let branches ← prev_elif.branches line
    let c ← cond.action line
    let b ← body.action line
    return branches ++ [(c, .fromStatementsArray b)]

end

/-- The branches that the `elseif_blocks` action keeps. -/
def firstAndLast {α : Type} : List α → List α
  | [] => []
  | [a] => [a]
  | a :: b :: l => [a, (b :: l).getLast (List.cons_ne_nil _ _)]

theorem firstAndLast_concat {α : Type} (l : List α) (a : α) :
    firstAndLast (l ++ [a]) = match firstAndLast l with
      | [] => [a]
      | b :: _ => [b, a] := by
  match l with
  | [] => rfl
  | [b] => rfl
  | b :: c :: l => simp [firstAndLast]

theorem firstAndLast_eq_self {α : Type} {l : List α} (h : l.length ≤ 2) : firstAndLast l = l := by
  match l with
  | [] => rfl
  | [a] => rfl
  | [a, b] => rfl

/-! ## The actions -/

section

variable [WrongCast]

/-- The chain built by the left recursion has the first and the last branch. -/
theorem ElseifBlocksTree.action_eq {line : Nat} : ∀ {t : ElseifBlocksTree}
    {bs : List (Expression × AST)}, t.branches line = .ok bs →
      t.action line = .ok (elseChain (firstAndLast bs) none)
  | .empty, bs, h => by
    cases h
    rfl
  | .snoc prev cond body, bs, h => by
    simp only [branches, bind_eq_ok, pure_eq_ok] at h
    obtain ⟨bs', hprev, c, hc, b, hb, rfl⟩ := h
    have ih := action_eq hprev
    simp only [action, ih, hc, hb, firstAndLast_concat]
    cases firstAndLast bs' <;> rfl

/-- What the action of `elseif_blocks` builds, and where it fails. -/
theorem ElseifBlocksTree.action_map {line : Nat} : ∀ t : ElseifBlocksTree,
    t.action line = (t.branches line).map fun bs => elseChain (firstAndLast bs) none
  | .empty => rfl
  | .snoc prev_elif cond body => by
    rw [action, branches, action_map prev_elif]
    cases prev_elif.branches line with
    | error f => rfl
    | ok bs =>
      cases cond.action line with
      | error f => rfl
      | ok c =>
        cases hb : body.action line with
        | error f =>
          simp only [Except.map, bind, Except.bind]
        | ok b =>
          simp only [Except.map, bind, Except.bind, pure, Except.pure, firstAndLast_concat]
          cases firstAndLast bs <;> rfl

omit [WrongCast] in
/-- The pointer walk of `if_block` reaches the last node of a chain. -/
theorem resetLastElseBody_elseChain (body : Option AST) :
    ∀ (branches : List (Expression × AST)) (c : Expression) (b : AST),
      resetLastElseBody body (.ifBlock c b (elseChain branches none)) =
        .ok (.ifBlock c b (elseChain branches body))
  | [], c, b => rfl
  | (c', b') :: branches, c, b => by
    simp only [elseChain, resetLastElseBody, resetLastElseBody_elseChain body branches c' b']
    rfl

omit [WrongCast] in
theorem ifBlockAction_elseChain (c : Expression) (t : AST) (branches : List (Expression × AST))
    (else_body : Option AST) :
    ifBlockAction c t (elseChain branches none) else_body =
      .ok (.ifBlock c t (elseChain branches else_body)) := by
  cases branches with
  | nil => rfl
  | cons branch branches =>
    simp only [elseChain, ifBlockAction, resetLastElseBody_elseChain]
    rfl

/-- What the action of `if_block` builds, and where it fails. -/
theorem ifBlock_action_branches {line : Nat} (cond : ExpressionTree) (then_body : StatementsTree)
    (elif_blocks : ElseifBlocksTree) (else_body : ElseBlockTree) :
    (StatementTree.ifBlock cond then_body elif_blocks else_body).action line = (do
      let c ← cond.action line
      let t ← then_body.action line
      let bs ← elif_blocks.branches line
      let e ← else_body.action line
      return .ifBlock c (.fromStatementsArray t) (elseChain (firstAndLast bs) e)) := by
  rw [StatementTree.action, ElseifBlocksTree.action_map]
  cases cond.action line with
  | error f => rfl
  | ok c =>
    cases then_body.action line with
    | error f => rfl
    | ok t =>
      cases elif_blocks.branches line with
      | error f => rfl
      | ok bs =>
        cases else_body.action line with
        | error f => rfl
        | ok e => exact ifBlockAction_elseChain _ _ _ _

/-- What the parser makes of an if block. -/
theorem ifBlock_action {line : Nat} {cond : ExpressionTree} {then_body : StatementsTree}
    {elif_blocks : ElseifBlocksTree} {else_body : ElseBlockTree} {c : Expression} {t : List AST}
    {bs : List (Expression × AST)} {e : Option AST} (hc : cond.action line = .ok c)
    (ht : then_body.action line = .ok t) (hbs : elif_blocks.branches line = .ok bs)
    (he : else_body.action line = .ok e) :
    (StatementTree.ifBlock cond then_body elif_blocks else_body).action line =
      .ok (.ifBlock c (.fromStatementsArray t) (elseChain (firstAndLast bs) e)) := by
  simp only [StatementTree.action, hc, ht, ElseifBlocksTree.action_eq hbs, he]
  exact ifBlockAction_elseChain _ _ _ _

end

/-! ## Chains are told apart -/

/-- A chain with a branch is a proper extension of what stands at its end. -/
theorem sizeOf_lt_elseChain (else_body : Option AST) :
    ∀ (branch : Expression × AST) (branches : List (Expression × AST)),
      sizeOf else_body < sizeOf (elseChain (branch :: branches) else_body)
  | (c, b), [] => by simp only [elseChain, Option.some.sizeOf_spec, AST.ifBlock.sizeOf_spec]; omega
  | (c, b), branch :: branches => by
    have ih := sizeOf_lt_elseChain else_body branch branches
    rw [elseChain]
    simp only [Option.some.sizeOf_spec, AST.ifBlock.sizeOf_spec]
    omega

theorem elseChain_inj {else_body : Option AST} : ∀ {l l' : List (Expression × AST)},
    elseChain l else_body = elseChain l' else_body → l = l'
  | [], [], _ => rfl
  | [], branch :: l, h => by
    have := sizeOf_lt_elseChain else_body branch l
    rw [← h, elseChain] at this
    omega
  | branch :: l, [], h => by
    have := sizeOf_lt_elseChain else_body branch l
    rw [h, elseChain] at this
    omega
  | (c, b) :: l, (c', b') :: l', h => by
    simp only [elseChain, Option.some.injEq, AST.ifBlock.injEq] at h
    obtain ⟨rfl, rfl, h⟩ := h
    rw [elseChain_inj h]

theorem firstAndLast_eq_self_iff {α : Type} {l : List α} : firstAndLast l = l ↔ l.length ≤ 2 := by
  refine ⟨fun h => ?_, firstAndLast_eq_self⟩
  rw [← h]
  match l with
  | [] => simp [firstAndLast]
  | [a] => simp [firstAndLast]
  | a :: b :: l => simp [firstAndLast]

/-- The parser builds the chain of all branches of an if block exactly when there are at
most two `else if` branches. -/
theorem ifBlock_action_eq_elseChain_iff {line : Nat} {cond : ExpressionTree}
    {then_body : StatementsTree} {elif_blocks : ElseifBlocksTree} {else_body : ElseBlockTree}
    {c : Expression} {t : List AST} {bs : List (Expression × AST)} {e : Option AST}
    (hc : cond.action line = .ok c) (ht : then_body.action line = .ok t)
    (hbs : elif_blocks.branches line = .ok bs) (he : else_body.action line = .ok e) :
    (StatementTree.ifBlock cond then_body elif_blocks else_body).action line =
        .ok (.ifBlock c (.fromStatementsArray t) (elseChain bs e)) ↔
      bs.length ≤ 2 := by
  rw [ifBlock_action hc ht hbs he, ← firstAndLast_eq_self_iff]
  simp only [Except.ok.injEq, AST.ifBlock.injEq, true_and]
  exact ⟨elseChain_inj, fun h => by rw [h]⟩

/-- The statements of a body that is one raw text. -/
def rawBody (text : String) : StatementsTree := .one (.rawBlocks (.one text.toList))

/-- Two `else if` branches with the bodies `b` and `c`, and an else body `d`. -/
theorem ifBlock_action_eq_elseChain_two :
    (StatementTree.ifBlock (.booleanLiteral false) (rawBody "a")
        (.snoc (.snoc .empty (.booleanLiteral false) (rawBody "b"))
          (.booleanLiteral true) (rawBody "c")) (.body (rawBody "d"))).action 1 =
      .ok (.ifBlock (.booleanLiteral false) (.fromStatementsArray [.rawBlock "a".toList])
        (elseChain [(.booleanLiteral false, .rawBlock "b".toList),
          (.booleanLiteral true, .rawBlock "c".toList)] (some (.rawBlock "d".toList)))) := by
  refine (ifBlock_action_eq_elseChain_iff rfl rfl rfl rfl).2 ?_
  exact Nat.le_refl 2

/-- With three `else if` branches the second one, `c`, is lost. -/
theorem ifBlock_action_ne_elseChain_three :
    (StatementTree.ifBlock (.booleanLiteral false) (rawBody "a")
        (.snoc (.snoc (.snoc .empty (.booleanLiteral false) (rawBody "b"))
          (.booleanLiteral true) (rawBody "c")) (.booleanLiteral false) (rawBody "d"))
        .empty).action 1 ≠
      .ok (.ifBlock (.booleanLiteral false) (.rawBlock "a".toList)
        (elseChain [(.booleanLiteral false, .rawBlock "b".toList),
          (.booleanLiteral true, .rawBlock "c".toList),
          (.booleanLiteral false, .rawBlock "d".toList)] none)) := by
  rw [ifBlock_action rfl rfl rfl rfl]
  intro h
  simp only [Except.ok.injEq, AST.ifBlock.injEq, true_and] at h
  have := congrArg List.length (elseChain_inj h.2)
  exact absurd this (by decide)

end B2
