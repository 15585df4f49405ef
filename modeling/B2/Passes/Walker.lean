import B2.Ast.Ast

/-!
# Pass classes

`ExpressionPass::process` and `ASTPass::process` of `pass.hpp`. A pass is its
`process_node`; the walker dispatches again on a node whose class it changed,
so the walkers recurse on results of their own and are bounded by the number
of nested calls. A call that needs more ends in `outOfFuel`.

A pass that only looks at variable references is the substitution
`Expr.substitute`, and a pass that only rewrites the expressions of a tree is
`AST.mapExpressions`; both are structural, and the walkers agree with them
from the height of the tree on (`ExpressionPass.process_eq_substitute`,
`ASTPass.process_eq_mapExpressions`).
-/

namespace B2

/-- The element a loop over a list of `std::unique_ptr<Expression>` dereferences. -/
def derefArgument (f : Expression → Run Expression) : Option Expression →
    Run (Option Expression)
  | none => .error (.undefined .nullPointer)
  | some e => do return some (← f e)

/-- An `ExpressionPass`. `processNode` gets the pass's own `process`. -/
structure ExpressionPass where
  processNode : (Expression → Run Expression) → Expression → Run Expression

namespace ExpressionPass

def process (p : ExpressionPass) : Nat → Expression → Run Expression
  | 0, _ => .error .outOfFuel
  | n + 1, e => do
    let new_expr ← p.processNode (p.process n) e
    match e with
    | .getAttribute .. =>
      match new_expr with
      | .getAttribute v a => do return .getAttribute (← p.process n v) a
      | _ => p.process n new_expr
    | .methodCall .. =>
      match new_expr with
      | .methodCall m args => do return .methodCall m (← args.mapM (derefArgument (p.process n)))
      | _ => p.process n new_expr
    | .binaryOperation .. =>
      match new_expr with
      | .binaryOperation l r op => do
        let l' ← p.process n l
        let r' ← p.process n r
        return .binaryOperation l' r' op
      | _ => p.process n new_expr
    | .unaryOperation .. =>
      match new_expr with
      | .unaryOperation s op => do return .unaryOperation (← p.process n s) op
      | _ => p.process n new_expr
    | .comparison .. =>
      match new_expr with
      | .comparison l r op => do
        let l' ← p.process n l
        let r' ← p.process n r
        return .comparison l' r' op
      | _ => p.process n new_expr
    | .variableReference _ | .doubleLiteral _ | .integerLiteral _ | .booleanLiteral _
    | .stringLiteral _ => return new_expr

/-- `process` on a whole tree, its height bounding the nested calls. -/
def run (p : ExpressionPass) (e : Expression) : Run Expression := p.process e.depth e

end ExpressionPass

/-- An `ASTPass`. -/
structure ASTPass where
  processNode : (AST → Run AST) → AST → Run AST

/-- The loop of `ASTPass::statements`: the statements of a child that became a
list take its place and are not processed again. -/
def spliceStatements (f : AST → Run AST) : List AST → Run (List AST)
  | [] => .ok []
  | statement :: l => do
    let new_statement ← f statement
    let l' ← spliceStatements f l
    return new_statement.asStatements ++ l'

namespace ASTPass

def process (p : ASTPass) : Nat → AST → Run AST
  | 0, _ => .error .outOfFuel
  | n + 1, a => do
    let new_ast ← p.processNode (p.process n) a
    match a with
    | .statements _ =>
      match new_ast with
      | .statements l => do return .fromStatementsArray (← spliceStatements (p.process n) l)
      | _ => p.process n new_ast
    | .ifBlock .. =>
      match new_ast with
      | .ifBlock c t e => do
        let t' ← p.process n t
        let e' ← e.mapM (p.process n)
        return .ifBlock c t' e'
      | _ => p.process n new_ast
    | .forBlock .. =>
      match new_ast with
      | .forBlock k v i b e => do
        let b' ← p.process n b
        let e' ← e.mapM (p.process n)
        return .forBlock k v i b' e'
      | _ => p.process n new_ast
    | .rawBlock _ | .printBlock _ | .includeBlock .. => return new_ast

/-- `process` on a whole tree, its height bounding the nested calls. -/
def run (p : ASTPass) (a : AST) : Run AST := p.process a.depth a

end ASTPass

/-- `ExpressionPassWrapper`, for an expression pass whose `process` is `f`. -/
def expressionPassWrapper (f : Expression → Run Expression) : ASTPass where
  processNode _
    | .printBlock e => do return .printBlock (← f e)
    | .ifBlock c t e => do return .ifBlock (← f c) t e
    | .forBlock k v i b e => do return .forBlock k v (← f i) b e
    | .includeBlock name scope M => do
      let scope' ← scope.mapM f
      let M' ← M.mapValues f
      return .includeBlock name scope' M'
    | a => return a

/-! ## Substitution passes -/

/-- A pass that overrides `process_node(VariableReferenceExpression*)` only. -/
def variablePass (g : Text → Run Expression) : ExpressionPass where
  processNode _
    | .variableReference x => g x
    | e => return e

namespace Expr

mutual

/-- Every variable reference replaced at once by what `g` gives for it. -/
def substitute (g : Text → Run Expression) : Expression → Run Expression
  | .variableReference x => g x
  | .getAttribute v a => do return .getAttribute (← v.substitute g) a
  | .methodCall m args => do return .methodCall m (← substituteArguments g args)
  | .doubleLiteral v => .ok (.doubleLiteral v)
  | .integerLiteral v => .ok (.integerLiteral v)
  | .booleanLiteral v => .ok (.booleanLiteral v)
  | .stringLiteral v => .ok (.stringLiteral v)
  | .binaryOperation l r op => do
    let l' ← l.substitute g
    let r' ← r.substitute g
    return .binaryOperation l' r' op
  | .unaryOperation e op => do return .unaryOperation (← e.substitute g) op
  | .comparison l r op => do
    let l' ← l.substitute g
    let r' ← r.substitute g
    return .comparison l' r' op

def substituteArguments (g : Text → Run Expression) :
    List (Option Expression) → Run (List (Option Expression))
  | [] => .ok []
  | none :: _ => .error (.undefined .nullPointer)
  | some e :: args => do
    let e' ← e.substitute g
    let args' ← substituteArguments g args
    return some e' :: args'

end

end Expr

theorem mapM_derefArgument {f : Expression → Run Expression} {g : Text → Run Expression} :
    ∀ (args : List (Option Expression)), (∀ e, some e ∈ args → f e = e.substitute g) →
      args.mapM (derefArgument f) = Expr.substituteArguments g args
  | [], _ => rfl
  | none :: _, _ => rfl
  | some e :: args, h => by
    have he := h e List.mem_cons_self
    have hargs := mapM_derefArgument args fun e' h' => h e' (List.mem_cons_of_mem _ h')
    rw [List.mapM_cons, derefArgument, he, hargs, Expr.substituteArguments]
    cases e.substitute g <;> rfl

theorem Expr.depth_le_argumentsDepth {ν : Type} {e : Expr ν} :
    ∀ {args : List (Option (Expr ν))}, some e ∈ args → e.depth ≤ argumentsDepth args
  | none :: args, h => by
    rw [argumentsDepth]
    exact depth_le_argumentsDepth ((List.mem_cons.1 h).resolve_left (by simp))
  | some e' :: args, h => by
    rw [argumentsDepth]
    rcases List.mem_cons.1 h with h | h
    · cases h; exact le_max_left _ _
    · exact (depth_le_argumentsDepth h).trans (le_max_right _ _)

/-- From the height of the tree on, the walker of a substitution pass is the substitution. -/
theorem ExpressionPass.process_eq_substitute (g : Text → Run Expression) (e : Expression) :
    ∀ n, e.depth ≤ n → (variablePass g).process n e = e.substitute g := by
  induction e using Expr.ind with
  | variableReference x =>
    rintro (_ | n) h
    · simp [Expr.depth] at h
    · simp only [process, variablePass, Expr.substitute]
      cases g x <;> rfl
  | doubleLiteral _ | integerLiteral _ | booleanLiteral _ | stringLiteral _ =>
    rintro (_ | n) h
    · simp [Expr.depth] at h
    · rfl
  | getAttribute v a ih =>
    rintro (_ | n) h
    · simp [Expr.depth] at h
    · have hv := ih n (by simpa [Expr.depth] using h)
      simp only [process, variablePass] at hv ⊢
      simp only [Expr.substitute, ← hv]
      rfl
  | methodCall m args ih =>
    rintro (_ | n) h
    · simp [Expr.depth] at h
    · have hargs : args.mapM (derefArgument ((variablePass g).process n)) =
          Expr.substituteArguments g args :=
        mapM_derefArgument _ fun e he =>
          ih e he n ((Expr.depth_le_argumentsDepth he).trans (by simpa [Expr.depth] using h))
      simp only [Expr.substitute, ← hargs]
      rfl
  | unaryOperation e op ih =>
    rintro (_ | n) h
    · simp [Expr.depth] at h
    · have he := ih n (by simpa [Expr.depth] using h)
      simp only [Expr.substitute, ← he]
      rfl
  | binaryOperation l r op ihl ihr | comparison l r op ihl ihr =>
    rintro (_ | n) h
    · simp [Expr.depth] at h
    · simp only [Expr.depth, Nat.add_le_add_iff_right, max_le_iff] at h
      simp only [Expr.substitute, ← ihl n h.1, ← ihr n h.2]
      rfl

theorem ExpressionPass.run_variablePass (g : Text → Run Expression) (e : Expression) :
    (variablePass g).run e = e.substitute g := process_eq_substitute g e _ le_rfl

/-! ## Passes over the expressions of a tree -/

namespace AST

mutual

/-- Every expression rewritten by `f`, statement lists merged as `ASTPass` merges them. -/
def mapExpressions (f : Expression → Run Expression) : AST → Run AST
  | .statements l => do return .fromStatementsArray (← mapStatements f l)
  | .rawBlock t => .ok (.rawBlock t)
  | .printBlock e => do return .printBlock (← f e)
  | .ifBlock c t none => do
    let c' ← f c
    let t' ← t.mapExpressions f
    return .ifBlock c' t' none
  | .ifBlock c t (some e) => do
    let c' ← f c
    let t' ← t.mapExpressions f
    let e' ← e.mapExpressions f
    return .ifBlock c' t' (some e')
  | .forBlock k v i b none => do
    let i' ← f i
    let b' ← b.mapExpressions f
    return .forBlock k v i' b' none
  | .forBlock k v i b (some e) => do
    let i' ← f i
    let b' ← b.mapExpressions f
    let e' ← e.mapExpressions f
    return .forBlock k v i' b' (some e')
  | .includeBlock name scope M => do
    let scope' ← scope.mapM f
    let M' ← M.mapValues f
    return .includeBlock name scope' M'

def mapStatements (f : Expression → Run Expression) : List AST → Run (List AST)
  | [] => .ok []
  | s :: l => do
    let s' ← s.mapExpressions f
    let l' ← mapStatements f l
    return s'.asStatements ++ l'

end

theorem depth_le_listDepth {s : AST} : ∀ {l : List AST}, s ∈ l → s.depth ≤ listDepth l
  | s' :: l, h => by
    rw [listDepth]
    rcases List.mem_cons.1 h with rfl | h
    · exact le_max_left _ _
    · exact (depth_le_listDepth h).trans (le_max_right _ _)

end AST

theorem spliceStatements_eq_mapStatements {f : AST → Run AST} {g : Expression → Run Expression} :
    ∀ (l : List AST), (∀ s ∈ l, f s = s.mapExpressions g) →
      spliceStatements f l = AST.mapStatements g l
  | [], _ => rfl
  | s :: l, h => by
    have hl := spliceStatements_eq_mapStatements l fun s' h' => h s' (List.mem_cons_of_mem _ h')
    rw [spliceStatements, AST.mapStatements, h s List.mem_cons_self, hl]

theorem mapM_some_bind {α β γ : Type} (f : α → Run β) (a : α) (k : Option β → Run γ) :
    (some a).mapM f >>= k = f a >>= fun b => k (some b) := by
  rw [Option.mapM_some, map_eq_pure_bind, bind_assoc]
  rfl

theorem ASTPass.process_eq_mapExpressions (f : Expression → Run Expression) (a : AST) :
    ∀ n, a.depth ≤ n → (expressionPassWrapper f).process n a = a.mapExpressions f := by
  induction a with
  | statements l ih =>
    rintro (_ | n) h
    · simp [AST.depth] at h
    · have hl : spliceStatements ((expressionPassWrapper f).process n) l =
          AST.mapStatements f l :=
        spliceStatements_eq_mapStatements _ fun s hs =>
          ih s hs n ((AST.depth_le_listDepth hs).trans (by simpa [AST.depth] using h))
      simp only [AST.mapExpressions, ← hl]
      rfl
  | rawBlock t =>
    rintro (_ | n) h
    · simp [AST.depth] at h
    · rfl
  | printBlock e =>
    rintro (_ | n) h
    · simp [AST.depth] at h
    · simp only [process, expressionPassWrapper, AST.mapExpressions]
      cases f e <;> rfl
  | includeBlock name scope M =>
    rintro (_ | n) h
    · simp [AST.depth] at h
    · simp only [process, expressionPassWrapper, AST.mapExpressions]
      cases scope.mapM f with
      | error _ => rfl
      | ok _ => cases M.mapValues f <;> rfl
  | ifBlock c t e iht ihe =>
    rintro (_ | n) h
    · cases e <;> simp [AST.depth] at h
    · cases e with
      | none =>
        simp only [AST.mapExpressions, ← iht n (by simpa [AST.depth] using h)]
        simp only [process, expressionPassWrapper]
        cases f c <;> rfl
      | some e =>
        simp only [AST.depth, Nat.add_le_add_iff_right, max_le_iff] at h
        simp only [AST.mapExpressions, ← iht n h.1, ← ihe e rfl n h.2]
        simp only [process, expressionPassWrapper, bind_assoc, pure_bind, mapM_some_bind]
  | forBlock k v i b e ihb ihe =>
    rintro (_ | n) h
    · cases e <;> simp [AST.depth] at h
    · cases e with
      | none =>
        simp only [AST.mapExpressions, ← ihb n (by simpa [AST.depth] using h)]
        simp only [process, expressionPassWrapper]
        cases f i <;> rfl
      | some e =>
        simp only [AST.depth, Nat.add_le_add_iff_right, max_le_iff] at h
        simp only [AST.mapExpressions, ← ihb n h.1, ← ihe e rfl n h.2]
        simp only [process, expressionPassWrapper, bind_assoc, pure_bind, mapM_some_bind]

theorem ASTPass.run_wrapper (f : Expression → Run Expression) (a : AST) :
    (expressionPassWrapper f).run a = a.mapExpressions f := process_eq_mapExpressions f a _ le_rfl

/-- `PassManager::run`. -/
def runPasses (passes : List (AST → Run AST)) (a : AST) : Run AST :=
  passes.foldlM (fun a pass => pass a) a

end B2
