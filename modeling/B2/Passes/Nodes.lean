import B2.Effect.Traced
import B2.Passes.ResolveIncludes

/-!
# Nodes and their owners

`ASTPass::process`, `PassManager::run` and include resolution on trees whose nodes
have identities. A run keeps a record of the nodes that are released, in their order:
when a `std::unique_ptr` is reset or goes out of scope, and by the `delete`s of
`PassManager::run`. The nodes of a parsed file are new.

A pass of this kind changes expressions in place and puts other nodes in the place of
include blocks only. An exception leaves the tree as far as it has come; undefined
behaviour ends the run.
-/

namespace B2

open Effect (Traced)

/-- The run ends by an exception, which destroys what goes out of scope. -/
def Failure.isException : Failure → Bool
  | .runtimeError _ | .missingVariableReference .. | .syntaxError .. => true
  | .undefined _ | .outOfFuel => false

inductive Node where
  | statements (id : Nat) (statements : List Node)
  | rawBlock (id : Nat) (text : Text)
  | printBlock (id : Nat) (expr : Expression)
  | ifBlock (id : Nat) (condition : Expression) (thenBody : Node) (elseBody : Option Node)
  | forBlock (id : Nat) (keyVariable valueVariable : Option Text) (iterable : Expression)
      (body : Node) (elseBody : Option Node)
  | includeBlock (id : Nat) (includeName : Text) (scope : Option Expression)
      (variableMapping : StringExpressionMap)

namespace Node

/-- Structural induction; the statements of a list are met one by one. -/
@[elab_as_elim, induction_eliminator]
theorem ind {motive : Node → Prop}
    (statements : ∀ id l, (∀ s ∈ l, motive s) → motive (.statements id l))
    (rawBlock : ∀ id t, motive (.rawBlock id t))
    (printBlock : ∀ id e, motive (.printBlock id e))
    (ifBlock : ∀ id c t e, motive t → (∀ b, e = some b → motive b) → motive (.ifBlock id c t e))
    (forBlock : ∀ id k v i b e, motive b → (∀ b', e = some b' → motive b') →
      motive (.forBlock id k v i b e))
    (includeBlock : ∀ id n s M, motive (.includeBlock id n s M)) : ∀ t, motive t := by
  intro t
  refine Node.rec (motive_1 := motive) (motive_2 := fun l => ∀ s ∈ l, motive s)
    (motive_3 := fun e => ∀ b, e = some b → motive b) statements rawBlock printBlock ifBlock
    forBlock includeBlock ?_ ?_ ?_ ?_ t
  · intro s h; cases h
  · intro s l hs hl s' h
    rcases List.mem_cons.1 h with rfl | h
    · exact hs
    · exact hl s' h
  · intro b h; cases h
  · intro b hb b' h; cases h; exact hb

mutual

/-- The identities of the nodes, which a `delete` of the root releases. -/
def ids : Node → List Nat
  | .statements id l => id :: idsList l
  | .rawBlock id _ | .printBlock id _ | .includeBlock id .. => [id]
  | .ifBlock id _ t none => id :: t.ids
  | .ifBlock id _ t (some e) => id :: (t.ids ++ e.ids)
  | .forBlock id _ _ _ b none => id :: b.ids
  | .forBlock id _ _ _ b (some e) => id :: (b.ids ++ e.ids)

def idsList : List Node → List Nat
  | [] => []
  | s :: l => s.ids ++ idsList l

end

mutual

/-- The tree without identities. -/
def erase : Node → AST
  | .statements _ l => .statements (eraseList l)
  | .rawBlock _ t => .rawBlock t
  | .printBlock _ e => .printBlock e
  | .ifBlock _ c t none => .ifBlock c t.erase none
  | .ifBlock _ c t (some e) => .ifBlock c t.erase (some e.erase)
  | .forBlock _ k v i b none => .forBlock k v i b.erase none
  | .forBlock _ k v i b (some e) => .forBlock k v i b.erase (some e.erase)
  | .includeBlock _ name scope M => .includeBlock name scope M

def eraseList : List Node → List AST
  | [] => []
  | s :: l => s.erase :: eraseList l

end

mutual

/-- The variables that the expressions of the tree refer to. -/
def references : Node → List Text
  | .statements _ l => referencesList l
  | .rawBlock .. => []
  | .printBlock _ e => e.references
  | .ifBlock _ c t none => c.references ++ t.references
  | .ifBlock _ c t (some e) => c.references ++ (t.references ++ e.references)
  | .forBlock _ _ _ i b none => i.references ++ b.references
  | .forBlock _ _ _ i b (some e) => i.references ++ (b.references ++ e.references)
  | .includeBlock _ _ scope M =>
    scope.toList.flatMap Expr.references ++ M.entries.flatMap fun p => p.2.references

def referencesList : List Node → List Text
  | [] => []
  | s :: l => s.references ++ referencesList l

end

/-- The statements a node contributes to the list it is merged into. -/
def asStatements : Node → List Node
  | .statements _ l => l
  | t => [t]

/-- The root, when its statements have been moved to another list. -/
def shell : Node → Option Node
  | .statements id _ => some (.statements id [])
  | _ => none

end Node

namespace AST

mutual

/-- A tree of new nodes, and the next identity. -/
def allocate : AST → Nat → Node × Nat
  | .statements l, n =>
    let (l, m) := allocateList l (n + 1)
    (.statements n l, m)
  | .rawBlock t, n => (.rawBlock n t, n + 1)
  | .printBlock e, n => (.printBlock n e, n + 1)
  | .ifBlock c t none, n =>
    let (t, m) := allocate t (n + 1)
    (.ifBlock n c t none, m)
  | .ifBlock c t (some e), n =>
    let (t, m) := allocate t (n + 1)
    let (e, m) := allocate e m
    (.ifBlock n c t (some e), m)
  | .forBlock k v i b none, n =>
    let (b, m) := allocate b (n + 1)
    (.forBlock n k v i b none, m)
  | .forBlock k v i b (some e), n =>
    let (b, m) := allocate b (n + 1)
    let (e, m) := allocate e m
    (.forBlock n k v i b (some e), m)
  | .includeBlock name scope M, n => (.includeBlock n name scope M, n + 1)

def allocateList : List AST → Nat → List Node × Nat
  | [], n => ([], n)
  | s :: l, n =>
    let (s, m) := allocate s n
    let (l, m) := allocateList l m
    (s :: l, m)

end

end AST

/-! ## Walks -/

inductive Event where
  | released (ids : List Nat)
  /-- `replaceVariableReferences` is called for a tree with these references -/
  | replaces (references : List Text) (replacements : StringExpressionMap)

/-- The state is the next identity. -/
abbrev Walk := Traced Event Nat Failure

/-- How `process` comes back from a node. -/
inductive Walked where
  /-- it returns `node`, and if that is another node the one it was given is `left` -/
  | returned (left : Option Node) (node : Node)
  /-- an exception, and the node as it is then -/
  | thrown (node : Node) (failure : Failure)

inductive WalkedList where
  | returned (statements : List Node)
  | thrown (statements : List Node) (failure : Failure)

/-- `delete` -/
def release (t : Node) : Walk Unit := Traced.tell (.released t.ids)

/-- `std::unique_ptr::reset`, where the pointers differ. -/
def reset (left : Option Node) : Walk Unit :=
  match left with
  | some old => release old
  | none => return ()

def raise (t : Node) (failure : Failure) : Walk Walked :=
  if failure.isException then return .thrown t failure else Traced.throw failure

/-- The `process_node`s of a pass: what becomes of the expressions, and what of an include block,
which gets the pass's own `process`. -/
structure NodePass where
  expression : Expression → Run Expression
  includeBlock (process : Node → Walk Walked) (id : Nat) (includeName : Text)
    (scope : Option Expression) (variableMapping : StringExpressionMap) : Walk Walked

/-- The loop of `ASTPass::statements`. -/
def walkStatements (process : Node → Walk Walked) : List Node → Walk WalkedList
  | [] => return .returned []
  | statement :: l => do
    match ← process statement with
    | .thrown statement failure => return .thrown (statement :: l) failure
    | .returned left new_statement => do
      reset left
      -- the statements of a list are moved before it is erased
      reset new_statement.shell
      match ← walkStatements process l with
      | .thrown l failure => return .thrown (new_statement.asStatements ++ l) failure
      | .returned l => return .returned (new_statement.asStatements ++ l)

/-- The two bodies of a block that `node` makes of them. -/
def walkBodies (process : Node → Walk Walked) (node : Node → Option Node → Node) (body : Node)
    (elseBody : Option Node) : Walk Walked := do
  match ← process body with
  | .thrown body failure => return .thrown (node body elseBody) failure
  | .returned left body => do
    reset left
    match elseBody with
    | none => return .returned none (node body none)
    | some elseBody => do
      match ← process elseBody with
      | .thrown elseBody failure => return .thrown (node body (some elseBody)) failure
      | .returned left elseBody => do
        reset left
        return .returned none (node body (some elseBody))

namespace NodePass

/-- `ASTPass::process` -/
def process (p : NodePass) : Nat → Node → Walk Walked
  | 0, _ => Traced.throw .outOfFuel
  | n + 1, .statements id l => do
    match ← walkStatements (p.process n) l with
    | .thrown l failure => return .thrown (.statements id l) failure
    | .returned [statement] => return .returned (some (.statements id [])) statement
    | .returned l => return .returned none (.statements id l)
  | _ + 1, .rawBlock id t => return .returned none (.rawBlock id t)
  | _ + 1, .printBlock id e =>
    match p.expression e with
    | .error failure => raise (.printBlock id e) failure
    | .ok e => return .returned none (.printBlock id e)
  | n + 1, .ifBlock id c t e =>
    match p.expression c with
    | .error failure => raise (.ifBlock id c t e) failure
    | .ok c => walkBodies (p.process n) (.ifBlock id c) t e
  | n + 1, .forBlock id k v i b e =>
    match p.expression i with
    | .error failure => raise (.forBlock id k v i b e) failure
    | .ok i => walkBodies (p.process n) (.forBlock id k v i) b e
  | n + 1, .includeBlock id name scope M => p.includeBlock (p.process n) id name scope M

end NodePass

/-- `PassManager::run` with one pass. -/
def runManager (process : Node → Walk Walked) (t : Node) : Walk Walked := do
  match ← process t with
  | .returned left new_ast => do
    reset left
    return .returned left new_ast
  | .thrown t failure => do
    -- something bad happened, free the AST as we own it
    release t
    return .thrown t failure

/-- `ExpressionPassWrapper` -/
def nodeWrapper (f : Expression → Run Expression) : NodePass where
  expression := f
  includeBlock _ id name scope M :=
    match scope.mapM f, M.mapValues f with
    | .error failure, _ => raise (.includeBlock id name scope M) failure
    | .ok scope', .error failure => raise (.includeBlock id name scope' M) failure
    | .ok scope', .ok M' => return .returned none (.includeBlock id name scope' M')

namespace IncludeContext

/-- The expression pass that is run over the tree of an include block. -/
def insertionPass (name : Text) (scope : Option Expression) (M : StringExpressionMap) :
    ExpressionPass :=
  match scope with
  | some scope => prependScopePass scope
  | none => replaceVariableReferencesPass name M

/-- The call of `replaceVariableReferences`, where there is no scope. -/
def noteReplacement (t : Node) (scope : Option Expression) (M : StringExpressionMap) : Walk Unit :=
  match scope with
  | some _ => return ()
  | none => Traced.tell (.replaces t.references M)

/-- `process_node(IncludeBlockAST*)` from the call of `prependScope` or `replaceVariableReferences`
on, for the block `self`. -/
def insertIncluded (self : Node) (includeFilename : Text) (scope : Option Expression)
    (M : StringExpressionMap) (includeAST : Node) : Walk Walked := do
  noteReplacement includeAST scope M
  let wrapper := nodeWrapper (insertionPass includeFilename scope M).run
  match ← runManager (wrapper.process includeAST.erase.depth) includeAST with
  | .thrown includeAST failure => do
    -- the destructor of `includeAST`
    release includeAST
    return .thrown self failure
  | .returned left newIncludeAST => do
    reset left
    return .returned (some self) newIncludeAST

/-- `process_node(IncludeBlockAST*)` -/
def processInclude (ctx : IncludeContext) (process : Node → Walk Walked) (id : Nat)
    (includeName : Text) (scope : Option Expression) (M : StringExpressionMap) : Walk Walked :=
  let self : Node := .includeBlock id includeName scope M
  let includeFilename := ctx.resolvePath includeName
  match ctx.parse includeFilename with
  | .error failure => raise self failure
  | .ok a => do
    let n ← Traced.get
    Traced.modify fun n => (a.allocate n).2
    match ← process (a.allocate n).1 with
    | .thrown includeAST failure => do
      -- the destructor of `includeAST`
      release includeAST
      return .thrown self failure
    | .returned left includeAST => do
      reset left
      insertIncluded self includeFilename scope M includeAST

/-- `ResolveIncludesPass` -/
def includePass (ctx : IncludeContext) : NodePass where
  expression e := .ok e
  includeBlock := ctx.processInclude

/-- The pass run by a `PassManager` over a tree, the identities of its nodes from 0. -/
def resolve (ctx : IncludeContext) (n : Nat) (a : AST) : Walk Walked := do
  Traced.modify fun _ => (a.allocate 0).2
  runManager (ctx.includePass.process n) (a.allocate 0).1

end IncludeContext

/-! ## The trees without identities -/

/-- A run and one on trees without identities come to the same. -/
def Erases {α β : Type} (outcome : α → Run β) (m : Walk α) (r : Run β) : Prop :=
  ∀ s, Effect.Traced.Sat m s (fun _ _ a => outcome a = r) fun _ _ failure => .error failure = r

def Walked.outcome : Walked → Run AST
  | .returned _ t => .ok t.erase
  | .thrown _ failure => .error failure

def WalkedList.outcome : WalkedList → Run (List AST)
  | .returned l => .ok (Node.eraseList l)
  | .thrown _ failure => .error failure

section

variable {α α' β β' : Type} {outcome : α → Run β} {outcome' : α' → Run β'} {m : Walk α}
  {process : Node → Walk Walked} {f : AST → Run AST}

theorem erases_pure (a : α) : Erases outcome (pure a : Walk α) (outcome a) := fun _ => rfl

theorem Erases.bind {r : Run β} {f : α → Walk α'} {g : β → Run β'} (h : Erases outcome m r)
    (hf : ∀ a, Erases outcome' (f a) (outcome a >>= g)) : Erases outcome' (m >>= f) (r >>= g) := by
  intro s
  refine (h s).bind (fun l s' a ha => ?_) fun l s' failure hfailure => ?_
  · rw [← ha]
    exact hf a s'
  · rw [← hfailure]
    rfl

/-- What is released does not matter. -/
theorem Erases.after_release {t : Node} {f : Unit → Walk α} {r : Run β}
    (h : Erases outcome (f ()) r) : Erases outcome (release t >>= f) r := fun s =>
  Effect.Traced.sat_bind.2 (Effect.Traced.sat_tell.2 (h s))

theorem Erases.after_reset {left : Option Node} {f : Unit → Walk α} {r : Run β}
    (h : Erases outcome (f ()) r) : Erases outcome (reset left >>= f) r := by
  cases left with
  | none => exact h
  | some t => exact h.after_release

theorem raise_erases (t : Node) (failure : Failure) :
    Erases Walked.outcome (raise t failure) (.error failure) := by
  unfold raise
  split_ifs
  · exact erases_pure (Walked.thrown t failure)
  · exact fun _ => rfl

theorem Node.eraseList_append (l l' : List Node) :
    Node.eraseList (l ++ l') = Node.eraseList l ++ Node.eraseList l' := by
  induction l with
  | nil => rfl
  | cons t l ih => simp [Node.eraseList, ih]

theorem Node.eraseList_asStatements (t : Node) :
    Node.eraseList t.asStatements = t.erase.asStatements := by
  cases t with
  | ifBlock id c t e => cases e <;> rfl
  | forBlock id k v i b e => cases e <;> rfl
  | _ => rfl

theorem walkStatements_erases (hprocess : ∀ t, Erases Walked.outcome (process t) (f t.erase)) :
    ∀ l, Erases WalkedList.outcome (walkStatements process l)
      (spliceStatements f (Node.eraseList l))
  | [] => erases_pure (WalkedList.returned [])
  | statement :: l => by
    refine (hprocess statement).bind fun w => ?_
    cases w with
    | thrown t failure => exact erases_pure (WalkedList.thrown _ failure)
    | returned left t =>
      refine Erases.after_reset (Erases.after_reset ?_)
      refine (walkStatements_erases hprocess l).bind fun w => ?_
      cases w with
      | thrown l failure => exact erases_pure (WalkedList.thrown _ failure)
      | returned l =>
        show Erases _ _ (.ok (t.erase.asStatements ++ Node.eraseList l))
        rw [← Node.eraseList_asStatements, ← Node.eraseList_append]
        exact erases_pure (WalkedList.returned _)

theorem walkBodies_erases (hprocess : ∀ t, Erases Walked.outcome (process t) (f t.erase))
    {node : Node → Option Node → Node} {block : AST → Option AST → AST}
    (hnode : ∀ b e, (node b e).erase = block b.erase (e.map Node.erase)) (body : Node)
    (elseBody : Option Node) :
    Erases Walked.outcome (walkBodies process node body elseBody) (do
      let body' ← f body.erase
      let elseBody' ← (elseBody.map Node.erase).mapM f
      return block body' elseBody') := by
  refine (hprocess body).bind fun w => ?_
  cases w with
  | thrown t failure => exact erases_pure (Walked.thrown _ failure)
  | returned left body' =>
    refine Erases.after_reset ?_
    cases elseBody with
    | none =>
      show Erases _ _ (.ok (block body'.erase ((none : Option Node).map Node.erase)))
      rw [← hnode]
      exact erases_pure (Walked.returned none _)
    | some elseBody =>
      show Erases _ _ ((some elseBody.erase).mapM f >>= fun e => .ok (block body'.erase e))
      rw [Option.mapM_some, map_eq_pure_bind, bind_assoc]
      refine (hprocess elseBody).bind fun w => ?_
      cases w with
      | thrown t failure => exact erases_pure (Walked.thrown _ failure)
      | returned left elseBody' =>
        refine Erases.after_reset ?_
        show Erases _ _ (.ok (block body'.erase ((some elseBody').map Node.erase)))
        rw [← hnode]
        exact erases_pure (Walked.returned none _)

end

/-- A pass on nodes is the `ASTPass`. -/
structure NodePass.Models (p : NodePass) (q : ASTPass) : Prop where
  statements : ∀ f l, q.processNode f (.statements l) = .ok (.statements l)
  rawBlock : ∀ f t, q.processNode f (.rawBlock t) = .ok (.rawBlock t)
  printBlock : ∀ f e, q.processNode f (.printBlock e) = do return .printBlock (← p.expression e)
  ifBlock : ∀ f c t e, q.processNode f (.ifBlock c t e) = do
    return .ifBlock (← p.expression c) t e
  forBlock : ∀ f k v i b e, q.processNode f (.forBlock k v i b e) = do
    return .forBlock k v (← p.expression i) b e
  includeBlock : ∀ process f, (∀ t, Erases Walked.outcome (process t) (f t.erase)) →
    ∀ id name scope M, Erases Walked.outcome (p.includeBlock process id name scope M)
      (q.processNode f (.includeBlock name scope M))

/-- `ASTPass::process` on nodes is the one on trees. -/
theorem NodePass.process_erases {p : NodePass} {q : ASTPass} (h : p.Models q) :
    ∀ n t, Erases Walked.outcome (p.process n t) (q.process n t.erase)
  | 0, _ => fun _ => rfl
  | n + 1, .rawBlock id t => by
    show Erases _ _ (q.processNode _ (.rawBlock t) >>= _)
    rw [h.rawBlock]
    exact erases_pure (Walked.returned none _)
  | n + 1, .printBlock id e => by
    show Erases _ (match p.expression e with
      | .error failure => raise (.printBlock id e) failure
      | .ok e => return .returned none (.printBlock id e)) (q.processNode _ (.printBlock e) >>= _)
    rw [h.printBlock]
    cases p.expression e with
    | error failure => exact raise_erases _ failure
    | ok e => exact erases_pure (Walked.returned none _)
  | n + 1, .includeBlock id name scope M => by
    show Erases _ _ (q.processNode _ (.includeBlock name scope M) >>= pure)
    rw [bind_pure]
    exact h.includeBlock _ _ (process_erases h n) id name scope M
  | n + 1, .statements id l => by
    show Erases _ _ (q.processNode _ (.statements (Node.eraseList l)) >>= _)
    rw [h.statements]
    refine (walkStatements_erases (process_erases h n) l).bind fun w => ?_
    cases w with
    | thrown l failure => exact erases_pure (Walked.thrown _ failure)
    | returned l =>
      match l with
      | [] | _ :: _ :: _ => exact erases_pure (Walked.returned none _)
      | [t] => exact erases_pure (Walked.returned _ t)
  | n + 1, .ifBlock id c t e => by
    have hnode : ∀ (c : Expression) b e,
        (Node.ifBlock id c b e).erase = .ifBlock c b.erase (e.map Node.erase) := by
      intro c b e
      cases e <;> rfl
    show Erases _ (match p.expression c with
      | .error failure => raise (.ifBlock id c t e) failure
      | .ok c => walkBodies (p.process n) (.ifBlock id c) t e) _
    rw [hnode, ASTPass.process, h.ifBlock]
    cases p.expression c with
    | error failure => exact raise_erases _ failure
    | ok c' => exact walkBodies_erases (process_erases h n) (hnode c') t e
  | n + 1, .forBlock id k v i b e => by
    have hnode : ∀ (i : Expression) b e,
        (Node.forBlock id k v i b e).erase = .forBlock k v i b.erase (e.map Node.erase) := by
      intro i b e
      cases e <;> rfl
    show Erases _ (match p.expression i with
      | .error failure => raise (.forBlock id k v i b e) failure
      | .ok i => walkBodies (p.process n) (.forBlock id k v i) b e) _
    rw [hnode, ASTPass.process, h.forBlock]
    cases p.expression i with
    | error failure => exact raise_erases _ failure
    | ok i' => exact walkBodies_erases (process_erases h n) (hnode i') b e

theorem nodeWrapper_models (f : Expression → Run Expression) :
    (nodeWrapper f).Models (expressionPassWrapper f) where
  statements _ _ := rfl
  rawBlock _ _ := rfl
  printBlock _ _ := rfl
  ifBlock _ _ _ _ := rfl
  forBlock _ _ _ _ _ _ := rfl
  includeBlock _ _ _ id name scope M := by
    show Erases _ (match scope.mapM f, M.mapValues f with
      | .error failure, _ => raise (.includeBlock id name scope M) failure
      | .ok scope', .error failure => raise (.includeBlock id name scope' M) failure
      | .ok scope', .ok M' => return .returned none (.includeBlock id name scope' M')) (do
        let scope' ← scope.mapM f
        let M' ← M.mapValues f
        return AST.includeBlock name scope' M')
    cases scope.mapM f with
    | error failure => exact raise_erases _ failure
    | ok scope' =>
      cases M.mapValues f with
      | error failure => exact raise_erases _ failure
      | ok M' => exact erases_pure (Walked.returned none _)

theorem runManager_erases {process : Node → Walk Walked} {f : AST → Run AST}
    (hprocess : ∀ t, Erases Walked.outcome (process t) (f t.erase)) (t : Node) :
    Erases Walked.outcome (runManager process t) (f t.erase) := by
  rw [← bind_pure (f t.erase)]
  refine (hprocess t).bind fun w => ?_
  cases w with
  | thrown t failure => exact (erases_pure (Walked.thrown t failure)).after_release
  | returned left t => exact Erases.after_reset (erases_pure (Walked.returned left t))

namespace AST

theorem erase_allocate (a : AST) : ∀ n, (a.allocate n).1.erase = a := by
  induction a with
  | statements l ih =>
    have hlist : ∀ n, Node.eraseList (allocateList l n).1 = l := by
      induction l with
      | nil => exact fun _ => rfl
      | cons s l ihl =>
        intro n
        exact congrArg₂ List.cons (ih s List.mem_cons_self n)
          (ihl (fun s hs => ih s (List.mem_cons_of_mem _ hs)) _)
    exact fun n => congrArg AST.statements (hlist (n + 1))
  | rawBlock t | printBlock e | includeBlock name scope M => exact fun _ => rfl
  | ifBlock c t e iht ihe =>
    intro n
    cases e with
    | none => exact congrArg (AST.ifBlock c · none) (iht (n + 1))
    | some e => exact congrArg₂ (fun t e => AST.ifBlock c t (some e)) (iht _) (ihe e rfl _)
  | forBlock k v i b e ihb ihe =>
    intro n
    cases e with
    | none => exact congrArg (AST.forBlock k v i · none) (ihb (n + 1))
    | some e => exact congrArg₂ (fun b e => AST.forBlock k v i b (some e)) (ihb _) (ihe e rfl _)

end AST

namespace IncludeContext

variable (ctx : IncludeContext)

theorem insertIncluded_erases (self : Node) (file : Text) (scope : Option Expression)
    (M : StringExpressionMap) (t : Node) :
    Erases Walked.outcome (insertIncluded self file scope M t)
      (runPasses [(expressionPassWrapper (insertionPass file scope M).run).run] t.erase) := by
  have hnote : ∀ {f : Unit → Walk Walked} {r : Run AST}, Erases Walked.outcome (f ()) r →
      Erases Walked.outcome (noteReplacement t scope M >>= f) r := by
    intro f r h
    cases scope with
    | some scope => exact h
    | none => exact fun s => Effect.Traced.sat_bind.2 (Effect.Traced.sat_tell.2 (h s))
  have hwalk := NodePass.process_erases (nodeWrapper_models (insertionPass file scope M).run)
    t.erase.depth
  refine hnote ((runManager_erases hwalk t).bind fun w => ?_)
  cases w with
  | thrown t failure => exact (erases_pure (Walked.thrown self failure)).after_release
  | returned left t => exact Erases.after_reset (erases_pure (Walked.returned (some self) t))

theorem includePass_models : ctx.includePass.Models ctx.resolveIncludesPass where
  statements _ _ := rfl
  rawBlock _ _ := rfl
  printBlock _ _ := rfl
  ifBlock _ _ _ _ := rfl
  forBlock _ _ _ _ _ _ := rfl
  includeBlock process f hprocess id name scope M := by
    show Erases _ (ctx.processInclude process id name scope M) (do
      let a ← ctx.parse (ctx.resolvePath name)
      let a' ← f a
      match scope with
      | some scope => prependScope a' scope
      | none => replaceVariableReferences a' (ctx.resolvePath name) M)
    cases hparse : ctx.parse (ctx.resolvePath name) with
    | error failure =>
      simp only [processInclude, hparse]
      exact raise_erases _ failure
    | ok a =>
      simp only [processInclude, hparse]
      intro s
      have hrest : Erases Walked.outcome
          (process (a.allocate s).1 >>= fun w => match w with
            | .thrown includeAST failure => do
              release includeAST
              return .thrown (.includeBlock id name scope M) failure
            | .returned left includeAST => do
              reset left
              insertIncluded (.includeBlock id name scope M) (ctx.resolvePath name) scope M
                includeAST)
          (f a >>= fun a' => match scope with
            | some scope => prependScope a' scope
            | none => replaceVariableReferences a' (ctx.resolvePath name) M) := by
        have hfirst := hprocess (a.allocate s).1
        rw [a.erase_allocate] at hfirst
        refine hfirst.bind fun w => ?_
        cases w with
        | thrown t failure => exact (erases_pure (Walked.thrown _ failure)).after_release
        | returned left t =>
          refine Erases.after_reset ?_
          have hinsert := insertIncluded_erases (.includeBlock id name scope M)
            (ctx.resolvePath name) scope M t
          cases scope <;> exact hinsert
      exact Effect.Traced.sat_bind.2 (Effect.Traced.sat_get.2 (Effect.Traced.sat_bind.2
        (Effect.Traced.sat_modify.2 (hrest (a.allocate s).2))))

/-- A run of the pass gives what it gives on trees without identities. -/
theorem resolve_erases (n : Nat) (a : AST) :
    Erases Walked.outcome (ctx.resolve n a) (ctx.resolveIncludesPass.process n a) := by
  have hwalk := NodePass.process_erases ctx.includePass_models n
  have hrun := runManager_erases hwalk (a.allocate 0).1
  rw [a.erase_allocate] at hrun
  exact fun s => Effect.Traced.sat_bind.2 (Effect.Traced.sat_modify.2 (hrun _))

end IncludeContext

end B2
