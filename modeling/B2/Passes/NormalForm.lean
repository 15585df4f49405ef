import B2.Parser.Grammar
import B2.Passes.RawBlocks
import B2.Passes.ResolveIncludes

/-!
# Normal form

No list of statements is a child of a list of statements, and none has exactly
one child (`AST.Normal`). The parser builds such trees (`RootTree.action_normal`)
and a pass whose `process_node` keeps them normal does so on whole trees
(`ASTPass.KeepsNormal.process`). The loop of `ASTPass::statements` over its
`std::list` is `statementsLoop`: it processes every statement once, in order,
and puts the children of a list in its place (`statementsLoop_eq`).
-/

namespace B2

namespace AST

def isStatements : AST → Bool
  | .statements _ => true
  | _ => false

mutual

def Normal : AST → Prop
  | .statements l => l.length ≠ 1 ∧ NormalList l
  | .rawBlock _ | .printBlock _ | .includeBlock .. => True
  | .ifBlock _ t none => t.Normal
  | .ifBlock _ t (some e) => t.Normal ∧ e.Normal
  | .forBlock _ _ _ b none => b.Normal
  | .forBlock _ _ _ b (some e) => b.Normal ∧ e.Normal

/-- The children of a list of statements. -/
def NormalList : List AST → Prop
  | [] => True
  | s :: l => s.isStatements = false ∧ s.Normal ∧ NormalList l

end

/-- Normal below the root. -/
def ChildrenNormal : AST → Prop
  | .statements l => ∀ s ∈ l, s.Normal
  | a => a.Normal

theorem normalList_iff {l : List AST} :
    NormalList l ↔ ∀ s ∈ l, s.isStatements = false ∧ s.Normal := by
  induction l with
  | nil => simp [NormalList]
  | cons s l ih => simp [NormalList, ih, and_assoc]

theorem normalList_append {l l' : List AST} :
    NormalList (l ++ l') ↔ NormalList l ∧ NormalList l' := by
  rw [normalList_iff, normalList_iff, normalList_iff, List.forall_mem_append]

theorem normal_fromStatementsArray {l : List AST} (h : NormalList l) :
    (fromStatementsArray l).Normal := by
  match l, h with
  | [], _ => exact ⟨by simp, trivial⟩
  | [s], h => exact h.2.1
  | s :: s' :: l, h => exact ⟨by simp, h⟩

theorem normalList_asStatements {a : AST} (h : a.Normal) : NormalList a.asStatements := by
  cases a with
  | statements l => exact h.2
  | _ => exact ⟨rfl, h, trivial⟩

theorem Normal.childrenNormal {a : AST} (h : a.Normal) : a.ChildrenNormal := by
  cases a with
  | statements l => exact fun s hs => (normalList_iff.1 h.2 s hs).2
  | _ => exact h

end AST

/-! ## Trees of the parser -/

section

variable {line : Nat}

theorem resetElseBody_normal {body : Option AST} {node a : AST}
    (hbody : ∀ b, body = some b → b.Normal) (hnode : node.Normal)
    (h : resetElseBody body node = .ok a) : a.Normal := by
  cases node <;> simp only [resetElseBody, Except.ok.injEq, reduceCtorEq] at h
  case ifBlock c t e =>
    subst h
    have ht : t.Normal := by
      cases e with
      | none => exact hnode
      | some e => exact hnode.1
    cases body with
    | none => exact ht
    | some b => exact ⟨ht, hbody b rfl⟩

theorem resetLastElseBody_normal {body : Option AST} (hbody : ∀ b, body = some b → b.Normal)
    (node : AST) : ∀ a, node.Normal → resetLastElseBody body node = .ok a → a.Normal := by
  induction node with
  | ifBlock c t e _ ihe =>
    intro a hnode h
    cases e with
    | none => exact resetElseBody_normal hbody hnode h
    | some e =>
      simp only [resetLastElseBody, bind_eq_ok, pure_eq_ok] at h
      obtain ⟨e', he, rfl⟩ := h
      exact ⟨hnode.1, ihe e rfl e' hnode.2 he⟩
  | _ => intro a _ h; simp [resetLastElseBody] at h

theorem RawBlocksTree.action_normal : ∀ t : RawBlocksTree, AST.NormalList t.action
  | .one _ => ⟨rfl, trivial, trivial⟩
  | .snoc blocks _ =>
    AST.normalList_append.2 ⟨action_normal blocks, rfl, trivial, trivial⟩

theorem IncludeBlockTree.action_normal {t : IncludeBlockTree} {a : AST}
    (h : t.action line = .ok a) : a.Normal := by
  cases t with
  | plain name =>
    cases h
    trivial
  | usingScope name t =>
    simp only [IncludeBlockTree.action, bind_eq_ok, pure_eq_ok] at h
    obtain ⟨_, _, _, _, rfl⟩ := h
    trivial
  | withMapping name mapping =>
    simp only [IncludeBlockTree.action, bind_eq_ok, pure_eq_ok] at h
    obtain ⟨_, _, rfl⟩ := h
    trivial

mutual

theorem StatementTree.action_normal : ∀ (t : StatementTree) (a : AST),
    t.action line = .ok a → a.Normal
  | .rawBlocks blocks, a, h => by
    cases h
    exact AST.normal_fromStatementsArray blocks.action_normal
  | .printBlock t, a, h => by
    simp only [StatementTree.action, bind_eq_ok, pure_eq_ok] at h
    obtain ⟨e, he, rfl⟩ := h
    trivial
  | .includeBlock block, a, h => IncludeBlockTree.action_normal h
  | .forStatement key value iterable body elseBody, a, h => by
    simp only [StatementTree.action, bind_eq_ok, pure_eq_ok] at h
    obtain ⟨b, hb, e, he, k, -, v, -, rfl⟩ := h
    have hbody := AST.normal_fromStatementsArray (body.action_normal b hb)
    cases e with
    | none => exact hbody
    | some e => exact ⟨hbody, elseBody.action_normal (some e) he e rfl⟩
  | .ifBlock cond then_body elif_blocks else_body, a, h => by
    simp only [StatementTree.action, bind_eq_ok] at h
    obtain ⟨c, hc, t, ht, elifs, helifs, e, he, h⟩ := h
    have hthen := AST.normal_fromStatementsArray (then_body.action_normal t ht)
    have helse := else_body.action_normal e he
    cases elifs with
    | none =>
      cases h
      cases e with
      | none => exact hthen
      | some e => exact ⟨hthen, helse e rfl⟩
    | some elifs =>
      simp only [ifBlockAction, bind_eq_ok, pure_eq_ok] at h
      obtain ⟨b, hb, rfl⟩ := h
      have helifs := elif_blocks.action_normal (some elifs) helifs elifs rfl
      exact ⟨hthen, resetLastElseBody_normal helse elifs b helifs hb⟩

theorem StatementsTree.action_normal : ∀ (t : StatementsTree) (l : List AST),
    t.action line = .ok l → AST.NormalList l
  | .one s, l, h => by
    simp only [StatementsTree.action, bind_eq_ok, pure_eq_ok] at h
    obtain ⟨a, ha, rfl⟩ := h
    exact AST.normalList_asStatements (s.action_normal a ha)
  | .snoc t s, l, h => by
    simp only [StatementsTree.action, bind_eq_ok, pure_eq_ok] at h
    obtain ⟨l', hl, a, ha, rfl⟩ := h
    exact AST.normalList_append.2
      ⟨t.action_normal l' hl, AST.normalList_asStatements (s.action_normal a ha)⟩

theorem ElseifBlocksTree.action_normal : ∀ (t : ElseifBlocksTree) (e : Option AST),
    t.action line = .ok e → ∀ a, e = some a → a.Normal
  | .empty, e, h => by
    cases h
    nofun
  | .snoc prev_elif cond body, e, h => by
    simp only [ElseifBlocksTree.action, bind_eq_ok, pure_eq_ok] at h
    obtain ⟨prev, hprev, c, hc, b, hb, a, ha, rfl⟩ := h
    rintro _ ⟨⟩
    have hbody := AST.normal_fromStatementsArray (body.action_normal b hb)
    cases prev with
    | none =>
      cases ha
      exact hbody
    | some prev =>
      refine resetElseBody_normal ?_ (prev_elif.action_normal (some prev) hprev prev rfl) ha
      rintro _ ⟨⟩
      exact hbody

theorem ElseBlockTree.action_normal : ∀ (t : ElseBlockTree) (e : Option AST),
    t.action line = .ok e → ∀ a, e = some a → a.Normal
  | .empty, e, h => by
    cases h
    nofun
  | .body body, e, h => by
    simp only [ElseBlockTree.action, bind_eq_ok, pure_eq_ok] at h
    obtain ⟨l, hl, rfl⟩ := h
    rintro _ ⟨⟩
    exact AST.normal_fromStatementsArray (body.action_normal l hl)

end

/-- The tree of an accepted template is normal. -/
theorem RootTree.action_normal {t : RootTree} {a : AST} (h : t.action line = .ok a) :
    a.Normal := by
  cases t with
  | empty =>
    cases h
    exact ⟨by simp, trivial⟩
  | statements l =>
    simp only [action, bind_eq_ok, pure_eq_ok] at h
    obtain ⟨l', hl, rfl⟩ := h
    exact AST.normal_fromStatementsArray (l.action_normal l' hl)

end

/-! ## Passes -/

/-- What a pass must give for a node so that it keeps whole trees normal. -/
def ASTPass.KeepsNormal (p : ASTPass) : Prop :=
  ∀ (process : AST → Run AST) (a a' : AST), (∀ b b', process b = .ok b' → b.Normal → b'.Normal) →
    a.Normal → p.processNode process a = .ok a' →
      a'.ChildrenNormal ∧ (a.isStatements = false → a'.Normal)

theorem spliceStatements_normal {f : AST → Run AST}
    (hf : ∀ b b', f b = .ok b' → b.Normal → b'.Normal) : ∀ {l l' : List AST},
    (∀ s ∈ l, s.Normal) → spliceStatements f l = .ok l' → AST.NormalList l'
  | [], l', _, h => by
    cases h
    trivial
  | s :: l, l', hl, h => by
    simp only [spliceStatements, bind_eq_ok, pure_eq_ok] at h
    obtain ⟨s', hs, l'', hl', rfl⟩ := h
    have hnormal := hf s s' hs (hl s List.mem_cons_self)
    exact AST.normalList_append.2 ⟨AST.normalList_asStatements hnormal,
      spliceStatements_normal hf (fun s h => hl s (List.mem_cons_of_mem _ h)) hl'⟩

theorem mapM_normal {f : AST → Run AST} (hf : ∀ b b', f b = .ok b' → b.Normal → b'.Normal)
    {e e' : Option AST} (he : ∀ b, e = some b → b.Normal) (h : e.mapM f = .ok e') :
    ∀ b, e' = some b → b.Normal := by
  cases e with
  | none =>
    cases h
    nofun
  | some b =>
    rw [Option.mapM_some, map_eq_pure_bind, bind_eq_ok] at h
    obtain ⟨b', hb, h⟩ := h
    cases h
    rintro _ ⟨⟩
    exact hf b b' hb (he b rfl)

theorem AST.normal_ifBlock {c : Expression} {t : AST} {e : Option AST} :
    (ifBlock c t e).Normal ↔ t.Normal ∧ ∀ b, e = some b → b.Normal := by
  cases e <;> simp [Normal]

theorem AST.normal_forBlock {k v : Option Text} {i : Expression} {b : AST} {e : Option AST} :
    (forBlock k v i b e).Normal ↔ b.Normal ∧ ∀ b', e = some b' → b'.Normal := by
  cases e <;> simp [Normal]

/-- A pass keeps trees normal if its `process_node` does. -/
theorem ASTPass.KeepsNormal.process {p : ASTPass} (hp : p.KeepsNormal) : ∀ (n : Nat) (a a' : AST),
    p.process n a = .ok a' → a.Normal → a'.Normal := by
  intro n
  induction n with
  | zero => exact fun a a' h => nomatch h
  | succ n ih =>
    intro a a' h ha
    rw [ASTPass.process, bind_eq_ok] at h
    obtain ⟨new_ast, hnew, h⟩ := h
    obtain ⟨hchildren, hnormal⟩ := hp _ a new_ast ih ha hnew
    cases a with
    | rawBlock _ | printBlock _ | includeBlock _ _ _ =>
      cases h
      exact hnormal rfl
    | statements l =>
      cases new_ast with
      | statements l =>
        simp only [bind_eq_ok, pure_eq_ok] at h
        obtain ⟨l', hl, rfl⟩ := h
        exact AST.normal_fromStatementsArray (spliceStatements_normal ih hchildren hl)
      | _ => exact ih _ a' h hchildren
    | ifBlock c t e =>
      cases new_ast with
      | ifBlock c t e =>
        simp only [bind_eq_ok, pure_eq_ok] at h
        obtain ⟨t', ht, e', he, rfl⟩ := h
        obtain ⟨ht₀, he₀⟩ := AST.normal_ifBlock.1 hchildren
        exact AST.normal_ifBlock.2 ⟨ih t t' ht ht₀, mapM_normal ih he₀ he⟩
      | _ => exact ih _ a' h (hnormal rfl)
    | forBlock k v i b e =>
      cases new_ast with
      | forBlock k v i b e =>
        simp only [bind_eq_ok, pure_eq_ok] at h
        obtain ⟨b', hb, e', he, rfl⟩ := h
        obtain ⟨hb₀, he₀⟩ := AST.normal_forBlock.1 hchildren
        exact AST.normal_forBlock.2 ⟨ih b b' hb hb₀, mapM_normal ih he₀ he⟩
      | _ => exact ih _ a' h (hnormal rfl)

theorem keepsNormal_wrapper (f : Expression → Run Expression) :
    (expressionPassWrapper f).KeepsNormal := by
  intro process a a' _ ha h
  have hnormal : a'.Normal := by
    cases a with
    | statements l | rawBlock t =>
      cases h
      exact ha
    | printBlock e =>
      simp only [expressionPassWrapper, bind_eq_ok, pure_eq_ok] at h
      obtain ⟨e', -, rfl⟩ := h
      trivial
    | includeBlock name scope M =>
      simp only [expressionPassWrapper, bind_eq_ok, pure_eq_ok] at h
      obtain ⟨scope', -, M', -, rfl⟩ := h
      trivial
    | ifBlock c t e =>
      simp only [expressionPassWrapper, bind_eq_ok, pure_eq_ok] at h
      obtain ⟨c', -, rfl⟩ := h
      exact AST.normal_ifBlock.2 (AST.normal_ifBlock.1 ha)
    | forBlock k v i b e =>
      simp only [expressionPassWrapper, bind_eq_ok, pure_eq_ok] at h
      obtain ⟨i', -, rfl⟩ := h
      exact AST.normal_forBlock.2 (AST.normal_forBlock.1 ha)
  exact ⟨hnormal.childrenNormal, fun _ => hnormal⟩

theorem keepsNormal_resolveIncludes {ctx : IncludeContext}
    (hfiles : ∀ f a, ctx.parse f = .ok a → a.Normal) : ctx.resolveIncludesPass.KeepsNormal := by
  intro process a a' hprocess ha h
  have hnormal : a'.Normal := by
    cases a with
    | includeBlock name scope M =>
      simp only [IncludeContext.resolveIncludesPass, bind_eq_ok] at h
      obtain ⟨B, hB, B', hB', h⟩ := h
      have hnormal := hprocess B B' hB' (hfiles _ B hB)
      have hrun : ∀ (g : Expression → Run Expression) (r : AST),
          runPasses [(expressionPassWrapper g).run] B' = .ok r → r.Normal := by
        intro g r hr
        simp only [runPasses, List.foldlM_cons, List.foldlM_nil, bind_pure] at hr
        exact (keepsNormal_wrapper g).process _ B' r hr hnormal
      cases scope with
      | some s => exact hrun _ a' h
      | none => exact hrun _ a' h
    | _ =>
      cases h
      exact ha
  exact ⟨hnormal.childrenNormal, fun _ => hnormal⟩

theorem keepsNormal_convertLiteral : convertLiteralPrintBlockToRawBlockPass.KeepsNormal := by
  intro process a a' _ ha h
  have hnormal : a'.Normal := by
    cases a with
    | printBlock e =>
      cases h
      cases e <;> trivial
    | _ =>
      cases h
      exact ha
  exact ⟨hnormal.childrenNormal, fun _ => hnormal⟩

/-- What comes out of the loop over raw blocks was there or is a raw block. -/
theorem mem_coalesceRawBlocks {s : AST} (l : List AST) :
    s ∈ coalesceRawBlocks l → s ∈ l ∨ ∃ t, s = .rawBlock t := by
  fun_induction coalesceRawBlocks l with
  | case1 => exact fun h => absurd h List.not_mem_nil
  | case2 t l strings ih =>
    intro h
    rcases List.mem_cons.1 h with rfl | h
    · exact .inr ⟨_, rfl⟩
    · rcases ih h with h | h
      · exact .inl (List.mem_cons_of_mem _ ((List.dropWhile_sublist _).subset h))
      · exact .inr h
  | case3 s' l _ ih =>
    intro h
    rcases List.mem_cons.1 h with rfl | h
    · exact .inl List.mem_cons_self
    · rcases ih h with h | h
      · exact .inl (List.mem_cons_of_mem _ h)
      · exact .inr h

theorem keepsNormal_coalesce : coalesceRawBlocksPass.KeepsNormal := by
  intro process a a' _ ha h
  cases a with
  | statements l =>
    cases h
    refine ⟨fun s hs => ?_, nofun⟩
    rcases mem_coalesceRawBlocks l hs with hs | ⟨t, rfl⟩
    · exact ha.childrenNormal s hs
    · trivial
  | _ =>
    cases h
    exact ⟨ha, fun _ => ha⟩

/-! ## The loop over a list of statements -/

/-- `++it` on a `std::list` of `size` nodes. An iterator is the number of nodes before its node;
the end node comes after the last one, and the nodes form a ring. -/
def nextNode (size it : Nat) : Nat := if it = size then 0 else it + 1

/-- `--it`; before the first node comes the end node. -/
def prevNode (size it : Nat) : Nat := if it = 0 then size else it - 1

/-- Every child is inserted before `it`, which is then moved back to the child list's node. -/
def insertChildren (l : List AST) (it : Nat) : List AST → List AST × Nat
  | [] => (l, it)
  | childStatement :: childStatements =>
    insertChildren (l.insertIdx it childStatement) (it + 1) childStatements

section

variable {m : Type → Type} [Monad m]

/-- The loop of `ASTPass::statements`. -/
def statementsLoop (f : AST → m AST) : Nat → List AST → Nat → m (List AST)
  | 0, l, _ => return l
  | n + 1, l, it =>
    if h : it < l.length then do
      let new_statement ← f l[it]
      match new_statement with
      | .statements childStatements =>
        let (l, statementToRemove) :=
          insertChildren (l.set it new_statement) it childStatements
        let l := l.eraseIdx statementToRemove
        let it := prevNode l.length statementToRemove
        statementsLoop f n l (nextNode l.length it)
      | _ => statementsLoop f n (l.set it new_statement) (nextNode l.length it)
    else return l

theorem insertIdx_length (c : AST) (done rest : List AST) :
    (done ++ rest).insertIdx done.length c = (done ++ [c]) ++ rest := by
  induction done with
  | nil => simp
  | cons d done ih => simpa using ih

theorem insertChildren_eq (cs done rest : List AST) :
    insertChildren (done ++ rest) done.length cs =
      (done ++ cs ++ rest, (done ++ cs).length) := by
  induction cs generalizing done with
  | nil => simp [insertChildren]
  | cons c cs ih =>
    have hlength : done.length + 1 = (done ++ [c]).length := by simp
    rw [insertChildren, insertIdx_length, hlength, ih]
    simp

theorem nextNode_prevNode {size it : Nat} (h : it ≤ size) :
    nextNode size (prevNode size it) = it := by
  unfold nextNode prevNode
  split_ifs <;> omega

variable [LawfulMonad m]

/-- The loop processes the statements that are left once each, in order, and splices lists. -/
theorem statementsLoop_append (f : AST → m AST) (rest : List AST) : ∀ (n : Nat) (done : List AST),
    rest.length ≤ n → statementsLoop f n (done ++ rest) done.length =
      (fun l => done ++ l.flatMap AST.asStatements) <$> rest.mapM f := by
  induction rest with
  | nil =>
    intro n done _
    cases n <;> simp [statementsLoop]
  | cons s rest ih =>
    rintro (_ | n) done hn
    · simp at hn
    have hlt : done.length < (done ++ s :: rest).length := by simp
    have hget : (done ++ s :: rest)[done.length] = s := by simp
    have hset : ∀ a, (done ++ s :: rest).set done.length a = done ++ a :: rest := by simp
    rw [statementsLoop, dif_pos hlt, List.mapM_cons, hget, map_bind]
    congr 1
    funext new_statement
    have ih := fun done' => ih n done' (by simpa using hn)
    have hnext : nextNode (done ++ s :: rest).length done.length =
        (done ++ [new_statement]).length := by
      simp [nextNode]
    cases new_statement with
    | statements cs =>
      have hlength : (done ++ cs ++ .statements cs :: rest).eraseIdx (done ++ cs).length =
          done ++ cs ++ rest := by
        simp [List.eraseIdx_append_of_length_le]
      simp only [hset, insertChildren_eq, hlength]
      rw [nextNode_prevNode (by simp), ih]
      simp [AST.asStatements]
    | _ =>
      simp only [hset]
      rw [hnext, List.append_cons, ih]
      simp [AST.asStatements]

/-- Every statement is processed once, in order; a list gives its children, any other tree
itself. -/
theorem statementsLoop_eq (f : AST → m AST) (l : List AST) :
    statementsLoop f l.length l 0 = (List.flatMap AST.asStatements) <$> l.mapM f := by
  simpa using statementsLoop_append f l l.length [] le_rfl

end

/-- The walker's splicing is that loop. -/
theorem spliceStatements_eq_statementsLoop (f : AST → Run AST) (l : List AST) :
    spliceStatements f l = statementsLoop f l.length l 0 := by
  rw [statementsLoop_eq]
  induction l with
  | nil => rfl
  | cons s l ih =>
    rw [spliceStatements, ih, List.mapM_cons]
    simp

/-! ## The pipeline -/

/-- The passes of `optimizeAST`. -/
def optimizePasses (ctx : IncludeContext) : List ASTPass :=
  [ctx.resolveIncludesPass, expressionPassWrapper foldConstantExpressions,
    convertLiteralPrintBlockToRawBlockPass, coalesceRawBlocksPass]

theorem runPasses_normal {passes : List ASTPass} (hpasses : ∀ p ∈ passes, p.KeepsNormal)
    {n : Nat} {a r : AST} (ha : a.Normal)
    (h : runPasses (passes.map (ASTPass.process · n)) a = .ok r) : r.Normal := by
  induction passes generalizing a with
  | nil =>
    cases h
    exact ha
  | cons p passes ih =>
    rw [runPasses, List.map_cons, List.foldlM_cons, bind_eq_ok] at h
    obtain ⟨a', ha', h⟩ := h
    have hp := hpasses p List.mem_cons_self
    exact ih (fun q hq => hpasses q (List.mem_cons_of_mem _ hq)) (hp.process n a a' ha' ha) h

/-- Every file of a context is parsed to a tree the parser accepts. -/
def ParsesFiles (ctx : IncludeContext) : Prop :=
  ∀ f a, ctx.parse f = .ok a → ∃ (t : RootTree) (line : Nat), t.action line = .ok a

theorem keepsNormal_optimizePasses {ctx : IncludeContext} (hctx : ParsesFiles ctx) :
    ∀ p ∈ optimizePasses ctx, p.KeepsNormal := by
  have hfiles : ∀ f a, ctx.parse f = .ok a → a.Normal := by
    intro f a h
    obtain ⟨t, line, ht⟩ := hctx f a h
    exact t.action_normal ht
  simp only [optimizePasses, List.forall_mem_cons]
  exact ⟨keepsNormal_resolveIncludes hfiles, keepsNormal_wrapper _, keepsNormal_convertLiteral,
    keepsNormal_coalesce, nofun⟩

/-- The parser's tree and the tree after each pass that is enabled are normal, and merging a
child's statements keeps their order. -/
theorem normal_throughout {ctx : IncludeContext} (hctx : ParsesFiles ctx) {t : RootTree}
    {line : Nat} {a : AST} (ha : t.action line = .ok a) {passes : List ASTPass}
    (hpasses : passes.Sublist (optimizePasses ctx)) :
    a.Normal ∧
      (∀ before, before <+: passes → ∀ n r,
        runPasses (before.map (ASTPass.process · n)) a = .ok r → r.Normal) ∧
      (∀ (f : AST → Run AST) (l : List AST),
        spliceStatements f l = statementsLoop f l.length l 0) ∧
      ∀ (m : Type → Type) [Monad m] [LawfulMonad m] (f : AST → m AST) (l : List AST),
        statementsLoop f l.length l 0 = (List.flatMap AST.asStatements) <$> l.mapM f := by
  have hnormal := t.action_normal ha
  refine ⟨hnormal, fun before hbefore n r h => ?_, spliceStatements_eq_statementsLoop,
    fun m _ _ f l => statementsLoop_eq f l⟩
  have hkeeps : ∀ p ∈ before, p.KeepsNormal := fun p hp =>
    keepsNormal_optimizePasses hctx p (hpasses.subset (hbefore.subset hp))
  exact runPasses_normal hkeeps hnormal h

/-- `a{{ 1 }}`, for which no file is included. -/
def literalTemplate : RootTree :=
  .statements (.snoc (.one (.rawBlocks (.one ['a']))) (.printBlock (.integerLiteral 1)))

def noFiles : IncludeContext where
  includeBasePath := []
  parse _ := .error (.runtimeError "Couldn't open file".toList)

theorem normal_throughout_literalTemplate :
    (AST.statements [.rawBlock ['a'], .printBlock (.integerLiteral 1)]).Normal ∧
      ∀ r, runPasses ((optimizePasses noFiles).map (ASTPass.process · 5))
        (.statements [.rawBlock ['a'], .printBlock (.integerLiteral 1)]) = .ok r → r.Normal := by
  have hctx : ParsesFiles noFiles := fun _ _ h => nomatch h
  have ha : literalTemplate.action 1 =
      .ok (.statements [.rawBlock ['a'], .printBlock (.integerLiteral 1)]) := rfl
  have h := normal_throughout hctx ha (List.Sublist.refl _)
  exact ⟨h.1, h.2.1 _ (List.prefix_refl _) 5⟩

end B2
