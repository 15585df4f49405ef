import B2.Passes.Coalescing
import B2.Passes.FoldConstants
import B2.Passes.IncludeFree
import B2.Php.LiteralPrints

/-!
# The pipeline

`optimizeAST` with the flags that enable its passes. A pass leaves a tree alone
when its `process_node` returns every node as it is (`ASTPass.Leaves`), and the
walker then returns the tree. Each pass leaves its own results, the passes that
run after it keep them so, and therefore what `optimizeAST` returns is a fixed
point of every sequence of the enabled passes.
-/

namespace B2

/-- The passes that are enabled. -/
structure PassFlags where
  enable_resolve_includes_pass : Bool := true
  enable_constant_folding_pass : Bool := true
  enable_literal_print_block_to_raw_block_conversion_pass : Bool := true
  enable_raw_block_coalescing_pass : Bool := true

/-- The passes that `optimizeAST` adds to its pass manager. -/
def PassFlags.passes (flags : PassFlags) (ctx : IncludeContext) : List ASTPass :=
  (if flags.enable_resolve_includes_pass then [ctx.resolveIncludesPass] else []) ++
  (if flags.enable_constant_folding_pass then
    [expressionPassWrapper foldConstantExpressions] else []) ++
  (if flags.enable_literal_print_block_to_raw_block_conversion_pass then
    [convertLiteralPrintBlockToRawBlockPass] else []) ++
  (if flags.enable_raw_block_coalescing_pass then [coalesceRawBlocksPass] else [])

/-- `optimizeAST`, its walkers bounded by `n` nested calls. -/
def optimizeAST (ctx : IncludeContext) (flags : PassFlags) (n : Nat) (a : AST) : Run AST :=
  runPasses ((flags.passes ctx).map (ASTPass.process · n)) a

theorem PassFlags.passes_all (ctx : IncludeContext) :
    ({} : PassFlags).passes ctx = optimizePasses ctx := rfl

/-! ## Nodes of a tree -/

namespace AST

/-- The statements and bodies right below a node. -/
def children : AST → List AST
  | .statements l => l
  | .ifBlock _ t e => t :: e.toList
  | .forBlock _ _ _ b e => b :: e.toList
  | .rawBlock _ | .printBlock _ | .includeBlock .. => []

/-- `b` is the tree `a` or stands somewhere below it. -/
inductive HasNode (a : AST) : AST → Prop
  | root : HasNode a a
  | child {b c} (hb : HasNode a b) (hc : c ∈ b.children) : HasNode a c

theorem HasNode.trans {a b c : AST} (hab : a.HasNode b) (hbc : b.HasNode c) : a.HasNode c := by
  induction hbc with
  | root => exact hab
  | child _ hc ih => exact .child ih hc

theorem hasNode_child {a c : AST} (h : c ∈ a.children) : a.HasNode c := .child .root h

/-- What every node hands down to its children holds of all nodes. -/
theorem HasNode.inherits {H : AST → Prop} (hH : ∀ b, H b → ∀ c ∈ b.children, H c) {a b : AST}
    (hab : a.HasNode b) (ha : H a) : H b := by
  induction hab with
  | root => exact ha
  | child _ hc ih => exact hH _ ih _ hc

theorem forall_mem_bodies {H : AST → Prop} {b : AST} {e : Option AST} :
    (∀ c ∈ b :: e.toList, H c) ↔ H b ∧ ∀ c, e = some c → H c := by
  simp [Option.mem_toList]

theorem listDepth_le_iff {l : List AST} {n : Nat} : listDepth l ≤ n ↔ ∀ s ∈ l, s.depth ≤ n := by
  induction l with
  | nil => simp [listDepth]
  | cons s l ih => rw [listDepth, max_le_iff, ih, List.forall_mem_cons]

theorem depth_le_succ_iff {a : AST} {n : Nat} :
    a.depth ≤ n + 1 ↔ ∀ c ∈ a.children, c.depth ≤ n := by
  cases a with
  | statements l =>
    rw [depth, Nat.add_le_add_iff_right]
    exact listDepth_le_iff
  | ifBlock c t e => cases e <;> simp [depth, children]
  | forBlock k v i b e => cases e <;> simp [depth, children]
  | rawBlock _ | printBlock _ | includeBlock _ _ _ => simp [depth, children]

theorem normal_children (b : AST) (h : b.Normal) : ∀ c ∈ b.children, c.Normal := by
  cases b with
  | statements l => exact fun c hc => (normalList_iff.1 h.2 c hc).2
  | ifBlock b t e => exact forall_mem_bodies.2 (normal_ifBlock.1 h)
  | forBlock k v i b e => exact forall_mem_bodies.2 (normal_forBlock.1 h)
  | rawBlock _ | printBlock _ | includeBlock _ _ _ => exact List.forall_mem_nil _

theorem everywhere_children {P Q : Expression → Prop}
    {I : Text → Option Expression → StringExpressionMap → Prop} (b : AST)
    (h : b.Everywhere P Q I) : ∀ c ∈ b.children, c.Everywhere P Q I := by
  cases b with
  | statements l => exact everywhereList_iff.1 h
  | ifBlock b t e => exact forall_mem_bodies.2 (everywhere_ifBlock.1 h).2
  | forBlock k v i b e => exact forall_mem_bodies.2 (everywhere_forBlock.1 h).2.2
  | rawBlock _ | printBlock _ | includeBlock _ _ _ => exact List.forall_mem_nil _

theorem coalesced_ifBlock {c : Expression} {t : AST} {e : Option AST} :
    (ifBlock c t e).Coalesced ↔ t.Coalesced ∧ ∀ b, e = some b → b.Coalesced := by
  cases e <;> simp [Coalesced]

theorem coalesced_forBlock {k v : Option Text} {i : Expression} {b : AST} {e : Option AST} :
    (forBlock k v i b e).Coalesced ↔ b.Coalesced ∧ ∀ b', e = some b' → b'.Coalesced := by
  cases e <;> simp [Coalesced]

theorem coalesced_children (b : AST) (h : b.Coalesced) : ∀ c ∈ b.children, c.Coalesced := by
  cases b with
  | statements l => exact coalescedList_iff.1 h.2
  | ifBlock b t e => exact forall_mem_bodies.2 (coalesced_ifBlock.1 h)
  | forBlock k v i b e => exact forall_mem_bodies.2 (coalesced_forBlock.1 h)
  | rawBlock _ | printBlock _ | includeBlock _ _ _ => exact List.forall_mem_nil _

end AST

/-! ## Passes that change nothing -/

/-- `process_node` returns every node of the tree as it is. -/
def ASTPass.Leaves (p : ASTPass) (a : AST) : Prop :=
  ∀ (process : AST → Run AST) (b : AST), a.HasNode b → p.processNode process b = .ok b

theorem spliceStatements_of_fixed {f : AST → Run AST} {l : List AST} (hf : ∀ s ∈ l, f s = .ok s)
    (hl : ∀ s ∈ l, s.isStatements = false) : spliceStatements f l = .ok l := by
  induction l with
  | nil => rfl
  | cons s l ih =>
    have hs : s.asStatements = [s] := by
      cases s with
      | statements l' => exact absurd (hl _ List.mem_cons_self) Bool.true_eq_false.mp
      | _ => rfl
    have hrest := ih (fun s' hs' => hf s' (List.mem_cons_of_mem _ hs'))
      fun s' hs' => hl s' (List.mem_cons_of_mem _ hs')
    rw [spliceStatements, hf s List.mem_cons_self, hrest]
    show Except.ok (s.asStatements ++ l) = _
    rw [hs, List.singleton_append]

theorem fromStatementsArray_of_normal {l : List AST} (h : (AST.statements l).Normal) :
    AST.fromStatementsArray l = .statements l := by
  cases l with
  | nil => rfl
  | cons s l =>
    cases l with
    | nil => exact absurd rfl h.1
    | cons s' l => rfl

theorem mapM_of_fixed {f : AST → Run AST} {e : Option AST} (h : ∀ b ∈ e.toList, f b = .ok b) :
    e.mapM f = .ok e := by
  cases e with
  | none => rfl
  | some b =>
    rw [Option.mapM_some, h b List.mem_cons_self]
    rfl

namespace ASTPass.Leaves

variable {p : ASTPass} {a : AST}

theorem child {c : AST} (h : p.Leaves a) (hc : c ∈ a.children) : p.Leaves c :=
  fun process b hb => h process b ((AST.hasNode_child hc).trans hb)

/-- The walker returns what its pass leaves alone. -/
theorem process (h : p.Leaves a) (ha : a.Normal) {n : Nat} (hn : a.depth ≤ n) :
    p.process n a = .ok a := by
  induction n generalizing a with
  | zero =>
    have := a.depth_pos
    omega
  | succ n ih =>
    have hnode := h (p.process n) a .root
    have hchild : ∀ c ∈ a.children, p.process n c = .ok c := by
      intro c hc
      have hdepth := AST.depth_le_succ_iff.1 hn c hc
      exact ih (h.child hc) (a.normal_children ha c hc) hdepth
    rw [ASTPass.process, hnode]
    cases a with
    | rawBlock _ | printBlock _ | includeBlock _ _ _ => rfl
    | statements l =>
      have hl : spliceStatements (p.process n) l = .ok l :=
        spliceStatements_of_fixed hchild fun s hs => (AST.normalList_iff.1 ha.2 s hs).1
      show (spliceStatements (p.process n) l >>= fun l' => pure (AST.fromStatementsArray l')) = _
      rw [hl]
      show Except.ok (AST.fromStatementsArray l) = _
      rw [fromStatementsArray_of_normal ha]
    | ifBlock c t e =>
      have ht := hchild t List.mem_cons_self
      have he := mapM_of_fixed fun b hb => hchild b (List.mem_cons_of_mem _ hb)
      show (p.process n t >>= fun t' => e.mapM (p.process n) >>= fun e' =>
        pure (AST.ifBlock c t' e')) = _
      rw [ht, he]
      rfl
    | forBlock k v i b e =>
      have hb := hchild b List.mem_cons_self
      have he := mapM_of_fixed fun b hb => hchild b (List.mem_cons_of_mem _ hb)
      show (p.process n b >>= fun b' => e.mapM (p.process n) >>= fun e' =>
        pure (AST.forBlock k v i b' e')) = _
      rw [hb, he]
      rfl

/-- Passes that leave a tree alone do so in every order and any number of times. -/
theorem runPasses {passes : List ASTPass} (h : ∀ p ∈ passes, p.Leaves a) (ha : a.Normal) {n : Nat}
    (hn : a.depth ≤ n) : B2.runPasses (passes.map (ASTPass.process · n)) a = .ok a := by
  induction passes with
  | nil => rfl
  | cons p passes ih =>
    have hp := (h p List.mem_cons_self).process ha hn
    have hrest := ih fun q hq => h q (List.mem_cons_of_mem _ hq)
    show (p.process n a >>= B2.runPasses (passes.map (ASTPass.process · n))) = _
    rw [hp]
    exact hrest

end ASTPass.Leaves

/-! ## What each pass leaves -/

namespace AST

/-- What `foldConstantExpressions` returns as it is, everywhere in the tree. -/
def Folded : AST → Prop :=
  Everywhere (fun e => foldConstantExpressions e = .ok e) (fun _ => True)
    (OfArguments (fun e => foldConstantExpressions e = .ok e) fun _ => True)

/-- No print block prints a literal. -/
def PrintsNoLiteral (a : AST) : Prop := ∀ e ∈ a.printed, isLiteralExpression e = false

theorem mem_printedList {e : Expression} {l : List AST} :
    e ∈ printedList l ↔ ∃ s ∈ l, e ∈ s.printed := by
  induction l with
  | nil => simp [printedList]
  | cons s l ih => simp [printedList, ih]

theorem printed_children (b : AST) : ∀ c ∈ b.children, c.printed ⊆ b.printed := by
  cases b with
  | statements l => exact fun c hc e he => mem_printedList.2 ⟨c, hc, he⟩
  | ifBlock b t e =>
    cases e with
    | none => exact List.forall_mem_singleton.2 (List.Subset.refl _)
    | some e =>
      refine forall_mem_bodies.2 ⟨List.subset_append_left _ _, ?_⟩
      rintro _ ⟨⟩
      exact List.subset_append_right _ _
  | forBlock k v i b e =>
    cases e with
    | none => exact List.forall_mem_singleton.2 (List.Subset.refl _)
    | some e =>
      refine forall_mem_bodies.2 ⟨List.subset_append_left _ _, ?_⟩
      rintro _ ⟨⟩
      exact List.subset_append_right _ _
  | rawBlock _ | printBlock _ | includeBlock _ _ _ => exact List.forall_mem_nil _

end AST

theorem mapEntries_of_fixed {f : Expression → Run Expression} {l : List (Text × Expression)}
    (h : ∀ x ∈ l, f x.2 = .ok x.2) : StringExpressionMap.mapEntries f l = .ok ⟨l, rfl⟩ := by
  induction l with
  | nil => rfl
  | cons x l ih =>
    have hx := h x List.mem_cons_self
    have hl := ih fun y hy => h y (List.mem_cons_of_mem _ hy)
    rw [StringExpressionMap.mapEntries, hx, hl]
    rfl

section

variable {a : AST}

theorem leaves_resolveIncludes {ctx : IncludeContext} (h : a.IncludeFree) :
    ctx.resolveIncludesPass.Leaves a := by
  intro process b hb
  have hnode := hb.inherits AST.everywhere_children ((AST.includeFree_iff_everywhere a).1 h)
  cases b with
  | includeBlock name scope M => exact absurd hnode id
  | _ => rfl

theorem leaves_wrapper (h : a.Folded) :
    (expressionPassWrapper foldConstantExpressions).Leaves a := by
  intro process b hb
  have hnode := hb.inherits AST.everywhere_children h
  cases b with
  | statements l | rawBlock t => rfl
  | printBlock e =>
    show (foldConstantExpressions e >>= fun e' => pure (AST.printBlock e')) = _
    rw [show foldConstantExpressions e = .ok e from hnode]
    rfl
  | ifBlock c t e =>
    obtain ⟨hc, -⟩ := AST.everywhere_ifBlock.1 hnode
    show (foldConstantExpressions c >>= fun c' => pure (AST.ifBlock c' t e)) = _
    rw [hc]
    rfl
  | forBlock k v i b e =>
    obtain ⟨hi, -⟩ := AST.everywhere_forBlock.1 hnode
    show (foldConstantExpressions i >>= fun i' => pure (AST.forBlock k v i' b e)) = _
    rw [hi]
    rfl
  | includeBlock name scope M =>
    obtain ⟨hscope, hM⟩ : AST.OfArguments _ _ name scope M := hnode
    have hs : scope.mapM foldConstantExpressions = .ok scope := by
      cases scope with
      | none => rfl
      | some s =>
        rw [Option.mapM_some, (hscope s rfl).1]
        rfl
    have hvalues : M.mapValues foldConstantExpressions = .ok M := by
      rw [StringExpressionMap.mapValues, mapEntries_of_fixed hM]
      rfl
    show (scope.mapM foldConstantExpressions >>= fun scope' =>
      M.mapValues foldConstantExpressions >>= fun M' =>
        pure (AST.includeBlock name scope' M')) = _
    rw [hs, hvalues]
    rfl

theorem leaves_convertLiteral (h : a.PrintsNoLiteral) :
    convertLiteralPrintBlockToRawBlockPass.Leaves a := by
  intro process b hb
  have hnode : b.PrintsNoLiteral := by
    refine hb.inherits (H := AST.PrintsNoLiteral) (fun b hb c hc e he => ?_) h
    exact hb e (b.printed_children c hc he)
  cases b with
  | printBlock e =>
    have he := hnode e (List.mem_singleton_self e)
    show Except.ok (convertLiteralPrintBlock e) = _
    cases e with
    | doubleLiteral _ | integerLiteral _ | booleanLiteral _ | stringLiteral _ => cases he
    | _ => rfl
  | _ => rfl

theorem leaves_coalesce (h : a.Coalesced) : coalesceRawBlocksPass.Leaves a := by
  intro process b hb
  have hnode := hb.inherits AST.coalesced_children h
  cases b with
  | statements l =>
    show Except.ok (AST.statements (coalesceRawBlocks l)) = _
    rw [coalesceRawBlocks_of_isChain hnode.1]
  | _ => rfl

end

/-! ## What each pass establishes -/

theorem spliceStatements_visits {f : AST → Run AST} {l l' : List AST}
    (h : spliceStatements f l = .ok l') : ∀ s ∈ l, ∃ s', f s = .ok s' := by
  induction l generalizing l' with
  | nil =>
    intro s hs
    cases hs
  | cons s l ih =>
    simp only [spliceStatements, bind_eq_ok, pure_eq_ok] at h
    obtain ⟨s', hs, l'', hl, -⟩ := h
    exact List.forall_mem_cons.2 ⟨⟨s', hs⟩, ih hl⟩

theorem mapM_visits {f : AST → Run AST} {e e' : Option AST} (h : e.mapM f = .ok e') :
    ∀ b, e = some b → ∃ b', f b = .ok b' := by
  rintro b rfl
  rw [Option.mapM_some, map_eq_pure_bind, bind_eq_ok] at h
  obtain ⟨b', hb, -⟩ := h
  exact ⟨b', hb⟩

/-- A pass whose `process_node` keeps the height of every node visits the whole tree. -/
theorem ASTPass.depth_le_of_process {p : ASTPass}
    (hp : ∀ process b b', p.processNode process b = .ok b' → b'.depth = b.depth) {n : Nat} :
    ∀ {a r : AST}, p.process n a = .ok r → a.depth ≤ n := by
  induction n with
  | zero =>
    intro a r h
    cases h
  | succ n ih =>
    intro a r h
    rw [process, bind_eq_ok] at h
    obtain ⟨new_ast, hnew, h⟩ := h
    rw [← hp _ _ _ hnew]
    have hagain : ∀ {r}, p.process n new_ast = .ok r → new_ast.depth ≤ n + 1 :=
      fun h => (ih h).trans (Nat.le_succ n)
    cases a with
    | rawBlock _ | printBlock _ | includeBlock _ _ _ =>
      rw [hp _ _ _ hnew]
      exact Nat.succ_le_succ (Nat.zero_le n)
    | statements l =>
      cases new_ast with
      | statements l =>
        obtain ⟨l', hl, -⟩ := bind_eq_ok.1 h
        apply AST.depth_le_succ_iff.2
        intro s hs
        obtain ⟨s', hs'⟩ := spliceStatements_visits hl s hs
        exact ih hs'
      | _ => exact hagain h
    | ifBlock c t e =>
      cases new_ast with
      | ifBlock c t e =>
        obtain ⟨t', ht, h⟩ := bind_eq_ok.1 h
        obtain ⟨e', he, -⟩ := bind_eq_ok.1 h
        refine AST.depth_le_succ_iff.2 (AST.forall_mem_bodies.2 ⟨ih ht, fun b hb => ?_⟩)
        obtain ⟨b', hb'⟩ := mapM_visits he b hb
        exact ih hb'
      | _ => exact hagain h
    | forBlock k v i b e =>
      cases new_ast with
      | forBlock k v i b e =>
        obtain ⟨b', hb, h⟩ := bind_eq_ok.1 h
        obtain ⟨e', he, -⟩ := bind_eq_ok.1 h
        refine AST.depth_le_succ_iff.2 (AST.forall_mem_bodies.2 ⟨ih hb, fun b hb => ?_⟩)
        obtain ⟨b', hb'⟩ := mapM_visits he b hb
        exact ih hb'
      | _ => exact hagain h

theorem depth_wrapper {f : Expression → Run Expression} {process : AST → Run AST} {b b' : AST}
    (h : (expressionPassWrapper f).processNode process b = .ok b') : b'.depth = b.depth := by
  cases b with
  | statements _ | rawBlock _ =>
    cases h
    rfl
  | printBlock e =>
    obtain ⟨e', -, h⟩ := bind_eq_ok.1 h
    cases h
    rfl
  | includeBlock name scope M =>
    obtain ⟨scope', -, h⟩ := bind_eq_ok.1 h
    obtain ⟨M', -, h⟩ := bind_eq_ok.1 h
    cases h
    rfl
  | ifBlock c t e =>
    obtain ⟨c', -, h⟩ := bind_eq_ok.1 h
    cases h
    cases e <;> rfl
  | forBlock k v i b e =>
    obtain ⟨i', -, h⟩ := bind_eq_ok.1 h
    cases h
    cases e <;> rfl

theorem depth_convertLiteral {process : AST → Run AST} {b b' : AST}
    (h : convertLiteralPrintBlockToRawBlockPass.processNode process b = .ok b') :
    b'.depth = b.depth := by
  cases b with
  | printBlock e =>
    cases h
    cases e <;> rfl
  | _ =>
    cases h
    rfl

theorem listDepth_coalesceRawBlocks (l : List AST) :
    AST.listDepth (coalesceRawBlocks l) = AST.listDepth l := by
  induction l using rawRuns_induct with
  | nil => rw [coalesceRawBlocks]
  | other s l hs ih => rw [coalesceRawBlocks_other hs, AST.listDepth, AST.listDepth, ih]
  | raw t => rw [coalesceRawBlocks_raw_nil]
  | merge t u l ih =>
    rw [coalesceRawBlocks_raw_raw, ih]
    show max 1 (AST.listDepth l) = max 1 (max 1 (AST.listDepth l))
    omega
  | last t s l hs ih =>
    rw [coalesceRawBlocks_raw_other hs]
    simp only [AST.listDepth, ih]

theorem depth_coalesce {process : AST → Run AST} {b b' : AST}
    (h : coalesceRawBlocksPass.processNode process b = .ok b') : b'.depth = b.depth := by
  cases b with
  | statements l =>
    cases h
    rw [AST.depth, AST.depth, listDepth_coalesceRawBlocks]
  | _ =>
    cases h
    rfl

namespace AST

theorem printedList_append {l l' : List AST} :
    printedList (l ++ l') = printedList l ++ printedList l' := by
  induction l with
  | nil => rfl
  | cons s l ih =>
    show s.printed ++ printedList (l ++ l') = s.printed ++ printedList l ++ printedList l'
    rw [ih, List.append_assoc]

theorem printedList_asStatements {a : AST} : printedList a.asStatements = a.printed := by
  cases a <;> first | rfl | exact List.append_nil _

theorem printed_fromStatementsArray {l : List AST} :
    (fromStatementsArray l).printed = printedList l := by
  cases l with
  | nil => rfl
  | cons s l =>
    cases l with
    | nil => exact (List.append_nil _).symm
    | cons s' l => rfl

theorem printsNoLiteral_convertLiteral (e : Expression) :
    (convertLiteralPrintBlock e).PrintsNoLiteral := by
  intro e' he
  cases e with
  | doubleLiteral _ | integerLiteral _ | booleanLiteral _ | stringLiteral _ => cases he
  | _ =>
    obtain rfl := List.mem_singleton.1 he
    rfl

theorem converted_printsNoLiteral (a : AST) : a.converted.PrintsNoLiteral := by
  induction a with
  | statements l ih =>
    unfold PrintsNoLiteral
    rw [converted, printed_fromStatementsArray]
    induction l with
    | nil =>
      intro e he
      cases he
    | cons s l ihl =>
      rw [convertedList, printedList_append, printedList_asStatements]
      exact List.forall_mem_append.2 ⟨ih s List.mem_cons_self,
        ihl fun s' hs' => ih s' (List.mem_cons_of_mem _ hs')⟩
  | rawBlock _ | includeBlock _ _ _ =>
    intro e he
    cases he
  | printBlock e => exact printsNoLiteral_convertLiteral e
  | ifBlock c t e iht ihe =>
    cases e with
    | none => exact iht
    | some e => exact List.forall_mem_append.2 ⟨iht, ihe e rfl⟩
  | forBlock k v i b e ihb ihe =>
    cases e with
    | none => exact ihb
    | some e => exact List.forall_mem_append.2 ⟨ihb, ihe e rfl⟩

theorem printedList_coalesceRawBlocks (l : List AST) :
    printedList (coalesceRawBlocks l) = printedList l := by
  induction l using rawRuns_induct with
  | nil => rw [coalesceRawBlocks]
  | other s l hs ih => rw [coalesceRawBlocks_other hs, printedList, printedList, ih]
  | raw t => rw [coalesceRawBlocks_raw_nil]
  | merge t u l ih =>
    rw [coalesceRawBlocks_raw_raw, ih]
    rfl
  | last t s l hs ih =>
    rw [coalesceRawBlocks_raw_other hs]
    simp only [printedList, ih]

theorem printed_coalesced (a : AST) : a.coalesced.printed = a.printed := by
  induction a with
  | statements l ih =>
    rw [coalesced, printed_fromStatementsArray, printedList_coalesceRawBlocks]
    show printedList (coalescedList l) = printedList l
    induction l with
    | nil => rfl
    | cons s l ihl =>
      rw [coalescedList, printedList, printedList, ih s List.mem_cons_self,
        ihl fun s' hs' => ih s' (List.mem_cons_of_mem _ hs')]
  | rawBlock _ | printBlock _ | includeBlock _ _ _ => rfl
  | ifBlock c t e iht ihe =>
    cases e with
    | none => exact iht
    | some e => exact congrArg₂ (· ++ ·) iht (ihe e rfl)
  | forBlock k v i b e ihb ihe =>
    cases e with
    | none => exact ihb
    | some e => exact congrArg₂ (· ++ ·) ihb (ihe e rfl)

end AST

section

variable {ctx : IncludeContext} {n : Nat} {a r : AST}

theorem includeFree_of_process (h : ctx.resolveIncludesPass.process n a = .ok r) : r.IncludeFree :=
  AST.expand_includeFree ctx n a r (ctx.process_eq_expand n a r h)

/-- The pass does not change a normal tree without include blocks. -/
theorem eq_of_process_includeFree (hfree : a.IncludeFree) (ha : a.Normal)
    (h : ctx.resolveIncludesPass.process n a = .ok r) : r = a := by
  have hmore : ∀ k, a.expand ctx (n + k) = .ok r := by
    intro k
    induction k with
    | zero => exact ctx.process_eq_expand n a r h
    | succ k ih => exact AST.expand_succ ctx (n + k) a r ih
  have hleft := (leaves_resolveIncludes hfree : ctx.resolveIncludesPass.Leaves a).process ha
    (Nat.le_add_left a.depth n)
  have hsame := ctx.process_eq_expand _ a a hleft
  rw [hmore] at hsame
  exact Except.ok.inj hsame

theorem folded_of_process
    (h : (expressionPassWrapper foldConstantExpressions).process n a = .ok r) : r.Folded := by
  have hstable : ∀ e e', foldConstantExpressions e = .ok e' →
      (foldConstantExpressions e' = .ok e' ↔ True) := by
    intro e e' he
    rw [foldConstantExpressions_eq_fold] at he ⊢
    exact iff_true_intro (Expr.fold_stable e e' he).1
  rw [ASTPass.process_eq_mapExpressions _ _ _
    (ASTPass.depth_le_of_process (fun _ _ _ => depth_wrapper) h)] at h
  refine (AST.mapExpressions_everywhere hstable (fun _ _ _ => Iff.rfl)
    (AST.ofArguments_iff hstable fun _ _ _ => Iff.rfl) a r h).2 ?_
  refine (AST.everywhere_true a).mono (fun _ => id) (fun _ => id) fun name scope M _ => ?_
  exact ⟨fun _ _ => ⟨trivial, trivial⟩, fun _ _ => trivial⟩

theorem converted_of_process (h : convertLiteralPrintBlockToRawBlockPass.process n a = .ok r) :
    r = a.converted := by
  rw [AST.process_convertLiteral a n
    (ASTPass.depth_le_of_process (fun _ _ _ => depth_convertLiteral) h)] at h
  exact (Except.ok.inj h).symm

theorem coalesced_of_process (ha : a.Normal) (h : coalesceRawBlocksPass.process n a = .ok r) :
    r = a.coalesced := by
  rw [process_coalesce a n ha (ASTPass.depth_le_of_process (fun _ _ _ => depth_coalesce) h)] at h
  exact (Except.ok.inj h).symm

end

/-! ## Results of `optimizeAST` -/

/-- A pass that runs if it is enabled. -/
def RunsIf (enabled : Bool) (p : ASTPass) (n : Nat) (a r : AST) : Prop :=
  if enabled then p.process n a = .ok r else r = a

theorem runPasses_optional {enabled : Bool} {p : ASTPass} {passes : List ASTPass} {n : Nat}
    {a r : AST} (h : runPasses (((if enabled then [p] else []) ++ passes).map
      (ASTPass.process · n)) a = .ok r) :
    ∃ a', RunsIf enabled p n a a' ∧ runPasses (passes.map (ASTPass.process · n)) a' = .ok r := by
  cases enabled with
  | false => exact ⟨a, rfl, h⟩
  | true =>
    obtain ⟨a', ha', h⟩ := bind_eq_ok.1 h
    exact ⟨a', ha', h⟩

/-- The runs that lead from the tree to the result. -/
theorem optimizeAST_runs {ctx : IncludeContext} {flags : PassFlags} {n : Nat} {a r : AST}
    (h : optimizeAST ctx flags n a = .ok r) : ∃ a₁ a₂ a₃,
      RunsIf flags.enable_resolve_includes_pass ctx.resolveIncludesPass n a a₁ ∧
      RunsIf flags.enable_constant_folding_pass (expressionPassWrapper foldConstantExpressions)
        n a₁ a₂ ∧
      RunsIf flags.enable_literal_print_block_to_raw_block_conversion_pass
        convertLiteralPrintBlockToRawBlockPass n a₂ a₃ ∧
      RunsIf flags.enable_raw_block_coalescing_pass coalesceRawBlocksPass n a₃ r := by
  unfold optimizeAST PassFlags.passes at h
  simp only [List.append_assoc] at h
  obtain ⟨a₁, h₁, h⟩ := runPasses_optional h
  obtain ⟨a₂, h₂, h⟩ := runPasses_optional h
  obtain ⟨a₃, h₃, h⟩ := runPasses_optional h
  rw [← List.append_nil (ite _ _ _)] at h
  obtain ⟨r', h₄, h⟩ := runPasses_optional h
  cases h
  exact ⟨a₁, a₂, a₃, h₁, h₂, h₃, h₄⟩

theorem RunsIf.keeps {X : AST → Prop} {enabled : Bool} {p : ASTPass} {n : Nat} {a r : AST}
    (h : RunsIf enabled p n a r) (hp : p.process n a = .ok r → X a → X r) (ha : X a) : X r := by
  cases enabled with
  | false =>
    obtain rfl : r = a := h
    exact ha
  | true => exact hp h ha

/-- A tree that the enabled passes leave alone. -/
structure AST.Optimised (flags : PassFlags) (a : AST) : Prop where
  normal : a.Normal
  includeFree : flags.enable_resolve_includes_pass = true → a.IncludeFree
  folded : flags.enable_constant_folding_pass = true → a.Folded
  printsNoLiteral :
    flags.enable_literal_print_block_to_raw_block_conversion_pass = true → a.PrintsNoLiteral
  coalesced : flags.enable_raw_block_coalescing_pass = true → a.Coalesced

theorem AST.Optimised.leaves {flags : PassFlags} {a : AST} (h : a.Optimised flags)
    (ctx : IncludeContext) : ∀ p ∈ flags.passes ctx, p.Leaves a := by
  unfold PassFlags.passes
  simp only [List.forall_mem_append]
  refine ⟨⟨⟨?_, ?_⟩, ?_⟩, ?_⟩
  · split_ifs with henabled
    · exact List.forall_mem_singleton.2 (leaves_resolveIncludes (h.includeFree henabled))
    · exact List.forall_mem_nil _
  · split_ifs with henabled
    · exact List.forall_mem_singleton.2 (leaves_wrapper (h.folded henabled))
    · exact List.forall_mem_nil _
  · split_ifs with henabled
    · exact List.forall_mem_singleton.2 (leaves_convertLiteral (h.printsNoLiteral henabled))
    · exact List.forall_mem_nil _
  · split_ifs with henabled
    · exact List.forall_mem_singleton.2 (leaves_coalesce (h.coalesced henabled))
    · exact List.forall_mem_nil _

theorem optimised_of_optimizeAST {ctx : IncludeContext} (hctx : ParsesFiles ctx)
    {flags : PassFlags} {n : Nat} {a r : AST} (ha : a.Normal)
    (h : optimizeAST ctx flags n a = .ok r) : r.Optimised flags := by
  obtain ⟨a₁, a₂, a₃, h₁, h₂, h₃, h₄⟩ := optimizeAST_runs h
  have hkeeps := keepsNormal_optimizePasses hctx
  simp only [optimizePasses, List.forall_mem_cons] at hkeeps
  obtain ⟨hk₁, hk₂, hk₃, hk₄, -⟩ := hkeeps
  have hn₁ : a₁.Normal := h₁.keeps (fun h => hk₁.process n a a₁ h) ha
  have hn₂ : a₂.Normal := h₂.keeps (fun h => hk₂.process n a₁ a₂ h) hn₁
  have hn₃ : a₃.Normal := h₃.keeps (fun h => hk₃.process n a₂ a₃ h) hn₂
  refine ⟨h₄.keeps (fun h => hk₄.process n a₃ r h) hn₃, fun henabled => ?_, fun henabled => ?_,
    fun henabled => ?_, fun henabled => ?_⟩
  · rw [henabled] at h₁
    have hfree := (AST.includeFree_iff_everywhere a₁).1 (includeFree_of_process h₁)
    rw [AST.includeFree_iff_everywhere]
    have hfree₂ := h₂.keeps (fun h => (keeps_wrapper (fun _ _ _ => id) (fun _ _ _ => id)
      fun _ _ _ => id).process n a₁ a₂ h) hfree
    have hfree₃ := h₃.keeps (fun h => keeps_convertLiteral.process n a₂ a₃ h) hfree₂
    exact h₄.keeps (fun h => keeps_coalesce.process n a₃ r h) hfree₃
  · rw [henabled] at h₂
    have hfolded := folded_of_process h₂
    have hfolded₃ := h₃.keeps (fun h => keeps_convertLiteral.process n a₂ a₃ h) hfolded
    exact h₄.keeps (fun h => keeps_coalesce.process n a₃ r h) hfolded₃
  · rw [henabled] at h₃
    have hprints : a₃.PrintsNoLiteral := by
      rw [converted_of_process h₃]
      exact a₂.converted_printsNoLiteral
    refine h₄.keeps (X := AST.PrintsNoLiteral) (fun h hprints => ?_) hprints
    rw [coalesced_of_process hn₃ h]
    unfold AST.PrintsNoLiteral
    rw [AST.printed_coalesced]
    exact hprints
  · rw [henabled] at h₄
    rw [coalesced_of_process hn₃ h₄]
    exact a₃.coalesced_coalesced hn₃

/-- What `optimizeAST` makes of a template is left alone by every sequence of enabled passes. -/
theorem optimizeAST_stable {ctx : IncludeContext} (hctx : ParsesFiles ctx) {t : RootTree}
    {line : Nat} {a : AST} (ha : t.action line = .ok a) {flags : PassFlags} {n : Nat} {r : AST}
    (h : optimizeAST ctx flags n a = .ok r) {passes : List ASTPass}
    (hpasses : passes ⊆ flags.passes ctx) {m : Nat} (hm : r.depth ≤ m) :
    runPasses (passes.map (ASTPass.process · m)) r = .ok r := by
  have hoptimised := optimised_of_optimizeAST hctx (t.action_normal ha) h
  have hleaves := hoptimised.leaves ctx
  exact ASTPass.Leaves.runPasses (fun p hp => hleaves p (hpasses hp)) hoptimised.normal hm

theorem optimizeAST_literalTemplate :
    optimizeAST noFiles {} 5 (.statements [.rawBlock ['a'], .printBlock (.integerLiteral 1)]) =
      .ok (.rawBlock ['a', '1']) := by
  have hmerge : coalesceRawBlocks [.rawBlock ['a'], .rawBlock ['1']] =
      [.rawBlock ['a', '1']] := by
    rw [coalesceRawBlocks_raw_raw, coalesceRawBlocks_raw_nil]
    rfl
  have hcoalesce : coalesceRawBlocksPass.process 5
      (.statements [.rawBlock ['a'], .rawBlock ['1']]) = .ok (.rawBlock ['a', '1']) := by
    show (pure (AST.statements (coalesceRawBlocks _)) >>= _ : Run AST) = _
    rw [hmerge]
    rfl
  have hconvert : convertLiteralPrintBlockToRawBlockPass.process 5
      (.statements [.rawBlock ['a'], .printBlock (.integerLiteral 1)]) =
        .ok (.statements [.rawBlock ['a'], .rawBlock ['1']]) := rfl
  show (convertLiteralPrintBlockToRawBlockPass.process 5
    (.statements [.rawBlock ['a'], .printBlock (.integerLiteral 1)]) >>=
      fun a => coalesceRawBlocksPass.process 5 a >>= pure) = _
  rw [hconvert]
  exact (bind_pure _).trans hcoalesce

theorem optimizeAST_stable_literalTemplate :
    runPasses ([coalesceRawBlocksPass, noFiles.resolveIncludesPass].map (ASTPass.process · 1))
      (.rawBlock ['a', '1']) = .ok (.rawBlock ['a', '1']) := by
  have hctx : ParsesFiles noFiles := by
    rintro _ _ ⟨⟩
  have ha : literalTemplate.action 1 =
      .ok (.statements [.rawBlock ['a'], .printBlock (.integerLiteral 1)]) := rfl
  refine optimizeAST_stable hctx ha optimizeAST_literalTemplate ?_ le_rfl
  rw [PassFlags.passes_all]
  simp [optimizePasses]

end B2
