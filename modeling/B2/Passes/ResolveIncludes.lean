import B2.Passes.Walker

/-!
# Include resolution

`ResolveIncludesPass`. An include block becomes the tree of its file, resolved
in turn, with every variable reference rewritten: by a clone of the expression
that the `with` mapping gives for it, or by an attribute of the `using` scope.
The rewriting sees variable references only, so the loop variables of the file
are rewritten like any other.

The walker of the pass descends into parsed files and may not return;
`process n` bounds the nested calls. `AST.expand n` is the structural form of
the pass, a tree with its include blocks replaced, in which `n` bounds the
nesting of includes only. The parser is a parameter: the tree of a file, or the
error that opening or parsing it throws.
-/

namespace B2

/-- `m_includeBasePath` and the results of `m_parser.parse`. -/
structure IncludeContext where
  includeBasePath : Text
  parse : Text → Run AST

namespace IncludeContext

/-- `resolvePath`. -/
def resolvePath (ctx : IncludeContext) (path : Text) : Text :=
  if path.head? = some '/' then path else ctx.includeBasePath ++ '/' :: path

/-- `ReplaceVariableReferencesPass`. -/
def replaceVariableReferencesPass (includeFilename : Text) (replacements : StringExpressionMap) :
    ExpressionPass :=
  variablePass fun variableName =>
    match replacements.find variableName with
    | none => .error (.missingVariableReference includeFilename variableName)
    | some replacement => replacement.clone

/-- `PrependScopePass`. -/
def prependScopePass (scope : Expression) : ExpressionPass :=
  variablePass fun variableName => do return .getAttribute (← scope.clone) variableName

def replaceVariableReferences (ast : AST) (includeFilename : Text)
    (replacements : StringExpressionMap) : Run AST :=
  runPasses [(expressionPassWrapper
    (replaceVariableReferencesPass includeFilename replacements).run).run] ast

def prependScope (ast : AST) (scope : Expression) : Run AST :=
  runPasses [(expressionPassWrapper (prependScopePass scope).run).run] ast

/-- `ResolveIncludesPass`. -/
def resolveIncludesPass (ctx : IncludeContext) : ASTPass where
  processNode process
    | .includeBlock includeName scope variableMapping => do
      let includeFilename := ctx.resolvePath includeName
      let includeAST ← ctx.parse includeFilename
      let processedIncludeAST ← process includeAST
      match scope with
      | some scope => prependScope processedIncludeAST scope
      | none => replaceVariableReferences processedIncludeAST includeFilename variableMapping
    | a => return a

/-- What takes the place of a variable reference of an included file. -/
def insertion (ctx : IncludeContext) (name : Text) (scope : Option Expression)
    (M : StringExpressionMap) (x : Text) : Run Expression :=
  match scope with
  | some s => do return .getAttribute (← s.clone) x
  | none =>
    match M.find x with
    | none => .error (.missingVariableReference (ctx.resolvePath name) x)
    | some e => e.clone

/-- The tree that takes the place of an include block, `resolve` run on its file. -/
def included (ctx : IncludeContext) (resolve : AST → Run AST) (name : Text)
    (scope : Option Expression) (M : StringExpressionMap) : Run AST := do
  let a ← ctx.parse (ctx.resolvePath name)
  let a' ← resolve a
  a'.mapExpressions fun e => e.substitute (ctx.insertion name scope M)

end IncludeContext

/-! ## The structural form -/

namespace AST

mutual

/-- Every include block replaced by what `f` gives for it, statement lists merged as
`ASTPass` merges them. -/
def mapIncludes (f : Text → Option Expression → StringExpressionMap → Run AST) : AST → Run AST
  | .statements l => do return .fromStatementsArray (← mapIncludesList f l)
  | .rawBlock t => .ok (.rawBlock t)
  | .printBlock e => .ok (.printBlock e)
  | .ifBlock c t none => do return .ifBlock c (← t.mapIncludes f) none
  | .ifBlock c t (some e) => do
    let t' ← t.mapIncludes f
    let e' ← e.mapIncludes f
    return .ifBlock c t' (some e')
  | .forBlock k v i b none => do return .forBlock k v i (← b.mapIncludes f) none
  | .forBlock k v i b (some e) => do
    let b' ← b.mapIncludes f
    let e' ← e.mapIncludes f
    return .forBlock k v i b' (some e')
  | .includeBlock name scope M => f name scope M

def mapIncludesList (f : Text → Option Expression → StringExpressionMap → Run AST) :
    List AST → Run (List AST)
  | [] => .ok []
  | s :: l => do
    let s' ← s.mapIncludes f
    let l' ← mapIncludesList f l
    return s'.asStatements ++ l'

end

mutual

/-- The tree with its statement lists merged. -/
def merged : AST → AST
  | .statements l => .fromStatementsArray (mergedList l)
  | .rawBlock t => .rawBlock t
  | .printBlock e => .printBlock e
  | .ifBlock c t none => .ifBlock c t.merged none
  | .ifBlock c t (some e) => .ifBlock c t.merged (some e.merged)
  | .forBlock k v i b none => .forBlock k v i b.merged none
  | .forBlock k v i b (some e) => .forBlock k v i b.merged (some e.merged)
  | .includeBlock name scope M => .includeBlock name scope M

def mergedList : List AST → List AST
  | [] => []
  | s :: l => s.merged.asStatements ++ mergedList l

end

/-- Includes resolved to a nesting of `n`. -/
def expand (ctx : IncludeContext) : Nat → AST → Run AST
  | 0 => mapIncludes fun _ _ _ => .error .outOfFuel
  | n + 1 => mapIncludes (ctx.included (expand ctx n))

section

variable {f f' : Text → Option Expression → StringExpressionMap → Run AST}

theorem mapIncludesList_mono {l l' : List AST} (h : mapIncludesList f l = .ok l')
    (ih : ∀ s ∈ l, ∀ r, s.mapIncludes f = .ok r → s.mapIncludes f' = .ok r) :
    mapIncludesList f' l = .ok l' := by
  induction l generalizing l' with
  | nil => exact h
  | cons s l ihl =>
    simp only [mapIncludesList, bind_eq_ok, pure_eq_ok] at h ⊢
    obtain ⟨s', hs, l'', hl, rfl⟩ := h
    exact ⟨s', ih s List.mem_cons_self s' hs, l'',
      ihl hl fun s h => ih s (List.mem_cons_of_mem _ h), rfl⟩

/-- What returns with `f` returns the same where `f'` returns what `f` returns. -/
theorem mapIncludes_mono
    (hf : ∀ name scope M r, f name scope M = .ok r → f' name scope M = .ok r) (a : AST) :
    ∀ r, a.mapIncludes f = .ok r → a.mapIncludes f' = .ok r := by
  induction a with
  | statements l ih =>
    intro r h
    simp only [mapIncludes, bind_eq_ok, pure_eq_ok] at h ⊢
    obtain ⟨l', hl, rfl⟩ := h
    exact ⟨l', mapIncludesList_mono hl ih, rfl⟩
  | rawBlock _ | printBlock _ => exact fun r h => h
  | includeBlock name scope M => exact fun r h => hf name scope M r h
  | ifBlock c t e iht ihe =>
    intro r h
    cases e with
    | none =>
      simp only [mapIncludes, bind_eq_ok, pure_eq_ok] at h ⊢
      obtain ⟨t', ht, rfl⟩ := h
      exact ⟨t', iht t' ht, rfl⟩
    | some e =>
      simp only [mapIncludes, bind_eq_ok, pure_eq_ok] at h ⊢
      obtain ⟨t', ht, e', he, rfl⟩ := h
      exact ⟨t', iht t' ht, e', ihe e rfl e' he, rfl⟩
  | forBlock k v i b e ihb ihe =>
    intro r h
    cases e with
    | none =>
      simp only [mapIncludes, bind_eq_ok, pure_eq_ok] at h ⊢
      obtain ⟨b', hb, rfl⟩ := h
      exact ⟨b', ihb b' hb, rfl⟩
    | some e =>
      simp only [mapIncludes, bind_eq_ok, pure_eq_ok] at h ⊢
      obtain ⟨b', hb, e', he, rfl⟩ := h
      exact ⟨b', ihb b' hb, e', ihe e rfl e' he, rfl⟩

end

/-- A larger bound on the nesting gives the same result. -/
theorem expand_succ (ctx : IncludeContext) :
    ∀ (n : Nat) (a r : AST), a.expand ctx n = .ok r → a.expand ctx (n + 1) = .ok r
  | 0, a, r, h => mapIncludes_mono (fun _ _ _ _ h => by cases h) a r h
  | n + 1, a, r, h => by
    refine mapIncludes_mono (fun name scope M r h => ?_) a r h
    simp only [IncludeContext.included, bind_eq_ok] at h ⊢
    obtain ⟨a, ha, a', ha', h⟩ := h
    exact ⟨a, ha, a', expand_succ ctx n a a' ha', h⟩

end AST

namespace IncludeContext

variable (ctx : IncludeContext)

/-- The passes that rewrite an included tree are one substitution. -/
theorem runPasses_insertion (a : AST) (name : Text) (scope : Option Expression)
    (M : StringExpressionMap) :
    (match scope with
      | some s => prependScope a s
      | none => replaceVariableReferences a (ctx.resolvePath name) M) =
      a.mapExpressions fun e => e.substitute (ctx.insertion name scope M) := by
  have hrun : ∀ g : Text → Run Expression,
      runPasses [(expressionPassWrapper (variablePass g).run).run] a =
        a.mapExpressions fun e => e.substitute g := by
    intro g
    have hg : (variablePass g).run = fun e => e.substitute g :=
      funext (ExpressionPass.run_variablePass g)
    simp only [runPasses, List.foldlM_cons, List.foldlM_nil, ASTPass.run_wrapper, hg, bind_pure]
  cases scope with
  | some s => exact hrun _
  | none => exact hrun _

theorem process_includeBlock (n : Nat) (name : Text) (scope : Option Expression)
    (M : StringExpressionMap) :
    ctx.resolveIncludesPass.process (n + 1) (.includeBlock name scope M) =
      ctx.included (ctx.resolveIncludesPass.process n) name scope M := by
  simp only [included, ← runPasses_insertion]
  simp only [ASTPass.process, resolveIncludesPass, bind_pure]

theorem spliceStatements_expand {n : Nat}
    (ih : ∀ a r, ctx.resolveIncludesPass.process n a = .ok r → a.expand ctx n = .ok r) :
    ∀ {l l' : List AST}, spliceStatements (ctx.resolveIncludesPass.process n) l = .ok l' →
      AST.mapIncludesList (ctx.included (AST.expand ctx n)) l = .ok l'
  | [], l', h => h
  | s :: l, l', h => by
    simp only [spliceStatements, AST.mapIncludesList, bind_eq_ok, pure_eq_ok] at h ⊢
    obtain ⟨s', hs, l'', hl, rfl⟩ := h
    exact ⟨s', AST.expand_succ ctx n s s' (ih s s' hs), l'', spliceStatements_expand ih hl, rfl⟩

/-- What the walker returns is the expanded tree. -/
theorem process_eq_expand : ∀ (n : Nat) (a r : AST),
    ctx.resolveIncludesPass.process n a = .ok r → a.expand ctx n = .ok r := by
  intro n
  induction n with
  | zero => intro a r h; cases h
  | succ n ih =>
    intro a r h
    cases a with
    | rawBlock _ | printBlock _ => exact h
    | includeBlock name scope M =>
      rw [process_includeBlock] at h
      simp only [included, bind_eq_ok] at h
      obtain ⟨a, ha, a', ha', h⟩ := h
      simp only [AST.expand, AST.mapIncludes, included, bind_eq_ok]
      exact ⟨a, ha, a', ih a a' ha', h⟩
    | statements l =>
      simp only [ASTPass.process, resolveIncludesPass, pure_bind, bind_eq_ok, pure_eq_ok] at h
      obtain ⟨l', hl, rfl⟩ := h
      simp only [AST.expand, AST.mapIncludes, bind_eq_ok, pure_eq_ok]
      exact ⟨l', spliceStatements_expand ctx ih hl, rfl⟩
    | ifBlock c t e =>
      cases e with
      | none =>
        simp only [ASTPass.process, resolveIncludesPass, pure_bind, bind_eq_ok, pure_eq_ok,
          Option.mapM_none] at h
        obtain ⟨t', ht, rfl⟩ := h
        have ht' := AST.expand_succ ctx n _ _ (ih t t' ht)
        simp only [AST.expand] at ht' ⊢
        simp only [AST.mapIncludes, ht']
        rfl
      | some e =>
        simp only [ASTPass.process, resolveIncludesPass, pure_bind, mapM_some_bind, bind_eq_ok,
          pure_eq_ok] at h
        obtain ⟨t', ht, e', he, rfl⟩ := h
        have ht' := AST.expand_succ ctx n _ _ (ih t t' ht)
        have he' := AST.expand_succ ctx n _ _ (ih e e' he)
        simp only [AST.expand] at ht' he' ⊢
        simp only [AST.mapIncludes, ht', he']
        rfl
    | forBlock k v i b e =>
      cases e with
      | none =>
        simp only [ASTPass.process, resolveIncludesPass, pure_bind, bind_eq_ok, pure_eq_ok,
          Option.mapM_none] at h
        obtain ⟨b', hb, rfl⟩ := h
        have hb' := AST.expand_succ ctx n _ _ (ih b b' hb)
        simp only [AST.expand] at hb' ⊢
        simp only [AST.mapIncludes, hb']
        rfl
      | some e =>
        simp only [ASTPass.process, resolveIncludesPass, pure_bind, mapM_some_bind, bind_eq_ok,
          pure_eq_ok] at h
        obtain ⟨b', hb, e', he, rfl⟩ := h
        have hb' := AST.expand_succ ctx n _ _ (ih b b' hb)
        have he' := AST.expand_succ ctx n _ _ (ih e e' he)
        simp only [AST.expand] at hb' he' ⊢
        simp only [AST.mapIncludes, hb', he']
        rfl

theorem spliceStatements_merged {f : AST → Run AST} : ∀ {l : List AST},
    (∀ s ∈ l, f s = .ok s.merged) → spliceStatements f l = .ok (AST.mergedList l)
  | [], _ => rfl
  | s :: l, h => by
    rw [spliceStatements, h s List.mem_cons_self,
      spliceStatements_merged fun s' h' => h s' (List.mem_cons_of_mem _ h')]
    rfl

/-- The walker merges the statement lists of a tree without include blocks. -/
theorem process_includeFree (a : AST) : ∀ n, a.IncludeFree → a.depth ≤ n →
    ctx.resolveIncludesPass.process n a = .ok a.merged := by
  induction a with
  | statements l ih =>
    rintro (_ | n) hfree h
    · simp [AST.depth] at h
    · have hl : spliceStatements (ctx.resolveIncludesPass.process n) l = .ok (AST.mergedList l) :=
        spliceStatements_merged fun s hs => ih s hs n (AST.includeFree_of_mem hfree hs)
          ((AST.depth_le_listDepth hs).trans (by simpa [AST.depth] using h))
      simp only [ASTPass.process, resolveIncludesPass, pure_bind] at hl ⊢
      rw [hl]
      rfl
  | rawBlock _ | printBlock _ =>
    rintro (_ | n) _ h
    · simp [AST.depth] at h
    · rfl
  | includeBlock name scope M => intro n hfree; cases hfree
  | ifBlock c t e iht ihe =>
    rintro (_ | n) hfree h
    · cases e <;> simp [AST.depth] at h
    · cases e with
      | none =>
        have ht := iht n hfree (by simpa [AST.depth] using h)
        simp only [ASTPass.process, resolveIncludesPass, pure_bind] at ht ⊢
        rw [ht]
        rfl
      | some e =>
        simp only [AST.depth, Nat.add_le_add_iff_right, max_le_iff] at h
        have ht := iht n hfree.1 h.1
        have he := ihe e rfl n hfree.2 h.2
        simp only [ASTPass.process, resolveIncludesPass, pure_bind, mapM_some_bind] at ht he ⊢
        rw [ht, he]
        rfl
  | forBlock k v i b e ihb ihe =>
    rintro (_ | n) hfree h
    · cases e <;> simp [AST.depth] at h
    · cases e with
      | none =>
        have hb := ihb n hfree (by simpa [AST.depth] using h)
        simp only [ASTPass.process, resolveIncludesPass, pure_bind] at hb ⊢
        rw [hb]
        rfl
      | some e =>
        simp only [AST.depth, Nat.add_le_add_iff_right, max_le_iff] at h
        have hb := ihb n hfree.1 h.1
        have he := ihe e rfl n hfree.2 h.2
        simp only [ASTPass.process, resolveIncludesPass, pure_bind, mapM_some_bind] at hb he ⊢
        rw [hb, he]
        rfl

/-- The pass ends on `a` with `x`, whatever the bound on the nested calls from some bound on. -/
def Outcome (a : AST) (x : Run AST) : Prop :=
  ∃ N, ∀ n, N ≤ n → ctx.resolveIncludesPass.process n a = x

theorem Outcome.unique {ctx : IncludeContext} {a : AST} {x y : Run AST} (hx : ctx.Outcome a x)
    (hy : ctx.Outcome a y) : x = y := by
  obtain ⟨N, hx⟩ := hx
  obtain ⟨N', hy⟩ := hy
  rw [← hx (max N N') (le_max_left _ _), hy (max N N') (le_max_right _ _)]

/-- The outcome for the include of a file without include blocks. -/
theorem outcome_includeBlock {name : Text} {scope : Option Expression} {M : StringExpressionMap}
    {B : AST} (hparse : ctx.parse (ctx.resolvePath name) = .ok B) (hfree : B.IncludeFree) :
    ctx.Outcome (.includeBlock name scope M)
      (B.merged.mapExpressions fun e => e.substitute (ctx.insertion name scope M)) := by
  refine ⟨B.depth + 1, fun n hn => ?_⟩
  obtain ⟨n, rfl⟩ : ∃ m, n = m + 1 := ⟨n - 1, by omega⟩
  rw [process_includeBlock, included, hparse]
  simp only [bind, Except.bind, process_includeFree ctx B n hfree (by omega)]

end IncludeContext

end B2
