import B2.Parser.OperandTypes
import B2.Passes.IncludeTypes
import B2.Passes.NormalForm

/-!
# What the last passes keep

A pass keeps a property of all expressions of a tree if its `process_node` does
(`ASTPass.Keeps.process`). Folding, the literal pass and coalescing keep what the
parser enforces, in trees without include blocks (`AST.Checked`).
-/

namespace B2

/-- `process_node` keeps a property of all expressions. -/
def ASTPass.Keeps (P Q : Expression → Prop)
    (I : Text → Option Expression → StringExpressionMap → Prop) (p : ASTPass) : Prop :=
  ∀ (process : AST → Run AST) (a a' : AST), a.Everywhere P Q I →
    p.processNode process a = .ok a' → a'.Everywhere P Q I

section

variable {P Q : Expression → Prop} {I : Text → Option Expression → StringExpressionMap → Prop}

theorem AST.everywhere_ifBlock {c : Expression} {t : AST} {e : Option AST} :
    (ifBlock c t e).Everywhere P Q I ↔
      P c ∧ t.Everywhere P Q I ∧ ∀ b, e = some b → b.Everywhere P Q I := by
  cases e <;> simp [Everywhere]

theorem AST.everywhere_forBlock {k v : Option Text} {i : Expression} {b : AST} {e : Option AST} :
    (forBlock k v i b e).Everywhere P Q I ↔
      P i ∧ Q i ∧ b.Everywhere P Q I ∧ ∀ b', e = some b' → b'.Everywhere P Q I := by
  cases e <;> simp [Everywhere]

theorem spliceStatements_everywhere {f : AST → Run AST}
    (hf : ∀ b b', f b = .ok b' → b.Everywhere P Q I → b'.Everywhere P Q I) :
    ∀ {l l' : List AST}, AST.EverywhereList P Q I l → spliceStatements f l = .ok l' →
      AST.EverywhereList P Q I l'
  | [], l', _, h => by
    cases h
    trivial
  | s :: l, l', hl, h => by
    simp only [spliceStatements, bind_eq_ok, pure_eq_ok] at h
    obtain ⟨s', hs, l'', hl', rfl⟩ := h
    exact AST.everywhereList_append.2 ⟨AST.everywhere_asStatements.2 (hf s s' hs hl.1),
      spliceStatements_everywhere hf hl.2 hl'⟩

theorem mapM_everywhere {f : AST → Run AST}
    (hf : ∀ b b', f b = .ok b' → b.Everywhere P Q I → b'.Everywhere P Q I)
    {e e' : Option AST} (he : ∀ b, e = some b → b.Everywhere P Q I) (h : e.mapM f = .ok e') :
    ∀ b, e' = some b → b.Everywhere P Q I := by
  cases e with
  | none =>
    cases h
    rintro _ ⟨⟩
  | some b =>
    rw [Option.mapM_some, map_eq_pure_bind, bind_eq_ok] at h
    obtain ⟨b', hb, h⟩ := h
    cases h
    rintro _ ⟨⟩
    exact hf b b' hb (he b rfl)

theorem ASTPass.Keeps.process {p : ASTPass} (hp : p.Keeps P Q I) : ∀ (n : Nat) (a a' : AST),
    p.process n a = .ok a' → a.Everywhere P Q I → a'.Everywhere P Q I := by
  intro n
  induction n with
  | zero => exact fun a a' h => nomatch h
  | succ n ih =>
    intro a a' h ha
    rw [ASTPass.process, bind_eq_ok] at h
    obtain ⟨new_ast, hnew, h⟩ := h
    have hkept := hp _ a new_ast ha hnew
    cases a with
    | rawBlock _ | printBlock _ | includeBlock _ _ _ =>
      cases h
      exact hkept
    | statements l =>
      cases new_ast with
      | statements l =>
        simp only [bind_eq_ok, pure_eq_ok] at h
        obtain ⟨l', hl, rfl⟩ := h
        exact AST.everywhere_fromStatementsArray.2 (spliceStatements_everywhere ih hkept hl)
      | _ => exact ih _ a' h hkept
    | ifBlock c t e =>
      cases new_ast with
      | ifBlock c t e =>
        simp only [bind_eq_ok, pure_eq_ok] at h
        obtain ⟨t', ht, e', he, rfl⟩ := h
        obtain ⟨hc, ht₀, he₀⟩ := AST.everywhere_ifBlock.1 hkept
        exact AST.everywhere_ifBlock.2 ⟨hc, ih t t' ht ht₀, mapM_everywhere ih he₀ he⟩
      | _ => exact ih _ a' h hkept
    | forBlock k v i b e =>
      cases new_ast with
      | forBlock k v i b e =>
        simp only [bind_eq_ok, pure_eq_ok] at h
        obtain ⟨b', hb, e', he, rfl⟩ := h
        obtain ⟨hi, hq, hb₀, he₀⟩ := AST.everywhere_forBlock.1 hkept
        exact AST.everywhere_forBlock.2 ⟨hi, hq, ih b b' hb hb₀, mapM_everywhere ih he₀ he⟩
      | _ => exact ih _ a' h hkept

theorem keeps_wrapper {f : Expression → Run Expression}
    (hP : ∀ e e', f e = .ok e' → P e → P e') (hQ : ∀ e e', f e = .ok e' → Q e → Q e')
    (hI : ∀ name scope M, ¬I name scope M) : (expressionPassWrapper f).Keeps P Q I := by
  intro process a a' ha h
  cases a with
  | statements l | rawBlock t =>
    cases h
    exact ha
  | printBlock e =>
    simp only [expressionPassWrapper, bind_eq_ok, pure_eq_ok] at h
    obtain ⟨e', he, rfl⟩ := h
    exact hP e e' he ha
  | includeBlock name scope M => exact absurd ha (hI name scope M)
  | ifBlock c t e =>
    simp only [expressionPassWrapper, bind_eq_ok, pure_eq_ok] at h
    obtain ⟨c', hc, rfl⟩ := h
    obtain ⟨h₁, h₂⟩ := AST.everywhere_ifBlock.1 ha
    exact AST.everywhere_ifBlock.2 ⟨hP c c' hc h₁, h₂⟩
  | forBlock k v i b e =>
    simp only [expressionPassWrapper, bind_eq_ok, pure_eq_ok] at h
    obtain ⟨i', hi, rfl⟩ := h
    obtain ⟨h₁, h₂, h₃⟩ := AST.everywhere_forBlock.1 ha
    exact AST.everywhere_forBlock.2 ⟨hP i i' hi h₁, hQ i i' hi h₂, h₃⟩

theorem keeps_convertLiteral : convertLiteralPrintBlockToRawBlockPass.Keeps P Q I := by
  intro process a a' ha h
  cases a with
  | printBlock e =>
    cases h
    cases e <;> first | exact ha | trivial
  | _ =>
    cases h
    exact ha

theorem keeps_coalesce : coalesceRawBlocksPass.Keeps P Q I := by
  intro process a a' ha h
  cases a with
  | statements l =>
    cases h
    refine AST.everywhereList_iff.2 fun s hs => ?_
    rcases mem_coalesceRawBlocks l hs with hs | ⟨t, rfl⟩
    · exact AST.everywhereList_iff.1 ha s hs
    · trivial
  | _ =>
    cases h
    exact ha

theorem runPasses_everywhere {passes : List ASTPass} (hpasses : ∀ p ∈ passes, p.Keeps P Q I)
    {n : Nat} {a r : AST} (ha : a.Everywhere P Q I)
    (h : runPasses (passes.map (ASTPass.process · n)) a = .ok r) : r.Everywhere P Q I := by
  induction passes generalizing a with
  | nil =>
    cases h
    exact ha
  | cons p passes ih =>
    rw [runPasses, List.map_cons, List.foldlM_cons, bind_eq_ok] at h
    obtain ⟨a', ha', h⟩ := h
    have hp := hpasses p List.mem_cons_self
    exact ih (fun q hq => hpasses q (List.mem_cons_of_mem _ hq)) (hp.process n a a' ha' ha) h

end

/-! ## Checked trees -/

/-- The passes of `optimizeAST` after the include blocks are resolved. -/
def lastPasses : List ASTPass :=
  [expressionPassWrapper foldConstantExpressions, convertLiteralPrintBlockToRawBlockPass,
    coalesceRawBlocksPass]

/-- What the parser enforces, in a tree without include blocks. -/
def AST.Checked : AST → Prop :=
  Everywhere (fun e => e.WellTyped ∧ e.Proper) (fun e => e.valueType = .variant)
    fun _ _ _ => False

theorem proper_of_isLiteral {e : Expression} (h : isLiteralExpression e = true) : e.Proper := by
  cases e <;> trivial

theorem foldArguments_proper : ∀ {args args' : List (Option Expression)},
    (∀ e, some e ∈ args → ∀ e', e.fold = .ok e' → e.Proper → e'.Proper) →
    Expr.foldArguments args = .ok args' → Expr.ProperArguments args → Expr.ProperArguments args'
  | [], _, _, h, _ => by
    cases h
    trivial
  | none :: _, _, _, h, _ => by cases h
  | some e :: args, _, ih, h, hp => by
    simp only [Expr.foldArguments, bind_eq_ok, pure_eq_ok] at h
    obtain ⟨e', he, args', hargs, rfl⟩ := h
    exact ⟨ih e List.mem_cons_self e' he hp.1,
      foldArguments_proper (fun e h => ih e (List.mem_cons_of_mem _ h)) hargs hp.2⟩

/-- Folding makes no null argument. -/
theorem fold_proper (e : Expression) : ∀ e', e.fold = .ok e' → e.Proper → e'.Proper := by
  induction e using Expr.ind with
  | getAttribute v a ih =>
    intro e' h hp
    simp only [Expr.fold, bind_eq_ok, pure_eq_ok] at h
    obtain ⟨v', hv, rfl⟩ := h
    exact ih v' hv hp
  | methodCall m args ih =>
    intro e' h hp
    simp only [Expr.fold, bind_eq_ok, pure_eq_ok] at h
    obtain ⟨args', hargs, rfl⟩ := h
    exact foldArguments_proper ih hargs hp
  | binaryOperation l r op ihl ihr =>
    intro e' h hp
    simp only [Expr.fold, bind_eq_ok] at h
    obtain ⟨left, hl, right, hr, h⟩ := h
    rcases foldBinaryOperation_cases h with hlit | rfl
    · exact proper_of_isLiteral hlit
    · exact ⟨ihl left hl hp.1, ihr right hr hp.2⟩
  | unaryOperation e op ih =>
    intro e' h hp
    simp only [Expr.fold, bind_eq_ok] at h
    obtain ⟨sub, hs, h⟩ := h
    rcases foldUnaryOperation_cases h with hlit | rfl
    · exact proper_of_isLiteral hlit
    · exact ih sub hs hp
  | comparison l r op ihl ihr =>
    intro e' h hp
    simp only [Expr.fold, bind_eq_ok] at h
    obtain ⟨left, hl, right, hr, h⟩ := h
    rcases foldComparison_cases h with ⟨v, rfl⟩ | rfl
    · trivial
    · exact ⟨ihl left hl hp.1, ihr right hr hp.2⟩
  | _ =>
    intro e' h hp
    cases h
    exact hp

theorem keeps_lastPasses : ∀ p ∈ lastPasses,
    p.Keeps (fun e => e.WellTyped ∧ e.Proper) (fun e => e.valueType = .variant)
      fun _ _ _ => False := by
  have hf : foldConstantExpressions = Expr.fold := funext foldConstantExpressions_eq_fold
  simp only [lastPasses, List.forall_mem_cons, hf]
  refine ⟨keeps_wrapper ?_ ?_ (fun _ _ _ => id), keeps_convertLiteral, keeps_coalesce, nofun⟩
  · exact fun e e' h hp => ⟨(fold_wellTyped e e' h).2 hp.1, fold_proper e e' h hp.2⟩
  · exact fun e e' h hq => (fold_wellTyped e e' h).1.trans hq

/-- What holds everywhere twice, in a tree without include blocks. -/
theorem AST.checked_of_wellTyped {a : AST} (hw : a.WellTyped) (hp : a.Proper)
    (hi : a.IncludeFree) : a.Checked := by
  induction a with
  | statements l ih =>
    refine everywhereList_iff.2 fun s hs => ?_
    exact ih s hs (everywhereList_iff.1 hw s hs) (everywhereList_iff.1 hp s hs)
      (includeFree_of_mem hi hs)
  | rawBlock t => trivial
  | printBlock e => exact ⟨hw, hp⟩
  | ifBlock c t e iht ihe =>
    have hw := everywhere_ifBlock.1 hw
    have hp := everywhere_ifBlock.1 hp
    refine everywhere_ifBlock.2 ⟨⟨hw.1, hp.1⟩, ?_, ?_⟩
    · cases e with
      | none => exact iht hw.2.1 hp.2.1 hi
      | some e => exact iht hw.2.1 hp.2.1 hi.1
    · rintro b rfl
      exact ihe b rfl (hw.2.2 b rfl) (hp.2.2 b rfl) hi.2
  | forBlock k v i b e ihb ihe =>
    have hw := everywhere_forBlock.1 hw
    have hp := everywhere_forBlock.1 hp
    refine everywhere_forBlock.2 ⟨⟨hw.1, hp.1⟩, hw.2.1, ?_, ?_⟩
    · cases e with
      | none => exact ihb hw.2.2.1 hp.2.2.1 hi
      | some e => exact ihb hw.2.2.1 hp.2.2.1 hi.1
    · rintro b' rfl
      exact ihe b' rfl (hw.2.2.2 b' rfl) (hp.2.2.2 b' rfl) hi.2
  | includeBlock n s M => exact hi

/-- A template without include blocks is checked, and stays so through the last passes. -/
theorem checked_lastPasses {t : RootTree} {line : Nat} {a r : AST} (h : t.action line = .ok a)
    (hi : a.IncludeFree) {n : Nat}
    (hr : runPasses (lastPasses.map (ASTPass.process · n)) a = .ok r) : r.Checked :=
  runPasses_everywhere keeps_lastPasses
    (AST.checked_of_wellTyped (t.action_wellTyped h) (t.action_proper h) hi) hr

end B2
