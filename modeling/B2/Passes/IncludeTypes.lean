import B2.Parser.OperandTypes
import B2.Passes.FoldConstants

/-!
# Operand types after include resolution

Include resolution checks no types: an argument of any type takes the place of
a variable of the included file, which its parser took for a `Variant`. A file
is included under a `TypeContext`, the type of what is inserted for each of its
variables and whether that is well typed itself. The resolved tree is well
typed exactly when every included file passes the parser's checks under the
context it is included in (`includeFits`), and folding a well-typed tree keeps
it well typed.
-/

namespace B2

/-- What stands for the variables of a file: their types, and whether it is well typed. -/
structure TypeContext where
  type : Text → ExpressionValueType
  ok : Text → Prop

namespace Expr

/-- `valueType()` with the variables of the types `τ`. -/
def typeIn (τ : Text → ExpressionValueType) : Expression → ExpressionValueType
  | .variableReference x => τ x
  | .doubleLiteral _ => .double
  | .integerLiteral _ => .integer
  | .booleanLiteral _ => .boolean
  | .stringLiteral _ => .string
  | .comparison .. => .boolean
  | .binaryOperation l r _ =>
    if l.typeIn τ = .variant ∨ r.typeIn τ = .variant then .variant
    else if l.typeIn τ = .double ∨ r.typeIn τ = .double then .double
    else if l.typeIn τ = .integer ∧ r.typeIn τ = .integer then .integer
    else .double
  | .unaryOperation e op =>
    match op with
    | .booleanNegation => .boolean
    | .numericPositive | .numericNegative =>
      match e.typeIn τ with
      | .variant => .variant
      | .double => .double
      | .integer => .integer
      | _ => .double
  | .getAttribute .. | .methodCall .. => .variant

mutual

/-- The checks of the parser with the variables as `Γ` says. -/
def WellTypedIn (Γ : TypeContext) : Expression → Prop
  | .variableReference x => Γ.ok x
  | .getAttribute v _ => v.WellTypedIn Γ ∧ v.typeIn Γ.type = .variant
  | .methodCall _ args => WellTypedArgumentsIn Γ args
  | .binaryOperation l r _ =>
    l.WellTypedIn Γ ∧ r.WellTypedIn Γ ∧ numericOrVariant (l.typeIn Γ.type) ∧
      numericOrVariant (r.typeIn Γ.type)
  | .unaryOperation e op => e.WellTypedIn Γ ∧ unaryOperandType op (e.typeIn Γ.type)
  | .comparison l r op =>
    l.WellTypedIn Γ ∧ r.WellTypedIn Γ ∧ operandType op (l.typeIn Γ.type) ∧
      operandType op (r.typeIn Γ.type)
  | .doubleLiteral _ | .integerLiteral _ | .booleanLiteral _ | .stringLiteral _ => True

def WellTypedArgumentsIn (Γ : TypeContext) : List (Option Expression) → Prop
  | [] => True
  | none :: args => WellTypedArgumentsIn Γ args
  | some e :: args => e.WellTypedIn Γ ∧ WellTypedArgumentsIn Γ args

end

end Expr

namespace TypeContext

/-- The variables of the main template, which the data gives. -/
def data : TypeContext := ⟨fun _ => .variant, fun _ => True⟩

/-- The variables of a file included in a file whose variables are as `Γ` says. -/
def enter (Γ : TypeContext) (scope : Option Expression) (M : StringExpressionMap) :
    TypeContext :=
  match scope with
  | some s => ⟨fun _ => .variant, fun _ => s.WellTypedIn Γ ∧ s.typeIn Γ.type = .variant⟩
  | none =>
    ⟨fun x => match M.find x with
      | some e => e.typeIn Γ.type
      | none => .variant,
    fun x => match M.find x with
      | some e => e.WellTypedIn Γ
      | none => True⟩

end TypeContext

/-- The file of an include block, and the files it includes, pass the parser's checks with
their variables of the types of what is inserted for them; `n` bounds the nesting. -/
def includeFits (ctx : IncludeContext) : Nat → TypeContext → Text → Option Expression →
    StringExpressionMap → Prop
  | 0, _, _, _, _ => True
  | n + 1, Γ, name, scope, M =>
    ∀ a, ctx.parse (ctx.resolvePath name) = .ok a →
      a.Everywhere (Expr.WellTypedIn (Γ.enter scope M))
        (fun e => e.typeIn (Γ.enter scope M).type = .variant)
        (includeFits ctx n (Γ.enter scope M))

/-- `includeFits` of every include block of the main template. -/
def IncludesFit (ctx : IncludeContext) (n : Nat) (main : AST) : Prop :=
  main.Everywhere (fun _ => True) (fun _ => True) (includeFits ctx n .data)

/-! ## The context of the main template -/

theorem typeIn_data (e : Expression) : e.typeIn TypeContext.data.type = e.valueType := by
  induction e using Expr.ind with
  | binaryOperation l r op ihl ihr => simp only [Expr.typeIn, Expr.valueType, ihl, ihr]
  | unaryOperation e op ih =>
    cases op <;> cases he : e.valueType <;> simp [Expr.typeIn, Expr.valueType, ih, he]
  | _ => rfl

theorem wellTypedArgumentsIn_data : ∀ {args : List (Option Expression)},
    (∀ e, some e ∈ args → (e.WellTypedIn .data ↔ e.WellTyped)) →
      (Expr.WellTypedArgumentsIn .data args ↔ Expr.WellTypedArguments args)
  | [], _ => Iff.rfl
  | none :: args, h => by
    simpa only [Expr.WellTypedArgumentsIn, Expr.WellTypedArguments] using
      wellTypedArgumentsIn_data fun e he => h e (List.mem_cons_of_mem _ he)
  | some e :: args, h => by
    rw [Expr.WellTypedArgumentsIn, Expr.WellTypedArguments, h e List.mem_cons_self,
      wellTypedArgumentsIn_data fun e he => h e (List.mem_cons_of_mem _ he)]

theorem wellTypedIn_data (e : Expression) : e.WellTypedIn .data ↔ e.WellTyped := by
  induction e using Expr.ind with
  | variableReference x => simp only [Expr.WellTypedIn, Expr.WellTyped, TypeContext.data]
  | getAttribute v a ih => rw [Expr.WellTypedIn, Expr.WellTyped, ih, typeIn_data]
  | methodCall m args ih =>
    rw [Expr.WellTypedIn, Expr.WellTyped, wellTypedArgumentsIn_data ih]
  | binaryOperation l r op ihl ihr =>
    rw [Expr.WellTypedIn, Expr.WellTyped, ihl, ihr, typeIn_data, typeIn_data]
  | unaryOperation e op ih => rw [Expr.WellTypedIn, Expr.WellTyped, ih, typeIn_data]
  | comparison l r op ihl ihr =>
    rw [Expr.WellTypedIn, Expr.WellTyped, ihl, ihr, typeIn_data, typeIn_data]
  | _ => simp only [Expr.WellTypedIn, Expr.WellTyped]

/-! ## Clones and substitution -/

section

variable {Γ Γ' : TypeContext}

theorem wellTypedArgumentsIn_iff {args : List (Option Expression)} :
    Expr.WellTypedArgumentsIn Γ args ↔ ∀ e, some e ∈ args → e.WellTypedIn Γ := by
  induction args with
  | nil => simp [Expr.WellTypedArgumentsIn]
  | cons arg args ih =>
    cases arg with
    | none => simp [Expr.WellTypedArgumentsIn, ih]
    | some e => simp [Expr.WellTypedArgumentsIn, ih]

theorem cloneArguments_wellTyped {args args' : List (Option Expression)}
    (ih : ∀ e, some e ∈ args → ∀ e', e.clone = .ok e' →
      e'.typeIn Γ.type = e.typeIn Γ.type ∧ (e'.WellTypedIn Γ ↔ e.WellTypedIn Γ))
    (h : Expr.cloneArguments args = .ok args') :
    Expr.WellTypedArgumentsIn Γ args' ↔ Expr.WellTypedArgumentsIn Γ args := by
  induction args generalizing args' with
  | nil => cases h; rfl
  | cons arg args ihargs =>
    cases arg with
    | none => cases h
    | some e =>
      simp only [Expr.cloneArguments, bind_eq_ok, pure_eq_ok] at h
      obtain ⟨e', he, args'', hargs, rfl⟩ := h
      rw [Expr.WellTypedArgumentsIn, Expr.WellTypedArgumentsIn, (ih e List.mem_cons_self e' he).2,
        ihargs (fun e h => ih e (List.mem_cons_of_mem _ h)) hargs]

/-- A clone has the type of its original; the null arguments it adds are no operands. -/
theorem clone_wellTyped (e : Expression) : ∀ e', e.clone = .ok e' →
    e'.typeIn Γ.type = e.typeIn Γ.type ∧ (e'.WellTypedIn Γ ↔ e.WellTypedIn Γ) := by
  induction e using Expr.ind with
  | getAttribute v a ih =>
    intro e' h
    simp only [Expr.clone, bind_eq_ok, pure_eq_ok] at h
    obtain ⟨v', hv, rfl⟩ := h
    obtain ⟨ht, hw⟩ := ih v' hv
    exact ⟨rfl, by rw [Expr.WellTypedIn, Expr.WellTypedIn, ht, hw]⟩
  | methodCall m args ih =>
    intro e' h
    simp only [Expr.clone, bind_eq_ok, pure_eq_ok] at h
    obtain ⟨args', hargs, rfl⟩ := h
    refine ⟨rfl, ?_⟩
    rw [Expr.WellTypedIn, Expr.WellTypedIn, ← cloneArguments_wellTyped ih hargs]
    simp [wellTypedArgumentsIn_iff, List.mem_replicate]
  | binaryOperation l r op ihl ihr | comparison l r op ihl ihr =>
    intro e' h
    simp only [Expr.clone, bind_eq_ok, pure_eq_ok] at h
    obtain ⟨l', hl, r', hr, rfl⟩ := h
    obtain ⟨htl, hwl⟩ := ihl l' hl
    obtain ⟨htr, hwr⟩ := ihr r' hr
    simp only [Expr.typeIn, Expr.WellTypedIn, htl, htr, hwl, hwr, and_self]
  | unaryOperation e op ih =>
    intro e' h
    simp only [Expr.clone, bind_eq_ok, pure_eq_ok] at h
    obtain ⟨s, hs, rfl⟩ := h
    obtain ⟨ht, hw⟩ := ih s hs
    simp only [Expr.typeIn, Expr.WellTypedIn, ht, hw, and_self]
  | _ =>
    intro e' h
    cases h
    exact ⟨rfl, Iff.rfl⟩

/-- `Γ'` describes under `Γ` what `g` gives for the variables. -/
def Describes (Γ Γ' : TypeContext) (g : Text → Run Expression) : Prop :=
  ∀ x e, g x = .ok e → e.typeIn Γ.type = Γ'.type x ∧ (e.WellTypedIn Γ ↔ Γ'.ok x)

theorem substituteArguments_wellTyped {g : Text → Run Expression}
    {args args' : List (Option Expression)}
    (ih : ∀ e, some e ∈ args → ∀ e', e.substitute g = .ok e' →
      e'.typeIn Γ.type = e.typeIn Γ'.type ∧ (e'.WellTypedIn Γ ↔ e.WellTypedIn Γ'))
    (h : Expr.substituteArguments g args = .ok args') :
    Expr.WellTypedArgumentsIn Γ args' ↔ Expr.WellTypedArgumentsIn Γ' args := by
  induction args generalizing args' with
  | nil => cases h; rfl
  | cons arg args ihargs =>
    cases arg with
    | none => cases h
    | some e =>
      simp only [Expr.substituteArguments, bind_eq_ok, pure_eq_ok] at h
      obtain ⟨e', he, args'', hargs, rfl⟩ := h
      rw [Expr.WellTypedArgumentsIn, Expr.WellTypedArgumentsIn, (ih e List.mem_cons_self e' he).2,
        ihargs (fun e h => ih e (List.mem_cons_of_mem _ h)) hargs]

theorem substitute_wellTyped {g : Text → Run Expression} (hg : Describes Γ Γ' g)
    (e : Expression) : ∀ e', e.substitute g = .ok e' →
      e'.typeIn Γ.type = e.typeIn Γ'.type ∧ (e'.WellTypedIn Γ ↔ e.WellTypedIn Γ') := by
  induction e using Expr.ind with
  | variableReference x => exact hg x
  | getAttribute v a ih =>
    intro e' h
    simp only [Expr.substitute, bind_eq_ok, pure_eq_ok] at h
    obtain ⟨v', hv, rfl⟩ := h
    obtain ⟨ht, hw⟩ := ih v' hv
    exact ⟨rfl, by rw [Expr.WellTypedIn, Expr.WellTypedIn, ht, hw]⟩
  | methodCall m args ih =>
    intro e' h
    simp only [Expr.substitute, bind_eq_ok, pure_eq_ok] at h
    obtain ⟨args', hargs, rfl⟩ := h
    exact ⟨rfl, by
      rw [Expr.WellTypedIn, Expr.WellTypedIn, substituteArguments_wellTyped ih hargs]⟩
  | binaryOperation l r op ihl ihr | comparison l r op ihl ihr =>
    intro e' h
    simp only [Expr.substitute, bind_eq_ok, pure_eq_ok] at h
    obtain ⟨l', hl, r', hr, rfl⟩ := h
    obtain ⟨htl, hwl⟩ := ihl l' hl
    obtain ⟨htr, hwr⟩ := ihr r' hr
    simp only [Expr.typeIn, Expr.WellTypedIn, htl, htr, hwl, hwr, and_self]
  | unaryOperation e op ih =>
    intro e' h
    simp only [Expr.substitute, bind_eq_ok, pure_eq_ok] at h
    obtain ⟨s, hs, rfl⟩ := h
    obtain ⟨ht, hw⟩ := ih s hs
    simp only [Expr.typeIn, Expr.WellTypedIn, ht, hw, and_self]
  | _ =>
    intro e' h
    cases h
    simp only [Expr.typeIn, Expr.WellTypedIn, and_self]

/-- The context of an included file describes what include resolution inserts. -/
theorem describes_enter (ctx : IncludeContext) (name : Text) (scope : Option Expression)
    (M : StringExpressionMap) : Describes Γ (Γ.enter scope M) (ctx.insertion name scope M) := by
  intro x e h
  cases scope with
  | some s =>
    simp only [IncludeContext.insertion, bind_eq_ok, pure_eq_ok] at h
    obtain ⟨s', hs, rfl⟩ := h
    obtain ⟨ht, hw⟩ := clone_wellTyped (Γ := Γ) s s' hs
    exact ⟨rfl, by rw [Expr.WellTypedIn, ht, hw]; rfl⟩
  | none =>
    simp only [IncludeContext.insertion] at h
    simp only [TypeContext.enter]
    cases hM : M.find x with
    | none => simp [hM] at h
    | some e₀ =>
      rw [hM] at h
      exact clone_wellTyped e₀ e h

end

/-! ## The resolved tree -/

/-- Resolution step by step: an included file is checked under its context. -/
theorem expand_wellTyped_iff (ctx : IncludeContext) : ∀ (n : Nat) (Γ : TypeContext) (a r : AST),
    a.expand ctx n = .ok r →
      (r.Everywhere (Expr.WellTypedIn Γ) (fun e => e.typeIn Γ.type = .variant)
          (AST.OfArguments (Expr.WellTypedIn Γ) fun e => e.typeIn Γ.type = .variant) ↔
        a.Everywhere (Expr.WellTypedIn Γ) (fun e => e.typeIn Γ.type = .variant)
          (includeFits ctx n Γ))
  | 0, Γ, a, r, h => by
    refine AST.mapIncludes_everywhere (fun name scope M r h => ?_) a r h
    cases h
  | n + 1, Γ, a, r, h => by
    refine AST.mapIncludes_everywhere (fun name scope M r h => ?_) a r h
    simp only [IncludeContext.included, bind_eq_ok] at h
    obtain ⟨b, hb, b', hb', h⟩ := h
    have hg := substitute_wellTyped (describes_enter (Γ := Γ) ctx name scope M)
    have hP : ∀ e e' : Expression, e.substitute (ctx.insertion name scope M) = .ok e' →
        (e'.WellTypedIn Γ ↔ e.WellTypedIn (Γ.enter scope M)) := fun e e' h => (hg e e' h).2
    have hQ : ∀ e e' : Expression, e.substitute (ctx.insertion name scope M) = .ok e' →
        (e'.typeIn Γ.type = .variant ↔ e.typeIn (Γ.enter scope M).type = .variant) :=
      fun e e' h => by rw [(hg e e' h).1]
    rw [AST.mapExpressions_everywhere hP hQ (AST.ofArguments_iff hP hQ) b' r h,
      expand_wellTyped_iff ctx n (Γ.enter scope M) b b' hb', includeFits]
    simp [hb]

theorem wellTyped_iff_data (a : AST) :
    a.WellTyped ↔ a.Everywhere (Expr.WellTypedIn .data)
      (fun e => e.typeIn TypeContext.data.type = .variant)
      (AST.OfArguments (Expr.WellTypedIn .data)
        fun e => e.typeIn TypeContext.data.type = .variant) := by
  have hP : Expr.WellTypedIn .data = Expr.WellTyped :=
    funext fun e => propext (wellTypedIn_data e)
  simp only [AST.WellTyped, hP, typeIn_data]

/-! ## Folding -/

theorem foldBinaryOperation_valueType {left right e : Expression} {op : BinaryOperation}
    (h : foldBinaryOperation left right op = .ok e) :
    e.valueType = (Expr.binaryOperation left right op).valueType := by
  unfold foldBinaryOperation at h
  split at h
  · rw [← pure_eq_ok.1 h]
  · rename_i hnum
    split at h
    · rename_i hdouble
      have hvt : (Expr.binaryOperation left right op).valueType = .double := by
        cases left <;> cases right <;>
          simp_all [isNumericLiteralExpression, isDoubleLiteralExpression, Expr.valueType]
      cases op <;> simp only [foldDoubles, bind_eq_ok, pure_eq_ok] at h
      case modulus => rw [← h]
      all_goals
        obtain ⟨_, -, _, -, rfl⟩ := h
        exact hvt.symm
    · rename_i hdouble
      simp only [bind_eq_ok, pure_eq_ok] at h
      obtain ⟨_, -, _, -, _, -, rfl⟩ := h
      cases left <;> cases right <;>
        simp_all [isNumericLiteralExpression, isDoubleLiteralExpression, Expr.valueType]

theorem foldUnaryOperation_valueType {sub e : Expression} {op : UnaryOperation}
    (h : foldUnaryOperation sub op = .ok e) :
    e.valueType = (Expr.unaryOperation sub op).valueType := by
  cases op with
  | booleanNegation =>
    simp only [foldUnaryOperation, foldNegation] at h
    split at h
    · simp only [bind_eq_ok, pure_eq_ok] at h
      obtain ⟨_, -, rfl⟩ := h
      rfl
    · rw [← pure_eq_ok.1 h]
  | numericPositive | numericNegative =>
    cases sub <;> simp only [foldUnaryOperation, foldSign, bind_eq_ok, pure_eq_ok] at h
    case integerLiteral v =>
      obtain ⟨_, -, rfl⟩ := h
      rfl
    all_goals
      rw [← h]
      try rfl

theorem foldArguments_wellTyped : ∀ {args args' : List (Option Expression)},
    (∀ e, some e ∈ args → ∀ e', e.fold = .ok e' →
      e'.valueType = e.valueType ∧ (e.WellTyped → e'.WellTyped)) →
    Expr.foldArguments args = .ok args' →
      Expr.WellTypedArguments args → Expr.WellTypedArguments args'
  | [], _, _, h, _ => by
    cases h
    trivial
  | none :: _, _, _, h, _ => by cases h
  | some e :: args, _, ih, h, hw => by
    simp only [Expr.foldArguments, bind_eq_ok, pure_eq_ok] at h
    obtain ⟨e', he, args', hargs, rfl⟩ := h
    exact ⟨(ih e List.mem_cons_self e' he).2 hw.1,
      foldArguments_wellTyped (fun e h => ih e (List.mem_cons_of_mem _ h)) hargs hw.2⟩

theorem wellTyped_of_isLiteral {e : Expression} (h : isLiteralExpression e = true) :
    e.WellTyped := by
  cases e <;> trivial

/-- Folding keeps the type of a tree, and keeps a well-typed tree well typed. -/
theorem fold_wellTyped (e : Expression) : ∀ e', e.fold = .ok e' →
    e'.valueType = e.valueType ∧ (e.WellTyped → e'.WellTyped) := by
  induction e using Expr.ind with
  | getAttribute v a ih =>
    intro e' h
    simp only [Expr.fold, bind_eq_ok, pure_eq_ok] at h
    obtain ⟨v', hv, rfl⟩ := h
    obtain ⟨ht, hw⟩ := ih v' hv
    exact ⟨rfl, fun h => ⟨hw h.1, ht.trans h.2⟩⟩
  | methodCall m args ih =>
    intro e' h
    simp only [Expr.fold, bind_eq_ok, pure_eq_ok] at h
    obtain ⟨args', hargs, rfl⟩ := h
    exact ⟨rfl, foldArguments_wellTyped ih hargs⟩
  | binaryOperation l r op ihl ihr =>
    intro e' h
    simp only [Expr.fold, bind_eq_ok] at h
    obtain ⟨left, hl, right, hr, h⟩ := h
    obtain ⟨htl, hwl⟩ := ihl left hl
    obtain ⟨htr, hwr⟩ := ihr right hr
    refine ⟨?_, fun hw => ?_⟩
    · rw [foldBinaryOperation_valueType h]
      simp only [Expr.valueType, htl, htr]
    · rcases foldBinaryOperation_cases h with hlit | rfl
      · exact wellTyped_of_isLiteral hlit
      · obtain ⟨hl, hr, hnl, hnr⟩ := hw
        exact ⟨hwl hl, hwr hr, by rwa [htl], by rwa [htr]⟩
  | unaryOperation e op ih =>
    intro e' h
    simp only [Expr.fold, bind_eq_ok] at h
    obtain ⟨sub, hs, h⟩ := h
    obtain ⟨ht, hw⟩ := ih sub hs
    refine ⟨?_, fun hwe => ?_⟩
    · rw [foldUnaryOperation_valueType h]
      simp only [Expr.valueType, ht]
    · rcases foldUnaryOperation_cases h with hlit | rfl
      · exact wellTyped_of_isLiteral hlit
      · exact ⟨hw hwe.1, by rw [ht]; exact hwe.2⟩
  | comparison l r op ihl ihr =>
    intro e' h
    simp only [Expr.fold, bind_eq_ok] at h
    obtain ⟨left, hl, right, hr, h⟩ := h
    obtain ⟨htl, hwl⟩ := ihl left hl
    obtain ⟨htr, hwr⟩ := ihr right hr
    rcases foldComparison_cases h with ⟨v, rfl⟩ | rfl
    · exact ⟨rfl, fun _ => trivial⟩
    · refine ⟨rfl, fun hw => ?_⟩
      obtain ⟨hl, hr, hol, hor⟩ := hw
      exact ⟨hwl hl, hwr hr, by rwa [htl], by rwa [htr]⟩
  | _ =>
    intro e' h
    cases h
    exact ⟨rfl, id⟩

/-- `FoldConstantExpressionsPass` on a tree. -/
def foldTree (a : AST) : Run AST := (expressionPassWrapper foldConstantExpressions).run a

theorem foldTree_wellTyped {a a' : AST} (h : foldTree a = .ok a') (hw : a.WellTyped) :
    a'.WellTyped := by
  have hf : foldConstantExpressions = Expr.fold := funext foldConstantExpressions_eq_fold
  rw [foldTree, ASTPass.run_wrapper, hf] at h
  -- a property of the folded expressions, as a property of the expressions themselves
  have hP : ∀ e e' : Expression, e.fold = .ok e' →
      (e'.WellTyped ↔ ∀ e'', e.fold = .ok e'' → e''.WellTyped) := by
    intro e e' he
    simp [he]
  have hQ : ∀ e e' : Expression, e.fold = .ok e' →
      (e'.valueType = .variant ↔ e.valueType = .variant) := by
    intro e e' he
    rw [(fold_wellTyped e e' he).1]
  have hmono : ∀ e : Expression, e.WellTyped → ∀ e', e.fold = .ok e' → e'.WellTyped :=
    fun e he e' h => (fold_wellTyped e e' h).2 he
  refine (AST.mapExpressions_everywhere hP hQ (AST.ofArguments_iff hP hQ) a a' h).2 ?_
  refine AST.Everywhere.mono hmono (fun e h => h) ?_ a hw
  exact fun name scope M h =>
    ⟨fun s hs => ⟨hmono s (h.1 s hs).1, (h.1 s hs).2⟩, fun p hp => hmono p.2 (h.2 p hp)⟩

/-! ## Include resolution and folding -/

/-- The parser's checks hold of the tree the include pass returned and, after it, of the
tree the folding pass returns. -/
def KeepsOperandTypes (r : AST) : Prop :=
  r.WellTyped ∧ ∀ r', foldTree r = .ok r' → r'.WellTyped

/-- The operands of a resolved template are what the parser checks exactly when every
included file passes those checks with what is inserted for its variables. -/
theorem resolveIncludes_keepsOperandTypes_iff {ctx : IncludeContext} {t : RootTree} {line n : Nat}
    {main r : AST} (hmain : t.action line = .ok main)
    (h : ctx.resolveIncludesPass.process n main = .ok r) :
    KeepsOperandTypes r ↔ IncludesFit ctx n main := by
  have hw := RootTree.action_wellTyped hmain
  have hkeeps : KeepsOperandTypes r ↔ r.WellTyped :=
    ⟨fun h => h.1, fun h => ⟨h, fun r' hr => foldTree_wellTyped hr h⟩⟩
  rw [hkeeps, wellTyped_iff_data,
    expand_wellTyped_iff ctx n .data main r (ctx.process_eq_expand n main r h), IncludesFit]
  exact AST.Everywhere.include_iff ((wellTyped_iff_data main).1 hw)

/-- `{{ x + 1 }}`. -/
def sumTemplate : RootTree :=
  .statements (.one (.printBlock (.binaryOperation (.varRef (.identifier "x".toList))
    (.integerLiteral 1) .addition)))

/-- `{% include "f" with x=... %}`. -/
def includeSumTemplate (x : ExpressionTree) : RootTree :=
  .statements (.one (.includeBlock (.withMapping "f".toList (.assign "x".toList x))))

/-- Every file is `{{ x + 1 }}`. -/
def sumContext : IncludeContext := ⟨"t".toList, fun _ => sumTemplate.action 1⟩

/-- An integer fits. -/
theorem keepsOperandTypes_integer :
    KeepsOperandTypes (.printBlock (.binaryOperation (.integerLiteral 2) (.integerLiteral 1)
      .addition)) := by
  refine (@resolveIncludes_keepsOperandTypes_iff sumContext
    (includeSumTemplate (.integerLiteral 2)) 1 2 _ _ rfl rfl).2 ?_
  rintro _ ⟨⟩
  exact ⟨trivial, trivial, by decide, by decide⟩

/-- A string does not: the parser accepts both files, and the resolved tree adds a string. -/
theorem not_keepsOperandTypes_string :
    ∃ main r, (includeSumTemplate (.stringLiteral "a".toList)).action 1 = .ok main ∧
      sumContext.resolveIncludesPass.process 2 main = .ok r ∧ ¬KeepsOperandTypes r := by
  refine ⟨_, _, rfl, rfl, ?_⟩
  rintro ⟨⟨-, -, h, -⟩, -⟩
  exact absurd h (by decide)

end B2
