import B2.Llvm.Typing
import B2.Parser.OperandTypes

/-!
# Predicted values

`valueType()` names a class of values, `irType` is the type the visitor builds.
On trees the parser accepts the two agree but for `!`: the bindings make a
variant of the negation of a variant, and `valueType()` says `BooleanType`.
-/

namespace B2

open PHPBindings LLVMVisitor

/-- The class of the values of a type. -/
def IRType.valueClass : IRType → Option ExpressionValueType
  | .integer 1 => some .boolean
  | .integer 64 => some .integer
  | .double => some .double
  | .pointer (.integer 8) => some .string
  | .pointer (.struct .zval) => some .variant
  | _ => none

/-- The type of the values of a class. -/
def ExpressionValueType.irType : ExpressionValueType → IRType
  | .boolean => .int1
  | .integer => .int64
  | .double => .double
  | .string => .string
  | .variant => .variant

theorem valueClass_irType (c : ExpressionValueType) : c.irType.valueClass = some c := by
  cases c <;> rfl

namespace Expr

mutual

/-- An expression and everything below it. -/
def subexpressions : Expression → List Expression
  | .getAttribute v a => .getAttribute v a :: v.subexpressions
  | .methodCall m args => .methodCall m args :: argumentSubexpressions args
  | .binaryOperation l r op =>
    .binaryOperation l r op :: (l.subexpressions ++ r.subexpressions)
  | .unaryOperation e op => .unaryOperation e op :: e.subexpressions
  | .comparison l r op => .comparison l r op :: (l.subexpressions ++ r.subexpressions)
  | .variableReference x => [.variableReference x]
  | .doubleLiteral v => [.doubleLiteral v]
  | .integerLiteral v => [.integerLiteral v]
  | .booleanLiteral v => [.booleanLiteral v]
  | .stringLiteral v => [.stringLiteral v]

def argumentSubexpressions : List (Option Expression) → List Expression
  | [] => []
  | none :: args => argumentSubexpressions args
  | some e :: args => e.subexpressions ++ argumentSubexpressions args

end

theorem mem_subexpressions_self (e : Expression) : e ∈ e.subexpressions := by
  cases e <;> simp [subexpressions]

theorem mem_argumentSubexpressions {e' : Expression} {args : List (Option Expression)} :
    e' ∈ argumentSubexpressions args ↔ ∃ e, some e ∈ args ∧ e' ∈ e.subexpressions := by
  induction args with
  | nil => simp [argumentSubexpressions]
  | cons arg args ih => cases arg <;> simp [argumentSubexpressions, ih]

/-- No `!` of the expression has an operand that `valueType()` calls a variant. -/
def NegatesNoVariant (e : Expression) : Prop :=
  ∀ e', .unaryOperation e' .booleanNegation ∈ e.subexpressions → e'.valueType ≠ .variant

end Expr

/-- From the state `s` the visitor makes of every subexpression a value of the class that its
`valueType()` names. -/
def PredictsClasses (B : IRBuilder) (s : Codegen) (e : Expression) : Prop :=
  ∀ e' ∈ e.subexpressions, ∃ v, (expression B e' s).result = .ok v ∧
    v.type.valueClass = some e'.valueType

/-! ## Types of accepted expressions -/

namespace Expr

/-- What `valueType()` calls a variant is one. -/
theorem irType_of_variant (e : Expression) : e.valueType = .variant → e.irType = .variant := by
  induction e using Expr.ind with
  | variableReference x => exact fun _ => rfl
  | getAttribute v a _ => exact fun _ => rfl
  | methodCall m args _ => exact fun _ => rfl
  | doubleLiteral v => nofun
  | integerLiteral v => nofun
  | booleanLiteral v => nofun
  | stringLiteral v => nofun
  | comparison l r op _ _ => nofun
  | binaryOperation l r op ihl ihr =>
    intro h
    unfold valueType at h
    simp only at h
    split at h
    · rename_i hv
      exact if_pos (hv.imp ihl ihr)
    · split at h
      · cases h
      · split at h <;> cases h
  | unaryOperation e op ih =>
    intro h
    unfold valueType at h
    cases op with
    | booleanNegation => cases h
    | numericPositive | numericNegative =>
      simp only at h
      cases he : e.valueType <;> rw [he] at h <;> cases h
      exact ih he

theorem generatesArguments_iff {args : List (Option Expression)} :
    GeneratesArguments args ↔
      ∃ es : List Expression, args = es.map some ∧ ∀ e ∈ es, e.Generates := by
  induction args with
  | nil => exact ⟨fun _ => ⟨[], rfl, by simp⟩, fun _ => trivial⟩
  | cons arg args ih =>
    cases arg with
    | none =>
      refine ⟨by rintro ⟨⟩, ?_⟩
      rintro ⟨es, h, -⟩
      cases es <;> simp at h
    | some e =>
      rw [GeneratesArguments, ih]
      constructor
      · rintro ⟨he, es, rfl, hes⟩
        exact ⟨e :: es, rfl, by simpa using ⟨he, hes⟩⟩
      · rintro ⟨es, h, hes⟩
        cases es with
        | nil => simp at h
        | cons e' es =>
          simp only [List.map_cons, List.cons.injEq, Option.some.injEq] at h
          obtain ⟨rfl, rfl⟩ := h
          exact ⟨hes _ List.mem_cons_self, es, rfl,
            fun e he => hes e (List.mem_cons_of_mem _ he)⟩

/-- The visitor makes a value of what the parser accepts. -/
theorem generates_of_wellTyped (e : Expression) : e.WellTyped → e.Proper → e.Generates := by
  induction e using Expr.ind with
  | getAttribute v a ih => exact fun h hp => ⟨ih h.1 hp, irType_of_variant v h.2⟩
  | methodCall m args ih =>
    intro h hp
    obtain ⟨es, rfl, hes⟩ := properArguments_iff.1 hp
    refine generatesArguments_iff.2 ⟨es, rfl, fun e he => ?_⟩
    have hwell : ∀ e ∈ es, e.WellTyped := wellTypedArguments_map_some.1 h
    exact ih e (List.mem_map_of_mem he) (hwell e he) (hes e he)
  | binaryOperation l r op ihl ihr => exact fun h hp => ⟨ihl h.1 hp.1, ihr h.2.1 hp.2⟩
  | comparison l r op ihl ihr => exact fun h hp => ⟨ihl h.1 hp.1, ihr h.2.1 hp.2⟩
  | unaryOperation e op ih => exact fun h hp => ih h.1 hp
  | _ => exact fun _ _ => trivial

/-- The subexpressions inherit what the parser enforces. -/
theorem wellTyped_subexpressions (e : Expression) : e.WellTyped → e.Proper →
    ∀ e' ∈ e.subexpressions, e'.WellTyped ∧ e'.Proper := by
  induction e using Expr.ind with
  | variableReference x | doubleLiteral v | integerLiteral v | booleanLiteral v
  | stringLiteral v => simp [subexpressions, WellTyped, Proper]
  | getAttribute v a ih =>
    intro h hp e' he'
    rcases List.mem_cons.1 he' with rfl | he'
    · exact ⟨h, hp⟩
    · exact ih h.1 hp e' he'
  | methodCall m args ih =>
    intro h hp e' he'
    rcases List.mem_cons.1 he' with rfl | he'
    · exact ⟨h, hp⟩
    · obtain ⟨es, rfl, hes⟩ := properArguments_iff.1 hp
      obtain ⟨e, he, he'⟩ := mem_argumentSubexpressions.1 he'
      have hmem : e ∈ es := by simpa using he
      exact ih e he (wellTypedArguments_map_some.1 h e hmem) (hes e hmem) e' he'
  | binaryOperation l r op ihl ihr | comparison l r op ihl ihr =>
    intro h hp e' he'
    rcases List.mem_cons.1 he' with rfl | he'
    · exact ⟨h, hp⟩
    · rcases List.mem_append.1 he' with he' | he'
      · exact ihl h.1 hp.1 e' he'
      · exact ihr h.2.1 hp.2 e' he'
  | unaryOperation e op ih =>
    intro h hp e' he'
    rcases List.mem_cons.1 he' with rfl | he'
    · exact ⟨h, hp⟩
    · exact ih h.1 hp e' he'

end Expr

/-- The two typings of a binary operation. -/
theorem binaryType_irType (op : BinaryOperation) {a b : ExpressionValueType}
    (ha : numericOrVariant a) (hb : numericOrVariant b) :
    binaryType op a.irType b.irType =
      (if a = .variant ∨ b = .variant then ExpressionValueType.variant
        else if a = .double ∨ b = .double then .double
        else if a = .integer ∧ b = .integer then .integer else .double).irType := by
  cases a <;> cases b <;> simp only [numericOrVariant, Bool.false_eq_true] at ha hb
  all_goals cases op <;> rfl

/-- The two typings of a comparison. -/
theorem comparisonType_irType (op : ComparisonOperation) {a b : ExpressionValueType}
    (ha : operandType op a) (hb : operandType op b) :
    comparisonType op a.irType b.irType = .int1 := by
  cases op <;> cases a <;> simp only [operandType, numericOrVariant, booleanOrVariant,
    Bool.false_eq_true] at ha <;> cases b <;> first | rfl | cases hb

namespace Expr

/-- What is below a subexpression is below the expression. -/
theorem subexpressions_trans (e : Expression) : ∀ e' ∈ e.subexpressions,
    ∀ s ∈ e'.subexpressions, s ∈ e.subexpressions := by
  induction e using Expr.ind with
  | variableReference x | doubleLiteral v | integerLiteral v | booleanLiteral v
  | stringLiteral v => simp [subexpressions]
  | getAttribute e _ ih | unaryOperation e _ ih =>
    intro e' he' s hs
    rcases List.mem_cons.1 he' with rfl | he'
    · exact hs
    · exact List.mem_cons_of_mem _ (ih e' he' s hs)
  | methodCall m args ih =>
    intro e' he' s hs
    rcases List.mem_cons.1 he' with rfl | he'
    · exact hs
    · obtain ⟨e, he, he'⟩ := mem_argumentSubexpressions.1 he'
      exact List.mem_cons_of_mem _ (mem_argumentSubexpressions.2 ⟨e, he, ih e he e' he' s hs⟩)
  | binaryOperation l r op ihl ihr | comparison l r op ihl ihr =>
    intro e' he' s hs
    rcases List.mem_cons.1 he' with rfl | he'
    · exact hs
    · refine List.mem_cons_of_mem _ (List.mem_append.2 ?_)
      exact (List.mem_append.1 he').imp (fun he' => ihl e' he' s hs) fun he' => ihr e' he' s hs

theorem NegatesNoVariant.mono {e e' : Expression} (h : e.NegatesNoVariant)
    (hsub : ∀ s ∈ e'.subexpressions, s ∈ e.subexpressions) : e'.NegatesNoVariant :=
  fun s hs => h s (hsub _ hs)

/-- A sign leaves the class of a number or a variant as it is. -/
theorem valueType_sign {e : Expression} {op : UnaryOperation}
    (h : numericOrVariant e.valueType) (hop : op ≠ .booleanNegation) :
    (Expr.unaryOperation e op).valueType = e.valueType := by
  cases op with
  | booleanNegation => exact absurd rfl hop
  | numericPositive | numericNegative =>
    simp only [Expr.valueType]
    cases hv : e.valueType <;> rw [hv] at h <;> first | rfl | cases h

/-- The agreement of the two typings. -/
theorem irType_eq (e : Expression) : e.WellTyped → e.NegatesNoVariant →
    e.irType = e.valueType.irType := by
  induction e using Expr.ind with
  | binaryOperation l r op ihl ihr =>
    intro h hn
    have hl := ihl h.1 (hn.mono fun s hs => List.mem_cons_of_mem _ (List.mem_append_left _ hs))
    have hr := ihr h.2.1 (hn.mono fun s hs => List.mem_cons_of_mem _ (List.mem_append_right _ hs))
    show binaryType op l.irType r.irType = _
    rw [hl, hr, binaryType_irType op h.2.2.1 h.2.2.2]
    rfl
  | comparison l r op ihl ihr =>
    intro h hn
    have hl := ihl h.1 (hn.mono fun s hs => List.mem_cons_of_mem _ (List.mem_append_left _ hs))
    have hr := ihr h.2.1 (hn.mono fun s hs => List.mem_cons_of_mem _ (List.mem_append_right _ hs))
    show comparisonType op l.irType r.irType = _
    rw [hl, hr, comparisonType_irType op h.2.2.1 h.2.2.2]
    rfl
  | unaryOperation e op ih =>
    intro h hn
    have he := ih h.1 (hn.mono fun s hs => List.mem_cons_of_mem _ hs)
    show e.irType = _
    rw [he]
    by_cases hop : op = .booleanNegation
    · subst hop
      have hvar := hn e (mem_subexpressions_self _)
      have hbool : booleanOrVariant e.valueType = true := h.2
      cases hv : e.valueType <;> rw [hv] at hbool hvar <;> first | rfl | cases hbool
      exact absurd rfl hvar
    · have hnum : numericOrVariant e.valueType = true := by
        have := h.2
        cases op <;> first | exact this | exact absurd rfl hop
      rw [valueType_sign hnum hop]
  | _ => exact fun _ _ => rfl

end Expr

/-! ## The values -/

/-- From a state whose loop variables are counted the visitor makes a value of `irType`. -/
theorem expression_ok {B : IRBuilder} {s : Codegen} {e : Expression} (hs : s.Ready)
    (he : e.Generates) : ∃ v, (expression B e s).result = .ok v ∧ v.type = e.irType := by
  have h := expression_spec (B := B) e hs
  unfold Gives Effect.Traced.Sat at h
  cases hr : (expression B e s).result with
  | ok v =>
    rw [hr] at h
    exact ⟨v, rfl, h.2.2.type⟩
  | error err =>
    rw [hr] at h
    exact absurd he h.2.2

/-- `valueType()` names the classes of the values of an accepted expression and its
subexpressions if and only if the expression negates no variant. -/
theorem predictsClasses_iff {B : IRBuilder} {s : Codegen} (hs : s.Ready) {t : ExpressionTree}
    {line : Nat} {e : Expression} (he : t.action line = .ok e) :
    PredictsClasses B s e ↔ e.NegatesNoVariant := by
  have hsub := e.wellTyped_subexpressions (t.action_wellTyped e he) (t.action_proper e he)
  constructor
  · intro h e' hmem hvar
    obtain ⟨v, hv, hclass⟩ := h _ hmem
    obtain ⟨u, hu, htype⟩ := expression_ok (B := B) hs
      (Expr.generates_of_wellTyped _ (hsub _ hmem).1 (hsub _ hmem).2)
    obtain rfl : u = v := Except.ok.inj (hu.symm.trans hv)
    rw [htype, show (Expr.unaryOperation e' .booleanNegation).irType = e'.irType from rfl,
      e'.irType_of_variant hvar] at hclass
    cases hclass
  · intro h e' hmem
    obtain ⟨hw, hp⟩ := hsub e' hmem
    obtain ⟨v, hv, htype⟩ := expression_ok (B := B) hs (Expr.generates_of_wellTyped e' hw hp)
    refine ⟨v, hv, ?_⟩
    rw [htype, e'.irType_eq hw (h.mono (e.subexpressions_trans e' hmem))]
    exact valueClass_irType _

/-- `!x`. -/
def negatedVariable : ExpressionTree := .not (.varRef (.identifier ['x']))

/-- `-x`. -/
def minusVariable : ExpressionTree := .minus (.varRef (.identifier ['x']))

theorem predictsClasses_minusVariable :
    PredictsClasses .noFolding .fresh
      (.unaryOperation (.variableReference ['x']) .numericNegative) := by
  have h : minusVariable.action 1 =
      .ok (.unaryOperation (.variableReference ['x']) .numericNegative) := rfl
  refine (predictsClasses_iff Codegen.ready_fresh h).2 fun e' he' => ?_
  simp [Expr.subexpressions] at he'

/-- The parser accepts `!x`, a variant that `valueType()` calls a boolean. -/
theorem not_predictsClasses_negatedVariable :
    ∃ e, negatedVariable.action 1 = .ok e ∧ ¬PredictsClasses .noFolding .fresh e := by
  refine ⟨.unaryOperation (.variableReference ['x']) .booleanNegation, rfl, fun h => ?_⟩
  obtain ⟨v, hv, hclass⟩ := h _ (Expr.mem_subexpressions_self _)
  have heq : v = .instruction 6 .variant := by
    cases hv
    rfl
  subst heq
  cases hclass

end B2
