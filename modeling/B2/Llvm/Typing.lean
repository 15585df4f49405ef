import B2.Php.Rules

/-!
# The values of expressions

`Expr.irType` is the type of the value that the visitor makes of an expression,
and `Expr.Generates` says that it makes one. `expression_spec` is what a visit of
an expression does to the state, over every other result about expressions.
-/

namespace B2

open Effect.Traced (Sat sat_bind sat_pure sat_tell sat_get sat_modify sat_throw)
open PHPBindings LLVMVisitor
open IRAction (OutsideLoops Plain Quiet)

namespace LLVMVisitor

/-- The type of a `numericOperation` on operands that are no variants. -/
def numericType (integerOp floatOp : Operation) (left right : IRType) : IRType :=
  if left.isInteger ∧ right.isInteger then integerOp.resultType [left, right]
  else floatOp.resultType [.double, .double]

def binaryType (op : BinaryOperation) (left right : IRType) : IRType :=
  if left = .variant ∨ right = .variant then .variant
  else numericType (integerOperation op) (floatOperation op) left right

def comparisonType (op : ComparisonOperation) (left right : IRType) : IRType :=
  if left = .variant ∨ right = .variant then .int1
  else numericType (integerComparison op) (floatComparison op) left right

end LLVMVisitor

namespace Expr

/-- The type of the value the visitor makes. -/
def irType : Expression → IRType
  | .variableReference _ | .getAttribute .. | .methodCall .. => .variant
  | .doubleLiteral _ => .double
  | .integerLiteral _ => .int64
  | .booleanLiteral _ => .int1
  | .stringLiteral _ => .string
  | .binaryOperation l r op => binaryType op l.irType r.irType
  | .unaryOperation e _ => e.irType
  | .comparison l r op => comparisonType op l.irType r.irType

mutual

/-- The visitor makes a value: no argument is null, and attributes are those of variants. -/
def Generates : Expression → Prop
  | .getAttribute v _ => v.Generates ∧ v.irType = .variant
  | .methodCall _ args => GeneratesArguments args
  | .binaryOperation l r _ | .comparison l r _ => l.Generates ∧ r.Generates
  | .unaryOperation e _ => e.Generates
  | .variableReference _ | .doubleLiteral _ | .integerLiteral _ | .booleanLiteral _
  | .stringLiteral _ => True

def GeneratesArguments : List (Option Expression) → Prop
  | [] => True
  | none :: _ => False
  | some e :: args => e.Generates ∧ GeneratesArguments args

end

end Expr

namespace LLVMVisitor

theorem isScalar_numericType {iop fop : Operation} {l r : IRType} (hl : l.IsScalar)
    (hi : iop.resultType [l, r] = l ∨ iop.resultType [l, r] = .int1)
    (hf : fop.resultType [.double, .double] = .double ∨
      fop.resultType [.double, .double] = .int1) : (numericType iop fop l r).IsScalar := by
  unfold numericType
  split
  · rcases hi with hi | hi <;> rw [hi]
    · exact hl
    · exact .inr (.inl rfl)
  · rcases hf with hf | hf <;> rw [hf]
    · exact .inl rfl
    · exact .inr (.inl rfl)

theorem binaryType_cases (op : BinaryOperation) {l r : IRType}
    (hl : l.IsScalar ∨ l = .variant) :
    (binaryType op l r).IsScalar ∨ binaryType op l r = .variant := by
  unfold binaryType
  split
  · exact .inr rfl
  · rename_i h
    refine .inl (isScalar_numericType (hl.resolve_right fun hl => h (.inl hl)) ?_ ?_)
    · cases op <;> exact .inl rfl
    · cases op <;> exact .inl rfl

theorem isScalar_comparisonType (op : ComparisonOperation) {l r : IRType}
    (hl : l.IsScalar ∨ l = .variant) : (comparisonType op l r).IsScalar := by
  unfold comparisonType
  split
  · exact .inr (.inl rfl)
  · rename_i h
    refine isScalar_numericType (hl.resolve_right fun hl => h (.inl hl)) ?_ ?_
    · cases op <;> first | exact .inl rfl | exact .inr rfl
    · cases op <;> first | exact .inl rfl | exact .inr rfl

end LLVMVisitor

/-- The five classes of values. -/
theorem Expr.irType_cases (e : Expression) : e.irType.IsScalar ∨ e.irType = .variant := by
  induction e using Expr.ind with
  | variableReference x => exact .inr rfl
  | getAttribute v a _ => exact .inr rfl
  | methodCall m args _ => exact .inr rfl
  | doubleLiteral v => exact .inl (.inl rfl)
  | integerLiteral v => exact .inl (.inr (.inr (.inl rfl)))
  | booleanLiteral v => exact .inl (.inr (.inl rfl))
  | stringLiteral v => exact .inl (.inr (.inr (.inr rfl)))
  | unaryOperation e op ih => exact ih
  | binaryOperation l r op ihl _ => exact binaryType_cases op ihl
  | comparison l r op ihl _ => exact .inl (isScalar_comparisonType op ihl)

theorem Expr.binaryType_eq_variant {op : BinaryOperation} {l r : IRType} (hl : l.IsScalar ∨ l = .variant)
    (h : binaryType op l r = .variant) : l = .variant ∨ r = .variant := by
  by_contra hn
  have hs := hl.resolve_right fun hl => hn (.inl hl)
  rw [binaryType, if_neg hn] at h
  refine (isScalar_numericType (r := r) hs ?_ ?_).ne_variant h
  · cases op <;> exact .inl rfl
  · cases op <;> exact .inl rfl

namespace LLVMVisitor

variable {B : IRBuilder} {s : Codegen} {R : Codegen → Prop}

/-- What the visitor's value of an expression is. -/
structure Result (e : Expression) (s s' : Codegen) (v : Value) : Prop where
  generates : e.Generates
  usable : s'.Usable v
  type : v.type = e.irType
  /-- a variant is a loop variable or a new value -/
  origin : v.type = .variant →
    (∃ x, e = .variableReference x ∧ s.overridenVariables x = some v) ∨ s.Fresh v

theorem Result.mono {e : Expression} {s s' s'' : Codegen} {v : Value} (h : Result e s s' v)
    (hs : s'.Grows s'') : Result e s s'' v := { h with usable := h.usable.mono hs }

/-! ## Operations -/

theorem plain_operation {op : Operation} {vs : List Value} (v : Value) :
    Plain (.operation op vs v) := ⟨trivial, id⟩

theorem gives_toDouble {v : Value} :
    Gives Plain (toDouble B v) s (fun _ u => u.type = .double) R := by
  unfold toDouble
  split
  · rename_i h
    refine Gives.pure ?_
    cases hv : v.type <;> simp_all [IRType.isFloatingPoint]
  · exact Gen.gives_operation plain_operation

theorem gives_numericOperation {iop fop : Operation} {left right : Value} :
    Gives Plain (numericOperation B iop fop left right) s
      (fun _ v => v.type = numericType iop fop left.type right.type) R := by
  unfold numericOperation numericType
  split
  · exact Gen.gives_operation plain_operation
  · refine gives_toDouble.seq fun s₁ l _ hl => ?_
    refine gives_toDouble.seq fun s₂ r _ hr => ?_
    refine (Gen.gives_operation plain_operation).mono (fun _ => id) ?_ fun _ _ => id
    intro s₃ v _ hv
    simp only [hv, List.map_cons, List.map_nil, hl, hr]

theorem gives_plain {α : Type} {m : Gen α} {P : Codegen → α → Prop}
    (h : Gives Quiet m s P R) : Gives Plain m s P R :=
  h.mono (fun _ hx => hx.plain) (fun _ _ _ => id) fun _ _ => id

theorem gives_binaryOperation {op : BinaryOperation} {left right : Value} (hs : s.Ready)
    (hl : s.Usable left) (hr : s.Usable right) :
    Gives Plain (binaryOperation B op left right) s
      (fun s' v => s'.Usable v ∧ v.type = binaryType op left.type right.type ∧
        (v.type = .variant → s.Fresh v)) R := by
  have hlt := hl.imp_right fun h => (hs.made h).type
  unfold binaryOperation
  simp only [isVariantType_iff]
  split
  · rename_i h
    refine (gives_plain (gives_variantBinaryOperation hs hl hr)).mono (fun _ => id) ?_ fun _ _ => id
    rintro s' v g ⟨hv, hf⟩
    refine ⟨.inr hv, ?_, fun _ => hf⟩
    rw [binaryType, if_pos h, ((g.ready hs).made hv).type]
  · rename_i h
    refine gives_numericOperation.mono (fun _ => id) (fun s' v _ hv => ?_) fun _ _ => id
    have ht : v.type = binaryType op left.type right.type := by rw [binaryType, if_neg h, hv]
    have hscalar : v.type.IsScalar := by
      rw [hv]
      refine isScalar_numericType (hlt.resolve_right fun hl => h (.inl hl)) ?_ ?_
      · cases op <;> exact .inl rfl
      · cases op <;> exact .inl rfl
    exact ⟨.inl hscalar, ht, fun h => absurd h hscalar.ne_variant⟩

theorem gives_comparison {op : ComparisonOperation} {left right : Value} (hs : s.Ready)
    (hl : s.Usable left) (hr : s.Usable right) :
    Gives Plain (comparison B op left right) s
      (fun _ v => v.type = comparisonType op left.type right.type) R := by
  unfold comparison
  simp only [isVariantType_iff]
  split
  · rename_i h
    refine (gives_plain (gives_variantComparison hs hl hr)).mono (fun _ => id) ?_ fun _ _ => id
    intro s' v _ hv
    rw [comparisonType, if_pos h, hv]
  · rename_i h
    refine gives_numericOperation.mono (fun _ => id) (fun s' v _ hv => ?_) fun _ _ => id
    rw [comparisonType, if_neg h, hv]

theorem gives_unaryOperation {op : UnaryOperation} {v : Value} (hs : s.Ready)
    (hv : s.Usable v) :
    Gives Plain (unaryOperation B op v) s
      (fun s' u => s'.Usable u ∧ u.type = v.type ∧ (u.type = .variant → s.Fresh u)) R := by
  unfold unaryOperation
  simp only [isVariantType_iff]
  split
  · rename_i h
    refine (gives_plain (gives_variantUnaryOperation hs hv)).mono (fun _ => id) ?_ fun _ _ => id
    rintro s' u g ⟨hu, hf⟩
    exact ⟨.inr hu, ((g.ready hs).made hu).type.trans h.symm, fun _ => hf⟩
  · rename_i h
    have hscalar := hv.resolve_right fun hc => h ((hs.made hc).type)
    have huse : ∀ {s' : Codegen} {u : Value}, u.type = v.type →
        s'.Usable u ∧ u.type = v.type ∧ (u.type = .variant → s.Fresh u) := fun hu =>
      ⟨.inl (hu ▸ hscalar), hu, fun hc => absurd (hu.symm.trans hc) h⟩
    cases op with
    | numericPositive => exact Gives.pure (huse rfl)
    | numericNegative =>
      exact (Gen.gives_operation plain_operation).mono (fun _ => id)
        (fun _ _ _ hu => huse hu) fun _ _ => id
    | booleanNegation =>
      exact (Gen.gives_operation plain_operation).mono (fun _ => id)
        (fun _ _ _ hu => huse hu) fun _ _ => id

theorem gives_quiet {α : Type} {m : Gen α} {P : Codegen → α → Prop}
    (h : Gives Quiet m s P R) : Gives OutsideLoops m s P R :=
  h.mono (fun _ hx => hx.outsideLoops) (fun _ _ _ => id) fun _ _ => id

/-! ## Expressions -/

theorem gives_variableReference {x : Text} (hs : s.Ready) :
    Gives OutsideLoops (variableReferenceExpression x) s
      (fun s' v => Result (.variableReference x) s s' v) R := by
  unfold variableReferenceExpression
  have hend : ∀ {s' : Codegen} {v : Value}, s.Grows s' → s'.Counted v →
      (s.overridenVariables x = some v ∨ s.Fresh v) →
      Gives OutsideLoops (do
        Effect.Traced.tell (.reference x v)
        pure v) s' (fun s'' u => Result (.variableReference x) s s'' u) R := by
    intro s' v g hv ho
    refine (Gen.gives_tell trivial).seq fun s'' _ g' _ => Gives.pure ?_
    have hc := g'.counted _ hv
    refine ⟨trivial, .inr hc, (((g.trans g').ready hs).made hc).type, fun _ => ?_⟩
    exact ho.imp_left fun ho => ⟨x, rfl, ho⟩
  refine Gives.get.seq ?_
  rintro _ _ - ⟨rfl, rfl⟩
  cases hx : s.overridenVariables x with
  | none =>
    refine (gives_quiet gives_variableLookup).seq ?_
    rintro s' v g ⟨hv, hf⟩
    exact hend g hv (.inr hf)
  | some v =>
    refine (gives_quiet (gives_newReference hs (hs.overriden hx))).seq ?_
    rintro s' _ g rfl
    exact hend g (g.counted _ (hs.overriden hx)) (.inl hx)

theorem expressions_spec {args : List (Option Expression)}
    (ih : ∀ e, some e ∈ args → ∀ {s : Codegen}, s.Ready →
      Gives OutsideLoops (expression B e) s (Result e s) (fun _ => ¬e.Generates)) :
    ∀ {s : Codegen}, s.Ready → Gives OutsideLoops (expressions B args) s
      (fun s' vs => Expr.GeneratesArguments args ∧ (∀ v ∈ vs, s'.Usable v) ∧
        vs.length = args.length)
      (fun _ => ¬Expr.GeneratesArguments args) := by
  induction args with
  | nil =>
    intro s hs
    exact Gives.pure ⟨trivial, by simp, rfl⟩
  | cons arg args iha =>
    intro s hs
    cases arg with
    | none => exact Gives.throw id
    | some e =>
      unfold expressions
      refine (ih e List.mem_cons_self hs).bind (fun s₁ v g₁ hv => ?_) fun _ _ h h' => h h'.1
      refine (iha (fun e he => ih e (List.mem_cons_of_mem _ he)) (g₁.ready hs)).bind ?_
        fun _ _ h h' => h h'.2
      rintro s₂ vs g₂ ⟨hgen, hvs, hlen⟩
      refine Gives.pure ⟨⟨hv.generates, hgen⟩, ?_, congrArg Nat.succ hlen⟩
      exact List.forall_mem_cons.2 ⟨hv.usable.mono g₂, hvs⟩

theorem expression_spec (e : Expression) : ∀ {s : Codegen}, s.Ready →
    Gives OutsideLoops (expression B e) s (Result e s) (fun _ => ¬e.Generates) := by
  induction e using Expr.ind with
  | variableReference x =>
    intro s hs
    unfold expression
    exact gives_variableReference hs
  | getAttribute v a ih =>
    intro s hs
    unfold expression
    refine (ih hs).bind (fun s₁ p g₁ hp => ?_) fun _ _ h h' => h h'.1
    rcases hp.usable with hu | hu
    · refine (gives_quiet (gives_getAttribute_error (g₁.ready hs) hu)).mono (fun _ => id)
        (fun _ _ _ => False.elim) ?_
      rintro _ _ - ⟨-, hv⟩
      exact hu.ne_variant (hp.type.trans hv)
    · refine (gives_quiet (gives_getAttribute (g₁.ready hs) hu)).weaken (fun _ => id) ?_
      rintro s₂ u g₂ ⟨hu', hf⟩
      have ht : u.type = .variant := ((g₂.ready (g₁.ready hs)).made hu').type
      have hv : v.irType = .variant := hp.type.symm.trans ((g₁.ready hs).made hu).type
      exact ⟨⟨hp.generates, hv⟩, .inr hu', ht, fun _ => .inr (hf.mono g₁)⟩
  | methodCall m args ih =>
    intro s hs
    unfold expression
    refine (expressions_spec ih hs).bind ?_ fun _ _ h => h
    rintro s₁ vs g₁ ⟨hgen, hvs, -⟩
    refine (gives_quiet (gives_methodCall (g₁.ready hs) hvs)).weaken (fun _ => id) ?_
    rintro s₂ u g₂ ⟨hu, hf⟩
    exact ⟨hgen, .inr hu, ((g₂.ready (g₁.ready hs)).made hu).type, fun _ => .inr (hf.mono g₁)⟩
  | doubleLiteral v =>
    intro s hs
    exact Gives.pure ⟨trivial, .inl (.inl rfl), rfl, nofun⟩
  | integerLiteral v =>
    intro s hs
    exact Gives.pure ⟨trivial, .inl (.inr (.inr (.inl rfl))), rfl, nofun⟩
  | booleanLiteral v =>
    intro s hs
    exact Gives.pure ⟨trivial, .inl (.inr (.inl rfl)), rfl, nofun⟩
  | stringLiteral v =>
    intro s hs
    unfold expression
    refine Gen.gives_globalStringPtr.weaken (fun _ => id) fun s' u _ hu => ?_
    exact ⟨trivial, .inl (.inr (.inr (.inr hu))), hu, fun h => by rw [hu] at h; cases h⟩
  | binaryOperation l r op ihl ihr =>
    intro s hs
    unfold expression
    refine (ihl hs).bind (fun s₁ left g₁ hl => ?_) fun _ _ h h' => h h'.1
    refine (ihr (g₁.ready hs)).bind (fun s₂ right g₂ hr => ?_) fun _ _ h h' => h h'.2
    refine (gives_binaryOperation (g₂.ready (g₁.ready hs)) (hl.usable.mono g₂) hr.usable).weaken
      (fun _ h => h.1) ?_
    rintro s₃ v g₃ ⟨hu, ht, hf⟩
    refine ⟨⟨hl.generates, hr.generates⟩, hu, ?_, fun h => .inr ((hf h).mono (g₁.trans g₂))⟩
    rw [ht, hl.type, hr.type]
    rfl
  | unaryOperation e op ih =>
    intro s hs
    unfold expression
    refine (ih hs).bind (fun s₁ v g₁ hv => ?_) fun _ _ h => h
    refine (gives_unaryOperation (g₁.ready hs) hv.usable).weaken (fun _ h => h.1) ?_
    rintro s₂ u g₂ ⟨hu, ht, hf⟩
    exact ⟨hv.generates, hu, ht.trans hv.type, fun h => .inr ((hf h).mono g₁)⟩
  | comparison l r op ihl ihr =>
    intro s hs
    unfold expression
    refine (ihl hs).bind (fun s₁ left g₁ hl => ?_) fun _ _ h h' => h h'.1
    refine (ihr (g₁.ready hs)).bind (fun s₂ right g₂ hr => ?_) fun _ _ h h' => h h'.2
    refine (gives_comparison (g₂.ready (g₁.ready hs)) (hl.usable.mono g₂) hr.usable).weaken
      (fun _ h => h.1) ?_
    intro s₃ v g₃ ht
    have ht : v.type = (Expr.comparison l r op).irType := by
      rw [ht, hl.type, hr.type]
      rfl
    have hscalar : v.type.IsScalar := ht ▸ isScalar_comparisonType op l.irType_cases
    exact ⟨⟨hl.generates, hr.generates⟩, .inl hscalar, ht, fun h => absurd h hscalar.ne_variant⟩

end LLVMVisitor

end B2
