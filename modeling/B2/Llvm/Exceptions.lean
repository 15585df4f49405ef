import B2.Llvm.Visitor

/-!
# What code generation throws

On a tree without include blocks the LLVM visitor throws one of four exceptions
(`Exceptional`), whatever the state of the engine. The exception for an include
block is not among them.
-/

namespace B2

open Effect.Traced (ThrowsOnly throwsOnly_pure throwsOnly_tell throwsOnly_get throwsOnly_modify
  throwsOnly_throw)
open PHPBindings

/-- What the visitor and the bindings throw for the nodes that they support. -/
def Exceptional (err : Failure) : Prop :=
  err = missingRefCount ∨ err = unknownType ∨ err = LLVMVisitor.unimplemented ∨
    err = .undefined .nullPointer

/-- A part of the code generator that throws nothing else. -/
abbrev Ordinary {α : Type} (m : Gen α) : Prop := ThrowsOnly Exceptional m

/-! ## The builder -/

namespace Gen

theorem ordinary_number : Ordinary number :=
  throwsOnly_get.bind fun _ => (throwsOnly_modify _).bind fun _ => throwsOnly_pure _

theorem ordinary_emit {α : Type} (action : Nat → IRAction) (value : Nat → α) :
    Ordinary (do
      let id ← number
      Effect.Traced.tell (action id)
      return value id) :=
  ordinary_number.bind fun _ => (throwsOnly_tell _).bind fun _ => throwsOnly_pure _

theorem ordinary_createBasicBlock (attached : Bool) : Ordinary (createBasicBlock attached) :=
  ordinary_emit (.createBlock · attached) id

theorem ordinary_createAlloca (type : IRType) (size : Nat) : Ordinary (createAlloca type size) :=
  ordinary_emit (.alloca · type size) _

theorem ordinary_createLoad (pointer : Value) : Ordinary (createLoad pointer) :=
  ordinary_emit (.load · pointer) _

theorem ordinary_createInBoundsGEP (pointer : Value) (index : Nat) :
    Ordinary (createInBoundsGEP pointer index) := ordinary_emit (.inBoundsGEP · pointer index) _

theorem ordinary_createCall (function : RuntimeFunction) (arguments : List Value) :
    Ordinary (createCall function arguments) := ordinary_emit (.call · function arguments) _

theorem ordinary_createGlobalStringPtr (text : Text) : Ordinary (createGlobalStringPtr text) :=
  ordinary_number.bind fun _ => throwsOnly_pure _

theorem ordinary_createOperation (B : IRBuilder) (op : Operation) (operands : List Value) :
    Ordinary (createOperation B op operands) := by
  unfold createOperation
  split
  · exact (throwsOnly_tell _).bind fun _ => throwsOnly_pure _
  · exact ordinary_number.bind fun _ => (throwsOnly_tell _).bind fun _ => throwsOnly_pure _

end Gen

/-! ## The bindings -/

namespace PHPBindings

open Gen

theorem ordinary_setRefCount (value : Value) (count : Int) : Ordinary (setRefCount value count) :=
  throwsOnly_modify _

theorem ordinary_variableGoesOutOfScope (value : Value) :
    Ordinary (variableGoesOutOfScope value) := by
  refine throwsOnly_get.bind fun s => ?_
  split
  · exact throwsOnly_throw (.inl rfl)
  · split
    · exact throwsOnly_pure _
    · refine (ordinary_setRefCount _ _).bind fun _ => ?_
      split
      · exact (ordinary_createCall _ _).bind fun _ => throwsOnly_pure _
      · exact throwsOnly_pure _

theorem ordinary_getNewReferenceForVariable (value : Value) :
    Ordinary (getNewReferenceForVariable value) := by
  refine throwsOnly_get.bind fun s => ?_
  split
  · exact throwsOnly_throw (.inl rfl)
  · split
    · exact (ordinary_setRefCount _ _).bind fun _ => throwsOnly_pure _
    · exact throwsOnly_pure _

theorem ordinary_functionSetup : Ordinary functionSetup :=
  (ordinary_createBasicBlock _).bind fun _ => throwsOnly_tell _

theorem ordinary_functionTeardown : Ordinary functionTeardown :=
  (throwsOnly_tell _).bind fun _ => throwsOnly_modify _

theorem ordinary_createRetVoidIfCallFails (callResult : Value) :
    Ordinary (createRetVoidIfCallFails callResult) :=
  (ordinary_createBasicBlock _).bind fun _ => (ordinary_createBasicBlock _).bind fun _ =>
    (throwsOnly_tell _).bind fun _ => (throwsOnly_tell _).bind fun _ =>
      (throwsOnly_tell _).bind fun _ => throwsOnly_tell _

theorem ordinary_createPrintCall (value : Value) : Ordinary (createPrintCall value) := by
  refine ThrowsOnly.bind ?_ fun _ => ordinary_createCall _ _
  unfold getPrintMethodForType
  split_ifs <;> first | exact throwsOnly_pure _ | exact throwsOnly_throw (.inr (.inl rfl))

theorem ordinary_wrapAsVariant (value : Value) : Ordinary (wrapAsVariant value) := by
  unfold wrapAsVariant
  split
  · exact throwsOnly_pure _
  · refine ThrowsOnly.bind ?_ fun _ => (ordinary_createAlloca _ _).bind fun _ =>
      (ordinary_createCall _ _).bind fun _ => (ordinary_setRefCount _ _).bind fun _ =>
        throwsOnly_pure _
    unfold getWrappingFunction
    split_ifs <;> first | exact throwsOnly_pure _ | exact throwsOnly_throw (.inr (.inl rfl))

theorem ordinary_asVariant (value : Value) : Ordinary (asVariant value) := by
  unfold asVariant
  split
  · exact throwsOnly_pure _
  · exact ordinary_wrapAsVariant value

theorem ordinary_createVariantComparison (B : IRBuilder) (op : ComparisonOperation)
    (left right : Value) : Ordinary (createVariantComparison B op left right) :=
  (ordinary_asVariant _).bind fun _ => (ordinary_asVariant _).bind fun _ =>
    (ordinary_createAlloca _ _).bind fun _ => (ordinary_createCall _ _).bind fun _ =>
      (ordinary_createRetVoidIfCallFails _).bind fun _ => (ordinary_createLoad _).bind fun _ =>
        (ordinary_createOperation _ _ _).bind fun _ =>
          (ordinary_variableGoesOutOfScope _).bind fun _ =>
            (ordinary_variableGoesOutOfScope _).bind fun _ => throwsOnly_pure _

theorem ordinary_createVariantBinaryOperation (op : BinaryOperation) (left right : Value) :
    Ordinary (createVariantBinaryOperation op left right) :=
  (ordinary_asVariant _).bind fun _ => (ordinary_asVariant _).bind fun _ =>
    (ordinary_createAlloca _ _).bind fun _ => (ordinary_createCall _ _).bind fun _ =>
      (ordinary_createRetVoidIfCallFails _).bind fun _ => (ordinary_createLoad _).bind fun _ =>
        (ordinary_setRefCount _ _).bind fun _ => (ordinary_variableGoesOutOfScope _).bind fun _ =>
          (ordinary_variableGoesOutOfScope _).bind fun _ => throwsOnly_pure _

theorem ordinary_createVariantUnaryOperation (op : UnaryOperation) (val : Value) :
    Ordinary (createVariantUnaryOperation op val) :=
  (ordinary_asVariant _).bind fun _ => (ordinary_createAlloca _ _).bind fun _ =>
    (ordinary_createCall _ _).bind fun _ => (ordinary_createRetVoidIfCallFails _).bind fun _ =>
      (ordinary_createLoad _).bind fun _ => (ordinary_setRefCount _ _).bind fun _ =>
        (ordinary_variableGoesOutOfScope _).bind fun _ => throwsOnly_pure _

theorem ordinary_createVariableLookup (variableName : Text) :
    Ordinary (createVariableLookup variableName) :=
  (ordinary_createGlobalStringPtr _).bind fun _ => (ordinary_createCall _ _).bind fun _ =>
    (ordinary_setRefCount _ _).bind fun _ => throwsOnly_pure _

theorem ordinary_createGetAttribute (attributeName : Text) (parent : Value) :
    Ordinary (createGetAttribute attributeName parent) :=
  (ordinary_createGlobalStringPtr _).bind fun _ => (ordinary_createCall _ _).bind fun _ =>
    (ordinary_setRefCount _ _).bind fun _ => (ordinary_variableGoesOutOfScope _).bind fun _ =>
      throwsOnly_pure _

theorem ordinary_storeArguments (argumentsValue : Value) (arguments : List Value) :
    ∀ index, Ordinary (storeArguments argumentsValue index arguments) := by
  induction arguments with
  | nil => exact fun _ => throwsOnly_pure _
  | cons argument arguments ih =>
    intro index
    refine (ordinary_createInBoundsGEP _ _).bind fun ptr => ?_
    split
    · exact (throwsOnly_tell _).bind fun _ => ih _
    · exact (ordinary_wrapAsVariant _).bind fun _ => (throwsOnly_tell _).bind fun _ =>
        (ih _).bind fun _ => throwsOnly_pure _

theorem ordinary_createArguments (arguments : List Value) :
    Ordinary (createArguments arguments) := by
  unfold createArguments
  split
  · exact (ordinary_createAlloca _ _).bind fun _ => (ordinary_storeArguments _ _ _).bind fun _ =>
      throwsOnly_pure _
  · exact throwsOnly_pure _

theorem ordinary_destroyValues (values : List Value) : Ordinary (destroyValues values) := by
  induction values with
  | nil => exact throwsOnly_pure _
  | cons value values ih => exact (ordinary_variableGoesOutOfScope _).bind fun _ => ih

theorem ordinary_createMethodCall (B : IRBuilder) (methodName : Text) (arguments : List Value) :
    Ordinary (createMethodCall B methodName arguments) :=
  (ordinary_createArguments _).bind fun _ => (ordinary_createGlobalStringPtr _).bind fun _ =>
    (ordinary_createCall _ _).bind fun _ => (ordinary_setRefCount _ _).bind fun _ =>
      (ordinary_destroyValues _).bind fun _ => (ordinary_createOperation _ _ _).bind fun _ =>
        (ordinary_createRetVoidIfCallFails _).bind fun _ => throwsOnly_pure _

theorem ordinary_setForLoopMetadata (iterable : Value) (metadata : Option ForLoopMetadata) :
    Ordinary (setForLoopMetadata iterable metadata) := throwsOnly_modify _

theorem ordinary_getForLoopMetadata (iterable : Value) :
    Ordinary (getForLoopMetadata iterable) := by
  refine throwsOnly_get.bind fun s => ?_
  split
  · exact throwsOnly_pure _
  · exact (ordinary_setForLoopMetadata _ _).bind fun _ => throwsOnly_pure _

theorem ordinary_createForLoopInit (B : IRBuilder) (loop : Nat) (iterable : Value) :
    Ordinary (createForLoopInit B loop iterable) :=
  (ordinary_createAlloca _ _).bind fun _ => (ordinary_createCall _ _).bind fun _ =>
    (ordinary_setForLoopMetadata _ _).bind fun _ => ordinary_createOperation _ _ _

theorem ordinary_createForLoopNextIteration (loop : Nat) (iterable : Value) :
    Ordinary (createForLoopNextIteration loop iterable) :=
  (ordinary_getForLoopMetadata _).bind fun _ => ordinary_createCall _ _

theorem ordinary_createForLoopGetVariables (loop : Nat) (iterable : Value)
    (hasKeyVariable hasValueVariable : Bool) :
    Ordinary (createForLoopGetVariables loop iterable hasKeyVariable hasValueVariable) := by
  have hptr : ∀ wanted, Ordinary (loopVariablePtr wanted) := by
    intro wanted
    cases wanted with
    | false => exact throwsOnly_pure _
    | true => exact ordinary_createAlloca _ _
  have hload : ∀ wanted ptr count, Ordinary (loadLoopVariable wanted ptr count) := by
    intro wanted ptr count
    cases wanted with
    | false => exact throwsOnly_pure _
    | true =>
      exact (ordinary_createLoad _).bind fun _ => (ordinary_setRefCount _ _).bind fun _ =>
        throwsOnly_pure _
  exact (ordinary_getForLoopMetadata _).bind fun _ => (hptr _).bind fun _ => (hptr _).bind fun _ =>
    (ordinary_createCall _ _).bind fun _ => (hload _ _ _).bind fun _ => (hload _ _ _).bind fun _ =>
      throwsOnly_pure _

end PHPBindings

/-! ## The visitor -/

namespace LLVMVisitor

open Gen

variable (B : IRBuilder)

theorem ordinary_variableReferenceExpression (x : Text) :
    Ordinary (variableReferenceExpression x) := by
  have htell : ∀ value : Value, Ordinary (do
      Effect.Traced.tell (.reference x value)
      return value) := fun value => (throwsOnly_tell _).bind fun _ => throwsOnly_pure _
  refine throwsOnly_get.bind fun s => ?_
  dsimp only
  split
  · exact (ordinary_getNewReferenceForVariable _).bind fun _ => htell _
  · exact (ordinary_createVariableLookup _).bind fun _ => htell _

theorem ordinary_numericOperation (integerOp floatOp : Operation) (left right : Value) :
    Ordinary (numericOperation B integerOp floatOp left right) := by
  have hdouble : ∀ value, Ordinary (toDouble B value) := by
    intro value
    unfold toDouble
    split
    · exact throwsOnly_pure _
    · exact ordinary_createOperation _ _ _
  unfold numericOperation
  split
  · exact ordinary_createOperation _ _ _
  · exact (hdouble _).bind fun _ => (hdouble _).bind fun _ => ordinary_createOperation _ _ _

theorem ordinary_binaryOperation (op : BinaryOperation) (left right : Value) :
    Ordinary (binaryOperation B op left right) := by
  unfold binaryOperation
  split
  · exact ordinary_createVariantBinaryOperation _ _ _
  · exact ordinary_numericOperation _ _ _ _ _

theorem ordinary_comparison (op : ComparisonOperation) (left right : Value) :
    Ordinary (comparison B op left right) := by
  unfold comparison
  split
  · exact ordinary_createVariantComparison _ _ _ _
  · exact ordinary_numericOperation _ _ _ _ _

theorem ordinary_unaryOperation (op : UnaryOperation) (subexpr : Value) :
    Ordinary (unaryOperation B op subexpr) := by
  unfold unaryOperation
  split
  · exact ordinary_createVariantUnaryOperation _ _
  · cases op with
    | numericPositive => exact throwsOnly_pure _
    | numericNegative | booleanNegation => exact ordinary_createOperation _ _ _

theorem ordinary_expressions {args : List (Option Expression)}
    (h : ∀ e, some e ∈ args → Ordinary (expression B e)) : Ordinary (expressions B args) := by
  induction args with
  | nil => exact throwsOnly_pure _
  | cons arg args ih =>
    cases arg with
    | none => exact throwsOnly_throw (.inr (.inr (.inr rfl)))
    | some e =>
      exact (h e List.mem_cons_self).bind fun _ =>
        (ih fun e he => h e (List.mem_cons_of_mem _ he)).bind fun _ => throwsOnly_pure _

theorem ordinary_expression (e : Expression) : Ordinary (expression B e) := by
  induction e using Expr.ind with
  | variableReference x => exact ordinary_variableReferenceExpression x
  | getAttribute v a ih => exact ih.bind fun _ => ordinary_createGetAttribute _ _
  | methodCall m args ih =>
    exact (ordinary_expressions B ih).bind fun _ => ordinary_createMethodCall _ _ _
  | doubleLiteral _ | integerLiteral _ | booleanLiteral _ => exact throwsOnly_pure _
  | stringLiteral v => exact ordinary_createGlobalStringPtr v
  | binaryOperation l r op ihl ihr =>
    exact ihl.bind fun _ => ihr.bind fun _ => ordinary_binaryOperation B op _ _
  | unaryOperation e op ih => exact ih.bind fun _ => ordinary_unaryOperation B op _
  | comparison l r op ihl ihr =>
    exact ihl.bind fun _ => ihr.bind fun _ => ordinary_comparison B op _ _

theorem ordinary_enterIf (condition : Value) : Ordinary (enterIf condition) := by
  unfold enterIf
  split
  · exact throwsOnly_throw (.inr (.inr (.inl rfl)))
  · exact (ordinary_createBasicBlock _).bind fun _ => (ordinary_createBasicBlock _).bind fun _ =>
      (ordinary_createBasicBlock _).bind fun _ => (throwsOnly_tell _).bind fun _ =>
        (throwsOnly_tell _).bind fun _ => throwsOnly_pure _

theorem ordinary_continueIn (mergeBlock block : Nat) : Ordinary (continueIn mergeBlock block) :=
  (throwsOnly_tell _).bind fun _ => (throwsOnly_tell _).bind fun _ => throwsOnly_tell _

theorem ordinary_setOverriden (x : Option Text) (value : Option Value) :
    Ordinary (setOverriden x value) := by
  cases x with
  | none => exact throwsOnly_pure _
  | some x => exact throwsOnly_modify _

theorem ordinary_enterLoop (loop : Nat) (k v : Option Text) (iterable : Value) :
    Ordinary (enterLoop B loop k v iterable) :=
  (ordinary_createBasicBlock _).bind fun _ => (ordinary_createBasicBlock _).bind fun _ =>
    (ordinary_createBasicBlock _).bind fun _ => (ordinary_createForLoopInit _ _ _).bind fun _ =>
      (throwsOnly_tell _).bind fun _ => (throwsOnly_tell _).bind fun _ =>
        throwsOnly_get.bind fun _ => (ordinary_createForLoopGetVariables _ _ _ _).bind fun _ =>
          (throwsOnly_tell _).bind fun _ => (ordinary_setOverriden _ _).bind fun _ =>
            (ordinary_setOverriden _ _).bind fun _ => throwsOnly_pure _

theorem ordinary_leaveLoop (loop : Nat) (k v : Option Text) (iterable : Value) (f : LoopFrame) :
    Ordinary (leaveLoop loop k v iterable f) := by
  have hdestroy : ∀ value, Ordinary (destroyLoopVariable value) := by
    intro value
    cases value with
    | none => exact throwsOnly_pure _
    | some value => exact ordinary_variableGoesOutOfScope _
  exact (hdestroy _).bind fun _ => (hdestroy _).bind fun _ => (ordinary_setOverriden _ _).bind
    fun _ => (ordinary_setOverriden _ _).bind fun _ =>
      (ordinary_createForLoopNextIteration _ _).bind fun _ => (throwsOnly_tell _).bind fun _ =>
        throwsOnly_tell _

theorem ordinary_finishLoop (iterable : Value) (f : LoopFrame) :
    Ordinary (finishLoop iterable f) :=
  (throwsOnly_tell _).bind fun _ => (throwsOnly_tell _).bind fun _ =>
    (ordinary_setForLoopMetadata _ _).bind fun _ => ordinary_variableGoesOutOfScope _

theorem ordinary_releasePrinted (value : Value) : Ordinary (releasePrinted value) := by
  unfold releasePrinted
  split
  · exact ordinary_variableGoesOutOfScope _
  · exact throwsOnly_pure _

theorem ordinary_statements {l : List AST} (h : ∀ s ∈ l, Ordinary (ast B s)) :
    Ordinary (statements B l) := by
  induction l with
  | nil => exact throwsOnly_pure _
  | cons s l ih =>
    exact (h s List.mem_cons_self).bind fun _ => ih fun s hs => h s (List.mem_cons_of_mem _ hs)

theorem ordinary_elseBody {e : Option AST} (h : ∀ b, e = some b → Ordinary (ast B b)) :
    Ordinary (elseBody B e) := by
  cases e with
  | none => exact throwsOnly_pure _
  | some b => exact h b rfl

/-- A tree without include blocks is visited without the exception for one. -/
theorem ordinary_ast (a : AST) (ha : a.IncludeFree) : Ordinary (ast B a) := by
  induction a with
  | statements l ih =>
    exact ordinary_statements B fun s hs => ih s hs (AST.includeFree_of_mem ha hs)
  | rawBlock t =>
    exact (ordinary_createGlobalStringPtr _).bind fun _ => (ordinary_createPrintCall _).bind
      fun _ => throwsOnly_pure _
  | printBlock e =>
    exact (ordinary_expression B e).bind fun _ => (ordinary_createPrintCall _).bind fun _ =>
      ordinary_releasePrinted _
  | ifBlock c t e iht ihe =>
    have ht : t.IncludeFree := by cases e <;> first | exact ha | exact ha.1
    have he : ∀ b, e = some b → b.IncludeFree := by
      rintro b rfl
      exact ha.2
    exact (ordinary_expression B c).bind fun _ => (ordinary_enterIf _).bind fun _ =>
      (iht ht).bind fun _ => (ordinary_continueIn _ _).bind fun _ =>
        (ordinary_elseBody B fun b hb => ihe b hb (he b hb)).bind fun _ => ordinary_continueIn _ _
  | forBlock k v i b e ihb ihe =>
    have hb : b.IncludeFree := by cases e <;> first | exact ha | exact ha.1
    have he : ∀ b', e = some b' → b'.IncludeFree := by
      rintro b' rfl
      exact ha.2
    have hloop : Ordinary nextLoop :=
      throwsOnly_get.bind fun _ => (throwsOnly_modify _).bind fun _ => throwsOnly_pure _
    exact hloop.bind fun _ => (ordinary_expression B i).bind fun _ =>
      (ordinary_enterLoop B _ _ _ _).bind fun _ => (ihb hb).bind fun _ =>
        (ordinary_leaveLoop _ _ _ _ _).bind fun _ =>
          (ordinary_elseBody B fun b hb => ihe b hb (he b hb)).bind fun _ =>
            ordinary_finishLoop _ _
  | includeBlock n s M => cases ha

theorem ordinary_visit {a : AST} (ha : a.IncludeFree) : Ordinary (visit B a) :=
  (throwsOnly_modify _).bind fun _ => ordinary_functionSetup.bind fun _ =>
    (ordinary_ast B a ha).bind fun _ => ordinary_functionTeardown

end LLVMVisitor

end B2
