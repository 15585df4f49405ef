import B2.Php.Bindings

/-!
# The LLVM visitor

`LLVMVisitor` over the PHP bindings, and `LLVMBackend::createFunction` around
it. A name that is missing from `m_overriden_variables` and a name with a null
pointer there read alike, and both are `none`.
-/

namespace B2

open Effect.Traced (tell get modify throw)
open PHPBindings

namespace LLVMVisitor

variable (B : IRBuilder)

/-! ## Expressions -/

def variableReferenceExpression (variableName : Text) : Gen Value := do
  let value ← match (← get).overridenVariables variableName with
    | some overridenVariable => getNewReferenceForVariable overridenVariable
    | none => createVariableLookup variableName
  tell (.reference variableName value)
  return value

def integerOperation : BinaryOperation → Operation
  | .addition => .add
  | .subtraction => .sub
  | .multiplication => .mul
  | .division => .exactSDiv
  | .modulus => .sRem

def floatOperation : BinaryOperation → Operation
  | .addition => .fAdd
  | .subtraction => .fSub
  | .multiplication => .fMul
  | .division => .fDiv
  | .modulus => .fRem

def integerComparison : ComparisonOperation → Operation
  | .equal => .iCmp .eq
  | .notEqual => .iCmp .ne
  | .lessOrEqual => .iCmp .le
  | .greaterOrEqual => .iCmp .ge
  | .greaterThan => .iCmp .gt
  | .lessThan => .iCmp .lt
  | .and => .and
  | .or => .or

def floatComparison : ComparisonOperation → Operation
  | .equal => .fCmp .eq
  | .notEqual => .fCmp .ne
  | .lessOrEqual => .fCmp .le
  | .greaterOrEqual => .fCmp .ge
  | .greaterThan => .fCmp .gt
  | .lessThan => .fCmp .lt
  | .and => .and
  | .or => .or

/-- A value, converted to double if it is none. -/
def toDouble (value : Value) : Gen Value :=
  if value.type.isFloatingPoint then return value else Gen.createOperation B .siToFP [value]

/-- An instruction on integers or, after conversion, one on doubles. -/
def numericOperation (integerOp floatOp : Operation) (left right : Value) : Gen Value :=
  if left.type.isInteger ∧ right.type.isInteger then Gen.createOperation B integerOp [left, right]
  else do
    let left ← toDouble B left
    let right ← toDouble B right
    Gen.createOperation B floatOp [left, right]

/-- `binary_operation_expression` on the values of its operands. -/
def binaryOperation (op : BinaryOperation) (left right : Value) : Gen Value :=
  if isVariantType left.type ∨ isVariantType right.type then
    createVariantBinaryOperation op left right
  else numericOperation B (integerOperation op) (floatOperation op) left right

/-- `comparison_expression` on the values of its operands. -/
def comparison (op : ComparisonOperation) (left right : Value) : Gen Value :=
  if isVariantType left.type ∨ isVariantType right.type then
    createVariantComparison B op left right
  else numericOperation B (integerComparison op) (floatComparison op) left right

/-- `unary_operation_expression` on the value of its operand. -/
def unaryOperation (op : UnaryOperation) (subexpr : Value) : Gen Value :=
  if isVariantType subexpr.type then createVariantUnaryOperation op subexpr
  else match op with
    | .numericPositive => return subexpr
    | .numericNegative => Gen.createOperation B .neg [subexpr]
    | .booleanNegation => Gen.createOperation B .not [subexpr]

mutual

def expression : Expression → Gen Value
  | .variableReference x => variableReferenceExpression x
  | .getAttribute v a => do
    let parent ← expression v
    createGetAttribute a parent
  | .methodCall m args => do
    let arguments ← expressions args
    createMethodCall B m arguments
  | .doubleLiteral v => return .constant (.double v)
  | .integerLiteral v => return constantInt 64 v.toInt
  | .booleanLiteral v => return constantInt 1 (if v then 1 else 0)
  | .stringLiteral v => Gen.createGlobalStringPtr v
  | .binaryOperation l r op => do
    let left ← expression l
    let right ← expression r
    binaryOperation B op left right
  | .unaryOperation e op => do
    let subexpr ← expression e
    unaryOperation B op subexpr
  | .comparison l r op => do
    let left ← expression l
    let right ← expression r
    comparison B op left right

/-- The values of the arguments of a method call. -/
def expressions : List (Option Expression) → Gen (List Value)
  | [] => return []
  | none :: _ => throw (.undefined .nullPointer)
  | some e :: args => do
    let value ← expression e
    let values ← expressions args
    return value :: values

end

/-! ## Loops -/

/-- The number of a new for block. -/
def nextLoop : Gen Nat := do
  let s ← get
  modify fun s => { s with loops := s.loops + 1 }
  return s.loops

def setOverriden (x : Option Text) (value : Option Value) : Gen Unit :=
  match x with
  | some x => modify fun s => { s with
      overridenVariables := Function.update s.overridenVariables x value }
  | none => return

def oldVariable (overridenVariables : Text → Option Value) (x : Option Text) : Option Value :=
  overridenVariables (x.getD [])

/-- The local variables of `for_block` while its body is visited. -/
structure LoopFrame where
  loopBlock : Nat
  loopElseBlock : Nat
  afterLoopBlock : Nat
  oldKeyVariable : Option Value
  oldValueVariable : Option Value
  keyVariable : Option Value
  valueVariable : Option Value

/-- `for_block` from the value of the iterable up to its body. -/
def enterLoop (loop : Nat) (k v : Option Text) (iterable : Value) : Gen LoopFrame := do
  let loopBlock ← Gen.createBasicBlock true
  let loopElseBlock ← Gen.createBasicBlock true
  let afterLoopBlock ← Gen.createBasicBlock true
  let initalizationResult ← createForLoopInit B loop iterable
  tell (.condBr initalizationResult loopBlock loopElseBlock)
  tell (.setInsertPoint loopBlock)
  let overridenVariables := (← get).overridenVariables
  let oldKeyVariable := oldVariable overridenVariables k
  let oldValueVariable := oldVariable overridenVariables v
  let (keyVariable, valueVariable) ← createForLoopGetVariables loop iterable k.isSome v.isSome
  tell (.loopVariables loop keyVariable valueVariable)
  setOverriden k keyVariable
  setOverriden v valueVariable
  return ⟨loopBlock, loopElseBlock, afterLoopBlock, oldKeyVariable, oldValueVariable, keyVariable,
    valueVariable⟩

def destroyLoopVariable : Option Value → Gen Unit
  | some value => variableGoesOutOfScope value
  | none => return

/-- `for_block` from the end of its body to the start of the else body. -/
def leaveLoop (loop : Nat) (k v : Option Text) (iterable : Value) (f : LoopFrame) : Gen Unit := do
  destroyLoopVariable f.keyVariable
  destroyLoopVariable f.valueVariable
  setOverriden k f.oldKeyVariable
  setOverriden v f.oldValueVariable
  let cond ← createForLoopNextIteration loop iterable
  tell (.condBr cond f.loopBlock f.afterLoopBlock)
  tell (.setInsertPoint f.loopElseBlock)

/-- `for_block` after the else body. -/
def finishLoop (iterable : Value) (f : LoopFrame) : Gen Unit := do
  tell (.br f.afterLoopBlock)
  tell (.setInsertPoint f.afterLoopBlock)
  createForLoopCleanup iterable
  variableGoesOutOfScope iterable

/-! ## Statements -/

def unimplemented : Failure := .runtimeError "unimplemented!".toList

def includeUnsupported : Failure :=
  .runtimeError "LLVMVisitor doesn't support include blocks!".toList

/-- What follows the print call of a print block. -/
def releasePrinted (value : Value) : Gen Unit :=
  if isVariantType value.type then variableGoesOutOfScope value else return

/-- The blocks of `if_block`. -/
structure IfFrame where
  elseBlock : Nat
  mergeBlock : Nat

/-- `if_block` from the value of the condition up to the then body. -/
def enterIf (condition : Value) : Gen IfFrame :=
  if condition.type ≠ .int1 then throw unimplemented
  else do
    let thenBlock ← Gen.createBasicBlock true
    let elseBlock ← Gen.createBasicBlock false
    let mergeBlock ← Gen.createBasicBlock false
    tell (.condBr condition thenBlock elseBlock)
    tell (.setInsertPoint thenBlock)
    return ⟨elseBlock, mergeBlock⟩

/-- `if_block` between its bodies and after them: the branch to the merge block, and the next
block. -/
def continueIn (mergeBlock block : Nat) : Gen Unit := do
  tell (.br mergeBlock)
  tell (.attachBlock block)
  tell (.setInsertPoint block)

mutual

def ast : AST → Gen Unit
  | .statements l => statements l
  | .rawBlock text => do
    let stringPtr ← Gen.createGlobalStringPtr text
    let _ ← createPrintCall stringPtr
    return
  | .printBlock e => do
    let value ← expression B e
    let _ ← createPrintCall value
    releasePrinted value
  | .ifBlock c t e => do
    let condition ← expression B c
    let f ← enterIf condition
    ast t
    continueIn f.mergeBlock f.elseBlock
    elseBody e
    continueIn f.mergeBlock f.mergeBlock
  | .forBlock k v i b e => do
    let loop ← nextLoop
    let iterable ← expression B i
    let f ← enterLoop B loop k v iterable
    ast b
    leaveLoop loop k v iterable f
    elseBody e
    finishLoop iterable f
  | .includeBlock .. => throw includeUnsupported

def statements : List AST → Gen Unit
  | [] => return
  | s :: l => do
    ast s
    statements l

def elseBody : Option AST → Gen Unit
  | none => return
  | some e => ast e

end

/-- `visit`: a new function, whose values are numbered from 0. -/
def visit (a : AST) : Gen Unit := do
  modify fun s => { s with next := 0, loops := 0 }
  functionSetup
  ast B a
  functionTeardown

end LLVMVisitor

/-! ## The backend -/

namespace LLVMBackend

/-- A function of `m_module`. -/
inductive ModuleFunction where
  | defined (log : List IRAction)
  /-- deleted while it was linked -/
  | deleted
  deriving DecidableEq

/-- An engine: the members of its visitor and its bindings, the functions of its module in the
order of their creation, and those that it has under a name. -/
structure Engine where
  codegen : Codegen
  module : List ModuleFunction
  /-- `m_function`, by its place in the module -/
  function : Option Nat
  functions : Text → Option (List IRAction)

def Engine.fresh : Engine := ⟨.fresh, [], none, fun _ => none⟩

def verificationError : Failure :=
  .runtimeError "Error occured during verification of IR!".toList

/-- The module with a new function, which `Function::Create` links in before `reset` deletes the
one that an unfinished visit has left in `m_function`. Nothing takes that out of the module. -/
def Engine.linked (E : Engine) (log : List IRAction) : List ModuleFunction :=
  match E.function with
  | some place => E.module.set place .deleted ++ [.defined log]
  | none => E.module ++ [.defined log]

/-- `LLVMVisitor::visit` on the module. -/
def Engine.visit (B : IRBuilder) (a : AST) (E : Engine) : Engine × Run (List IRAction) :=
  let o := LLVMVisitor.visit B a E.codegen
  let E' := { E with codegen := o.state, module := E.linked o.log }
  match o.result with
  | .error err => ({ E' with function := some E.module.length }, .error err)
  | .ok () => ({ E' with function := none }, .ok o.log)

/-- LLVM's verifier `verify` accepts the function. -/
def ModuleFunction.accepted (verify : List IRAction → Bool) : ModuleFunction → Bool
  | .defined log => verify log
  | .deleted => false

/-- `verifyFunction` and `verifyModule`, which goes through all functions of the module. An
optimised function is accepted where the function it was made from is. -/
def verifyIR (verify : List IRAction → Bool) (llvmFunc : List IRAction)
    (module : List ModuleFunction) : Run Unit :=
  if !verify llvmFunc then .error verificationError
  else if .deleted ∈ module then .error (.undefined .useAfterDelete)
  else if module.all (·.accepted verify) then .ok ()
  else .error verificationError

/-- `createFunction` up to the optimisation of the function. -/
def createFunction (B : IRBuilder) (verify : List IRAction → Bool) (name : Text) (a : AST)
    (E : Engine) : Engine × Run (List IRAction) :=
  match E.functions name with
  | some llvmFunc => (E, .ok llvmFunc)
  | none =>
    match E.visit B a with
    | (E', .error err) => (E', .error err)
    | (E', .ok llvmFunc) =>
      match verifyIR verify llvmFunc E'.module with
      | .error err => (E', .error err)
      | .ok () => ({ E' with functions := Function.update E'.functions name (some llvmFunc) },
        .ok llvmFunc)

end LLVMBackend

end B2
