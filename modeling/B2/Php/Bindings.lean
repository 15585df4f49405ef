import B2.Llvm.Builder

/-!
# The PHP bindings

`PHPBindings`: the calls that the generated code makes of the runtime, the
reference counts of variants that are kept while code is generated, and the
metadata of the for blocks. The functions of `php_bindings_functions.c` are
linked in, so `findFunction` does not throw.
-/

namespace B2

open Effect.Traced (tell get modify throw)

namespace PHPBindings

variable (B : IRBuilder)

/-- `type` points to a struct with the layout of a `zval`. -/
def isVariantType (type : IRType) : Bool := type == .variant

/-! ## Reference counts -/

def setRefCount (value : Value) (count : Int) : Gen Unit :=
  modify fun s => { s with variablesRefCount := Function.update s.variablesRefCount value count }

def missingRefCount : Failure := .runtimeError "Variable found without refcount!".toList

def variableGoesOutOfScope (value : Value) : Gen Unit := do
  match (← get).variablesRefCount value with
  | none => throw missingRefCount
  | some count =>
    -- not to be destroyed
    if count = -1 then
      return
    setRefCount value (count - 1)
    if count - 1 = 0 then
      let _ ← Gen.createCall .destructZval [value]
      return

def getNewReferenceForVariable (value : Value) : Gen Value := do
  match (← get).variablesRefCount value with
  | none => throw missingRefCount
  | some count =>
    if count ≠ -1 then
      setRefCount value (count + 1)
    return value

/-! ## Functions -/

/-- `functionSetup` of `LLVMBindings`. -/
def functionSetup : Gen Unit := do
  let block ← Gen.createBasicBlock true
  tell (.setInsertPoint block)

def functionTeardown : Gen Unit := do
  tell .retVoid
  modify fun s => { s with variablesRefCount := fun _ => none }

def createRetVoidIfCallFails (callResult : Value) : Gen Unit := do
  let successBlock ← Gen.createBasicBlock true
  let failBlock ← Gen.createBasicBlock true
  tell (.condBr callResult successBlock failBlock)
  tell (.setInsertPoint failBlock)
  tell .retVoid
  tell (.setInsertPoint successBlock)

/-! ## Values -/

def unknownType : Failure := .runtimeError "Unknown type".toList

def getPrintMethodForType (type : IRType) : Gen RuntimeFunction :=
  if type.isFloatingPoint then return .printDouble
  else if type = .int1 then return .printBoolean
  else if type = .int64 then return .printInteger
  else if type = .string then return .printString
  else if isVariantType type then return .printVariant
  else throw unknownType

def createPrintCall (value : Value) : Gen Value := do
  let printMethod ← getPrintMethodForType value.type
  Gen.createCall printMethod [value, .argument 1]

/-- The function that `wrapAsVariant` calls. -/
def getWrappingFunction (type : IRType) : Gen RuntimeFunction :=
  if type.isFloatingPoint then return .setZvalDouble
  else if type = .int1 then return .setZvalBool
  else if type = .int64 then return .setZvalInt
  else if type = .string then return .setZvalStringNocopy
  else throw unknownType

def wrapAsVariant (value : Value) : Gen Value :=
  -- this does not happen
  if isVariantType value.type then return value
  else do
    let wrappingFunction ← getWrappingFunction value.type
    let zval ← Gen.createAlloca (.struct .zval) 1
    let _ ← Gen.createCall wrappingFunction [zval, value]
    -- not to be destroyed
    setRefCount zval (-1)
    return zval

/-- A value as it is, or wrapped if it is no variant. -/
def asVariant (value : Value) : Gen Value :=
  if isVariantType value.type then return value else wrapAsVariant value

def createVariantComparison (op : ComparisonOperation) (left right : Value) : Gen Value := do
  let left ← asVariant left
  let right ← asVariant right
  let ptrToResult ← Gen.createAlloca (.integer 8) 1
  let callResult ← Gen.createCall .compareVariant
    [constantInt 16 op.code, ptrToResult, left, right]
  createRetVoidIfCallFails callResult
  let result ← Gen.createLoad ptrToResult
  let result ← Gen.createOperation B .trunc [result]
  variableGoesOutOfScope left
  variableGoesOutOfScope right
  return result

def createVariantBinaryOperation (op : BinaryOperation) (left right : Value) : Gen Value := do
  let left ← asVariant left
  let right ← asVariant right
  let ptrToResult ← Gen.createAlloca .variant 1
  let callResult ← Gen.createCall .binaryVariantOperation
    [constantInt 8 op.code, ptrToResult, left, right]
  createRetVoidIfCallFails callResult
  let value ← Gen.createLoad ptrToResult
  setRefCount value 1
  variableGoesOutOfScope left
  variableGoesOutOfScope right
  return value

def createVariantUnaryOperation (op : UnaryOperation) (val : Value) : Gen Value := do
  let val ← asVariant val
  let ptrToResult ← Gen.createAlloca .variant 1
  let callResult ← Gen.createCall .unaryVariantOperation [constantInt 8 op.code, ptrToResult, val]
  createRetVoidIfCallFails callResult
  let value ← Gen.createLoad ptrToResult
  setRefCount value 1
  variableGoesOutOfScope val
  return value

def createVariableLookup (variableName : Text) : Gen Value := do
  let key ← Gen.createGlobalStringPtr variableName
  let value ← Gen.createCall .getValueFromHashtable
    [.argument 0, key, constantInt 32 variableName.length]
  -- not to be destroyed
  setRefCount value (-1)
  return value

def createGetAttribute (attributeName : Text) (parent : Value) : Gen Value := do
  let key ← Gen.createGlobalStringPtr attributeName
  let value ← Gen.createCall .getAttribute [parent, key, constantInt 32 attributeName.length]
  -- not to be destroyed
  setRefCount value (-1)
  variableGoesOutOfScope parent
  return value

/-- The loop of `createMethodCall` over the arguments from `index` on: the values it wrapped. -/
def storeArguments (argumentsValue : Value) : (index : Nat) → List Value → Gen (List Value)
  | _, [] => return []
  | index, argument :: arguments => do
    let ptr ← Gen.createInBoundsGEP argumentsValue index
    if isVariantType argument.type then
      tell (.store argument ptr)
      storeArguments argumentsValue (index + 1) arguments
    else do
      let argument ← wrapAsVariant argument
      tell (.store argument ptr)
      let valuesToDestroy ← storeArguments argumentsValue (index + 1) arguments
      return argument :: valuesToDestroy

/-- The array of the arguments and the values that were wrapped for it. -/
def createArguments (arguments : List Value) : Gen (Value × List Value) :=
  if arguments.length > 0 then do
    let argumentsValue ← Gen.createAlloca .variant arguments.length
    let valuesToDestroy ← storeArguments argumentsValue 0 arguments
    return (argumentsValue, valuesToDestroy)
  else return (.constant (.null (.pointer .variant)), [])

def destroyValues : List Value → Gen Unit
  | [] => return
  | value :: valuesToDestroy => do
    variableGoesOutOfScope value
    destroyValues valuesToDestroy

def createMethodCall (methodName : Text) (arguments : List Value) : Gen Value := do
  let (argumentsValue, valuesToDestroy) ← createArguments arguments
  let functionName ← Gen.createGlobalStringPtr methodName
  let returnValue ← Gen.createCall .doMethodCall
    [.argument 2, functionName, constantInt 32 methodName.length,
      constantInt 32 arguments.length, argumentsValue]
  setRefCount returnValue 1
  destroyValues valuesToDestroy
  let callFailed ← Gen.createOperation B .isNotNull [returnValue]
  createRetVoidIfCallFails callFailed
  return returnValue

/-! ## For blocks -/

def setForLoopMetadata (iterable : Value) (metadata : Option ForLoopMetadata) : Gen Unit :=
  modify fun s => { s with
    forLoopMetadata := Function.update s.forLoopMetadata iterable metadata }

/-- `m_forLoopMetadata[iterable]`, which makes an entry of null pointers if there is none. -/
def getForLoopMetadata (iterable : Value) : Gen ForLoopMetadata := do
  match (← get).forLoopMetadata iterable with
  | some metadata => return metadata
  | none =>
    setForLoopMetadata iterable (some ⟨.nullptr, .nullptr⟩)
    return ⟨.nullptr, .nullptr⟩

def createForLoopInit (loop : Nat) (iterable : Value) : Gen Value := do
  let hashPosition ← Gen.createAlloca (.pointer (.struct .bucket)) 1
  let hashTable ← Gen.createCall (.forloopInit loop) [iterable, hashPosition]
  setForLoopMetadata iterable (some ⟨hashTable, hashPosition⟩)
  Gen.createOperation B .isNotNull [hashTable]

def createForLoopCleanup (iterable : Value) : Gen Unit := setForLoopMetadata iterable none

def createForLoopNextIteration (loop : Nat) (iterable : Value) : Gen Value := do
  let metadata ← getForLoopMetadata iterable
  Gen.createCall (.forloopNext loop) [metadata.hashTable, metadata.hashPosition]

/-- The pointer a loop variable is returned through. -/
def loopVariablePtr (wanted : Bool) : Gen Value :=
  if wanted then Gen.createAlloca .variant 1 else return .constant (.null (.pointer .variant))

/-- A loop variable, tagged with its count. -/
def loadLoopVariable (wanted : Bool) (ptr : Value) (count : Int) : Gen (Option Value) :=
  if wanted then do
    let value ← Gen.createLoad ptr
    setRefCount value count
    return some value
  else return none

/-- The key and the value, each if it is asked for. -/
def createForLoopGetVariables (loop : Nat) (iterable : Value)
    (hasKeyVariable hasValueVariable : Bool) : Gen (Option Value × Option Value) := do
  let metadata ← getForLoopMetadata iterable
  let keyVariable ← loopVariablePtr hasKeyVariable
  let valueVariable ← loopVariablePtr hasValueVariable
  let _ ← Gen.createCall (.forloopGetvalues loop)
    [metadata.hashTable, metadata.hashPosition, valueVariable, keyVariable]
  -- the key is to be destroyed, the value is not
  let key ← loadLoopVariable hasKeyVariable keyVariable 1
  let value ← loadLoopVariable hasValueVariable valueVariable (-1)
  return (key, value)

end PHPBindings

end B2
