import B2.Ast.Ast
import B2.Effect.Traced

/-!
# The IR builder

The calls the visitor and the bindings make on LLVM's `IRBuilder`, in the order
they are made: a code generator writes a log of `IRAction`s. An instruction is
numbered when it is created, and its number is its `Value`; block numbers come
from the same counter. `IRBuilder` folds an operation on constants and a few
others to a value that is there already; what it folds is a parameter.
-/

namespace B2

open Effect (Traced)

inductive StructName where
  /-- `struct._zval_struct` -/
  | zval
  /-- `struct._hashtable` -/
  | hashTable
  | bucket
  | templateBuffer
  deriving DecidableEq, Repr

inductive IRType where
  | void
  | integer (width : Nat)
  | double
  | struct (name : StructName)
  | pointer (element : IRType)
  deriving DecidableEq, Repr

namespace IRType

abbrev int1 : IRType := .integer 1
abbrev int64 : IRType := .integer 64

/-- `i8*` -/
abbrev string : IRType := .pointer (.integer 8)

/-- `zval*` -/
abbrev variant : IRType := .pointer (.struct .zval)

abbrev hashTable : IRType := .pointer (.struct .hashTable)

/-- `isIntegerTy()` -/
def isInteger : IRType → Bool
  | .integer _ => true
  | _ => false

/-- `isFloatingPointTy()` -/
def isFloatingPoint : IRType → Bool
  | .double => true
  | _ => false

end IRType

/-- The constants of the generated code. Two with the same content are one object, but every
`CreateGlobalStringPtr` makes a string of its own. -/
inductive Constant where
  | integer (width : Nat) (value : Int)
  | double (value : Double)
  | null (type : IRType)
  | globalString (id : Nat) (text : Text)
  /-- what folding makes of other constants -/
  | expression (id : Nat) (type : IRType)
  deriving DecidableEq

def Constant.type : Constant → IRType
  | .integer w _ => .integer w
  | .double _ => .double
  | .null t => t
  | .globalString .. => .string
  | .expression _ t => t

/-- An `llvm::Value*`. -/
inductive Value where
  | constant (c : Constant)
  /-- a parameter of the template function -/
  | argument (index : Nat)
  | instruction (id : Nat) (type : IRType)
  /-- no value: the null pointer of the compiler itself -/
  | nullptr
  deriving DecidableEq

/-- The parameters of `php_prototype`. -/
def argumentType : Nat → IRType
  | 1 => .pointer (.struct .templateBuffer)
  | _ => .hashTable

def Value.type : Value → IRType
  | .constant c => c.type
  | .argument i => argumentType i
  | .instruction _ t => t
  | .nullptr => .void

/-- The predicates of `ICmp` (signed) and `FCmp` (ordered). -/
inductive Predicate where
  | eq | ne | le | ge | gt | lt
  deriving DecidableEq, Repr

/-- Arithmetic, comparisons, logic and conversions. -/
inductive Operation where
  | add | sub | mul | exactSDiv | sRem
  | fAdd | fSub | fMul | fDiv | fRem
  | iCmp (p : Predicate)
  | fCmp (p : Predicate)
  | and | or | neg | not
  | siToFP
  /-- `CreateICmpNE` with a null pointer -/
  | isNotNull
  /-- `CreateTrunc` to `i1` -/
  | trunc
  deriving DecidableEq, Repr

namespace Operation

def resultType (op : Operation) (operands : List IRType) : IRType :=
  match op with
  | .add | .sub | .mul | .exactSDiv | .sRem | .fAdd | .fSub | .fMul | .fDiv | .fRem
  | .and | .or | .neg | .not => operands.head?.getD .void
  | .iCmp _ | .fCmp _ | .isNotNull | .trunc => .int1
  | .siToFP => .double

/-- The operand types the instruction allows; `iCmp` is one of integers. -/
def OperandsFit (op : Operation) (operands : List IRType) : Prop :=
  match op with
  | .add | .sub | .mul | .exactSDiv | .sRem | .and | .or | .iCmp _ =>
    ∃ w, operands = [.integer w, .integer w]
  | .fAdd | .fSub | .fMul | .fDiv | .fRem | .fCmp _ => operands = [.double, .double]
  | .neg | .not | .siToFP | .trunc => ∃ w, operands = [.integer w]
  | .isNotNull => ∃ t, operands = [.pointer t]

end Operation

/-- The functions of `php_bindings_functions.c` that the generated code calls. The calls of a
for block are numbered with it. -/
inductive RuntimeFunction where
  | printDouble | printInteger | printBoolean | printString | printVariant
  | compareVariant | binaryVariantOperation | unaryVariantOperation
  | getValueFromHashtable | getAttribute | doMethodCall
  | forloopInit (loop : Nat)
  | forloopGetvalues (loop : Nat)
  | forloopNext (loop : Nat)
  | setZvalDouble | setZvalBool | setZvalInt | setZvalStringNocopy
  | destructZval
  deriving DecidableEq, Repr

def RuntimeFunction.returnType : RuntimeFunction → IRType
  | .compareVariant | .binaryVariantOperation | .unaryVariantOperation | .forloopNext _ => .int1
  | .getValueFromHashtable | .getAttribute | .doMethodCall => .variant
  | .forloopInit _ => .hashTable
  | .printDouble | .printInteger | .printBoolean | .printString | .printVariant
  | .forloopGetvalues _ | .setZvalDouble | .setZvalBool | .setZvalInt | .setZvalStringNocopy
  | .destructZval => .void

inductive IRAction where
  /-- `BasicBlock::Create`, with or without the function -/
  | createBlock (block : Nat) (attached : Bool)
  /-- `getBasicBlockList().push_back` -/
  | attachBlock (block : Nat)
  | setInsertPoint (block : Nat)
  | operation (op : Operation) (operands : List Value) (result : Value)
  | alloca (id : Nat) (type : IRType) (size : Nat)
  | load (id : Nat) (pointer : Value)
  | store (value pointer : Value)
  | inBoundsGEP (id : Nat) (pointer : Value) (index : Nat)
  | call (id : Nat) (function : RuntimeFunction) (arguments : List Value)
  | condBr (condition : Value) (ifTrue ifFalse : Nat)
  | br (block : Nat)
  | retVoid
  /-- what the visitor returned for a variable reference; no call of the builder -/
  | reference (variableName : Text) (value : Value)
  /-- the key and value of a for block; no call of the builder -/
  | loopVariables (loop : Nat) (key value : Option Value)
  deriving DecidableEq

/-- What `IRBuilder` makes of an operation without an instruction: a constant, or one of the
operands. -/
structure IRBuilder where
  simplify : Operation → List Value → Option Value
  simplify_mem : ∀ {op vs v}, simplify op vs = some v → v ∈ vs ∨ ∃ c, v = .constant c
  type_simplify : ∀ {op vs v}, simplify op vs = some v →
    v.type = op.resultType (vs.map Value.type)

/-- A builder that folds nothing. -/
def IRBuilder.noFolding : IRBuilder := ⟨fun _ _ => none, nofun, nofun⟩

/-- The hash table and the hash position of a loop. -/
structure ForLoopMetadata where
  hashTable : Value
  hashPosition : Value
  deriving DecidableEq

/-- The counters of a function being generated and the members of the visitor and the bindings.
A name that is missing from `m_overriden_variables` reads as a null pointer, so `none` stands for
both. -/
structure Codegen where
  /-- instructions and blocks so far -/
  next : Nat
  /-- for blocks so far -/
  loops : Nat
  overridenVariables : Text → Option Value
  variablesRefCount : Value → Option Int
  forLoopMetadata : Value → Option ForLoopMetadata

/-- The members of a new engine. -/
def Codegen.fresh : Codegen := ⟨0, 0, fun _ => none, fun _ => none, fun _ => none⟩

/-- Code generation. -/
abbrev Gen := Traced IRAction Codegen Failure

namespace Gen

open Effect.Traced (tell get modify)

/-- The number of a new instruction or block. -/
def number : Gen Nat := do
  let s ← get
  modify fun s => { s with next := s.next + 1 }
  return s.next

def createBasicBlock (attached : Bool) : Gen Nat := do
  let block ← number
  tell (.createBlock block attached)
  return block

def createOperation (B : IRBuilder) (op : Operation) (operands : List Value) : Gen Value :=
  match B.simplify op operands with
  | some v => do
    tell (.operation op operands v)
    return v
  | none => do
    let id ← number
    let result := .instruction id (op.resultType (operands.map Value.type))
    tell (.operation op operands result)
    return result

/-- `CreateAlloca` for `size` values of a type. -/
def createAlloca (type : IRType) (size : Nat) : Gen Value := do
  let id ← number
  tell (.alloca id type size)
  return .instruction id (.pointer type)

/-- The type of what a pointer points to. -/
def elementType : IRType → IRType
  | .pointer t => t
  | _ => .void

def createLoad (pointer : Value) : Gen Value := do
  let id ← number
  tell (.load id pointer)
  return .instruction id (elementType pointer.type)

def createInBoundsGEP (pointer : Value) (index : Nat) : Gen Value := do
  let id ← number
  tell (.inBoundsGEP id pointer index)
  return .instruction id pointer.type

def createCall (function : RuntimeFunction) (arguments : List Value) : Gen Value := do
  let id ← number
  tell (.call id function arguments)
  return .instruction id function.returnType

def createGlobalStringPtr (text : Text) : Gen Value := do
  let id ← number
  return .constant (.globalString id text)

end Gen

/-- `getInt64`, `getInt32`, `getInt16`, `getInt8`, `getTrue` and `getFalse`. -/
def constantInt (width : Nat) (value : Int) : Value := .constant (.integer width value)

end B2
