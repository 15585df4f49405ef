import B2.Cfg.Code
import B2.Llvm.Builder

/-!
# Running generated code

A machine for the instructions of the generated code: registers, the cells of the
`alloca`s, and what the runtime functions do (`Runtime`). The values of PHP and
what happens to them are parameters. The calls of a for block use an iterator
of their own, the elements that are left of its hash table. Destroying a variant
has no effect here.
-/

namespace B2

namespace Php

/-- What a register or a cell holds; `Z` are the values of PHP. -/
inductive Data (Z : Type) where
  /-- of `width` bits; one bit is 0 or 1 -/
  | integer (width : Nat) (value : Int)
  | double (value : Double)
  | string (text : Text)
  | variant (value : Z)
  /-- the address of a cell -/
  | cell (alloca index : Nat)
  /-- the address of something else, if it is one -/
  | pointer (valid : Bool)

namespace Data

variable {Z : Type}

/-- A boolean in an integer of some width. -/
def ofBoolIn (width : Nat) (b : Bool) : Data Z := .integer width (if b then 1 else 0)

abbrev ofBool (b : Bool) : Data Z := ofBoolIn 1 b

abbrev ofLong (v : Int64) : Data Z := .integer 64 v.toInt

/-- Which way a branch goes. -/
def isTrue : Data Z → Bool
  | .integer _ z => z ≠ 0
  | _ => false

theorem isTrue_ofBool (b : Bool) : (ofBool b : Data Z).isTrue = b := by cases b <;> rfl

end Data

/-- Arithmetic and the functions of `php_bindings_functions.c`, which may change the world `W`.
Operators are the codes they are passed as; no result is a call that failed. -/
structure Runtime (Z W : Type) where
  operation : Operation → List (Data Z) → Data Z
  /-- the constants that the builder makes of others -/
  folded : Nat → Data Z
  /-- the variant of a `zval` that is not initialised -/
  undefined : Z
  setZval : Data Z → Z
  getValueFromHashtable : Text → W → Z × W
  getAttribute : Z → Text → W → Z × W
  compareVariant : Int → Z → Z → W → Option Bool × W
  binaryVariantOperation : Int → Z → Z → W → Option Z × W
  unaryVariantOperation : Int → Z → W → Option Z × W
  doMethodCall : Text → List Z → W → Option Z × W
  /-- the keys and values of a hash table, in the order of its iteration -/
  elements : Z → W → List (Z × Z)

/-- A call of a print function. -/
structure Print (Z : Type) where
  printMethod : RuntimeFunction
  value : Data Z

structure State (Z W : Type) where
  register : Nat → Data Z
  memory : Nat → Nat → Data Z
  /-- what is left of the iteration of a for block -/
  iterator : Nat → List (Z × Z)
  world : W
  output : List (Print Z)

namespace State

variable {Z W : Type}

def setRegister (m : State Z W) (id : Nat) (d : Data Z) : State Z W :=
  { m with register := Function.update m.register id d }

/-- A store through a pointer. -/
def store (m : State Z W) (p d : Data Z) : State Z W :=
  match p with
  | .cell a i =>
    { m with memory := Function.update m.memory a (Function.update (m.memory a) i d) }
  | _ => m

def load (m : State Z W) : Data Z → Data Z
  | .cell a i => m.memory a i
  | _ => .pointer false

def setIterator (m : State Z W) (loop : Nat) (elements : List (Z × Z)) : State Z W :=
  { m with iterator := Function.update m.iterator loop elements }

section

variable (m : State Z W) (id loop : Nat) (p d : Data Z) (elements : List (Z × Z))

@[simp] theorem setRegister_register (i : Nat) :
    (m.setRegister id d).register i = if i = id then d else m.register i :=
  Function.update_apply _ _ _ _

theorem setRegister_self : m.setRegister id (m.register id) = m := by
  unfold setRegister
  rw [Function.update_eq_self]

@[simp] theorem setRegister_memory : (m.setRegister id d).memory = m.memory := rfl

@[simp] theorem setRegister_iterator : (m.setRegister id d).iterator = m.iterator := rfl

@[simp] theorem setRegister_world : (m.setRegister id d).world = m.world := rfl

@[simp] theorem setRegister_output : (m.setRegister id d).output = m.output := rfl

@[simp] theorem store_register : (m.store p d).register = m.register := by cases p <;> rfl

@[simp] theorem store_memory (a i b j : Nat) :
    (m.store (.cell a i) d).memory b j = if b = a ∧ j = i then d else m.memory b j := by
  show Function.update m.memory a (Function.update (m.memory a) i d) b j = _
  rw [Function.update_apply]
  split_ifs <;> simp_all

@[simp] theorem store_iterator : (m.store p d).iterator = m.iterator := by cases p <;> rfl

@[simp] theorem store_world : (m.store p d).world = m.world := by cases p <;> rfl

@[simp] theorem store_output : (m.store p d).output = m.output := by cases p <;> rfl

@[simp] theorem setIterator_register : (m.setIterator loop elements).register = m.register := rfl

@[simp] theorem setIterator_memory : (m.setIterator loop elements).memory = m.memory := rfl

@[simp] theorem setIterator_iterator (i : Nat) :
    (m.setIterator loop elements).iterator i = if i = loop then elements else m.iterator i :=
  Function.update_apply _ _ _ _

@[simp] theorem setIterator_world : (m.setIterator loop elements).world = m.world := rfl

@[simp] theorem setIterator_output : (m.setIterator loop elements).output = m.output := rfl

end

end State

namespace Runtime

variable {Z W : Type} (R : Runtime Z W)

def valueOf (m : State Z W) : Value → Data Z
  | .constant (.integer w z) => .integer w z
  | .constant (.double d) => .double d
  | .constant (.null _) => .pointer false
  | .constant (.globalString _ t) => .string t
  | .constant (.expression id _) => R.folded id
  | .argument _ => .pointer true
  | .instruction id _ => m.register id
  | .nullptr => .pointer false

/-- The variant behind a `zval*`, which may be one of the stack. -/
def variantOf (m : State Z W) : Data Z → Z
  | .variant z => z
  | .cell a i =>
    match m.memory a i with
    | .variant z => z
    | _ => R.undefined
  | _ => R.undefined

def operate (op : Operation) (operands : List (Data Z)) : Data Z :=
  match op, operands with
  | .isNotNull, [.pointer valid] => .ofBool valid
  | .isNotNull, [_] => .ofBool true
  | .trunc, [.integer _ z] => .integer 1 (z % 2)
  | op, operands => R.operation op operands

/-- The result of a call that reports failure by `false`, and the store of its value. -/
def reported {α : Type} (m : State Z W) (id : Nat) (result : Data Z) (r : Option α × W)
    (data : α → Data Z) : State Z W :=
  match r with
  | (some a, w) => ({ m with world := w }.store result (data a)).setRegister id (.ofBool true)
  | (none, w) => { m with world := w }.setRegister id (.ofBool false)

/-- A call that returns a variant. -/
def returned (m : State Z W) (id : Nat) (r : Z × W) : State Z W :=
  { m with world := r.2 }.setRegister id (.variant r.1)

/-- The arguments of a method, from the array that the call gets. -/
def arguments (m : State Z W) (count : Nat) (array : Data Z) : List Z :=
  (List.range count).map fun i =>
    match array with
    | .cell a _ => R.variantOf m (m.memory a i)
    | _ => R.undefined

def call (m : State Z W) (id : Nat) : RuntimeFunction → List (Data Z) → State Z W
  | .printDouble, d :: _ => { m with output := m.output ++ [⟨.printDouble, d⟩] }
  | .printInteger, d :: _ => { m with output := m.output ++ [⟨.printInteger, d⟩] }
  | .printBoolean, d :: _ => { m with output := m.output ++ [⟨.printBoolean, d⟩] }
  | .printString, d :: _ => { m with output := m.output ++ [⟨.printString, d⟩] }
  | .printVariant, d :: _ => { m with output := m.output ++ [⟨.printVariant, d⟩] }
  | .compareVariant, [.integer _ op, cmp_result, left, right] =>
    reported m id cmp_result
      (R.compareVariant op (R.variantOf m left) (R.variantOf m right) m.world) (.ofBoolIn 8)
  | .binaryVariantOperation, [.integer _ op, result, left, right] =>
    reported m id result
      (R.binaryVariantOperation op (R.variantOf m left) (R.variantOf m right) m.world) .variant
  | .unaryVariantOperation, [.integer _ op, result, val] =>
    reported m id result (R.unaryVariantOperation op (R.variantOf m val) m.world) .variant
  | .getValueFromHashtable, [_, .string key, _] =>
    returned m id (R.getValueFromHashtable key m.world)
  | .getAttribute, [parent, .string key, _] =>
    returned m id (R.getAttribute (R.variantOf m parent) key m.world)
  | .doMethodCall, [_, .string functionName, _, .integer _ count, params] =>
    match R.doMethodCall functionName (R.arguments m count.toNat params) m.world with
    | (some z, w) => { m with world := w }.setRegister id (.variant z)
    | (none, w) => { m with world := w }.setRegister id (.pointer false)
  | .forloopInit loop, value :: _ =>
    let elements := R.elements (R.variantOf m value) m.world
    (m.setIterator loop elements).setRegister id (.pointer !elements.isEmpty)
  | .forloopGetvalues loop, [_, _, value, key] =>
    match m.iterator loop with
    | element :: _ => (m.store value (.variant element.2)).store key (.variant element.1)
    | [] => m
  | .forloopNext loop, _ =>
    let elements := (m.iterator loop).tail
    (m.setIterator loop elements).setRegister id (.ofBool !elements.isEmpty)
  | .setZvalDouble, [zv, value] | .setZvalBool, [zv, value] | .setZvalInt, [zv, value]
  | .setZvalStringNocopy, [zv, value] => m.store zv (.variant (R.setZval value))
  | _, _ => m

def exec (x : IRAction) (m : State Z W) : State Z W :=
  match x with
  | .operation op operands result =>
    match result with
    | .instruction id _ => m.setRegister id (R.operate op (operands.map (R.valueOf m)))
    | _ => m
  | .alloca id _ _ => m.setRegister id (.cell id 0)
  | .load id pointer => m.setRegister id (m.load (R.valueOf m pointer))
  | .store value pointer => m.store (R.valueOf m pointer) (R.valueOf m value)
  | .inBoundsGEP id pointer index =>
    match R.valueOf m pointer with
    | .cell a i => m.setRegister id (.cell a (i + index))
    | d => m.setRegister id d
  | .call id function arguments => R.call m id function (arguments.map (R.valueOf m))
  | _ => m

/-- The machine on which a generated function runs. -/
def machine : Cfg.Machine IRAction Value (State Z W) :=
  ⟨R.exec, fun condition m => (R.valueOf m condition).isTrue⟩

end Runtime

end Php

/-- `IRBuilder` folds an operation to a value that is its result. -/
def IRBuilder.Sound {Z W : Type} (B : IRBuilder) (R : Php.Runtime Z W) : Prop :=
  ∀ op vs v, B.simplify op vs = some v →
    ∀ m : Php.State Z W, R.valueOf m v = R.operate op (vs.map (R.valueOf m))

theorem IRBuilder.sound_noFolding {Z W : Type} (R : Php.Runtime Z W) :
    IRBuilder.noFolding.Sound R := fun _ _ _ h => nomatch h

/-- The calls of the builder for a graph. -/
def IRAction.items : IRAction → List (Cfg.Item Nat IRAction Value)
  | .createBlock block attached => [.create block attached]
  | .attachBlock block => [.attach block]
  | .setInsertPoint block => [.place block]
  | .condBr condition ifTrue ifFalse => [.emit (.condBr condition ifTrue ifFalse)]
  | .br block => [.emit (.br block)]
  | .retVoid => [.emit .ret]
  | .reference .. | .loopVariables .. => []
  | x => [.emit (.op x)]

/-- The graph of a generated function. -/
def functionGraph (log : List IRAction) : Cfg.Graph Nat IRAction Value :=
  .build (log.flatMap IRAction.items)

end B2
