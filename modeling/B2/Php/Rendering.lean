import B2.Llvm.Typing
import B2.Php.Machine

/-!
# What a template prints

The reference rendering of a template without include blocks through the PHP
bindings: the calls of print functions in their order, and the world after
them unless a call failed, which ends the rendering. Operators work on variants
if an operand is one, and otherwise on numbers.
-/

namespace B2

namespace Php

variable {Z W : Type}

namespace Runtime

variable (R : Runtime Z W)

/-- A value of a static type as a variant. -/
def toVariant (type : IRType) (d : Data Z) : Z :=
  if type = .variant then
    match d with
    | .variant z => z
    | _ => R.undefined
  else R.setZval d

theorem toVariant_variant (z : Z) : R.toVariant .variant (.variant z) = z := rfl

theorem toVariant_of_ne {type : IRType} (h : type ≠ .variant) (d : Data Z) :
    R.toVariant type d = R.setZval d := by
  unfold toVariant
  exact if_neg h

def toDouble (type : IRType) (d : Data Z) : Data Z :=
  if type.isFloatingPoint then d else R.operate .siToFP [d]

/-- An operation on integers or, after conversion, one on doubles. -/
def numeric (integerOp floatOp : Operation) (leftType rightType : IRType) (left right : Data Z) :
    Data Z :=
  if leftType.isInteger ∧ rightType.isInteger then R.operate integerOp [left, right]
  else R.operate floatOp [R.toDouble leftType left, R.toDouble rightType right]

/-- The value of a call, unless it failed. -/
def succeeded {α β : Type} (f : α → β) : Option α × W → Option (β × W)
  | (some a, w) => some (f a, w)
  | (none, _) => none

/-- The value of a variable: a variable of a loop, or one of the template. -/
def lookup (ρ : Text → Option Z) (x : Text) (w : W) : Z × W :=
  match ρ x with
  | some z => (z, w)
  | none => R.getValueFromHashtable x w

mutual

def eval (ρ : Text → Option Z) : Expression → W → Option (Data Z × W)
  | .variableReference x, w =>
    let r := R.lookup ρ x w
    some (.variant r.1, r.2)
  | .getAttribute v a, w => do
    let (parent, w) ← eval ρ v w
    let r := R.getAttribute (R.toVariant v.irType parent) a w
    return (.variant r.1, r.2)
  | .methodCall m args, w => do
    let (arguments, w) ← evalArguments ρ args w
    succeeded .variant (R.doMethodCall m arguments w)
  | .doubleLiteral v, w => some (.double v, w)
  | .integerLiteral v, w => some (.integer 64 v.toInt, w)
  | .booleanLiteral v, w => some (.ofBool v, w)
  | .stringLiteral v, w => some (.string v, w)
  | .binaryOperation l r op, w => do
    let (left, w) ← eval ρ l w
    let (right, w) ← eval ρ r w
    if l.irType = .variant ∨ r.irType = .variant then
      succeeded .variant (R.binaryVariantOperation op.code (R.toVariant l.irType left)
        (R.toVariant r.irType right) w)
    else
      return (R.numeric (LLVMVisitor.integerOperation op) (LLVMVisitor.floatOperation op)
        l.irType r.irType left right, w)
  | .unaryOperation e op, w => do
    let (d, w) ← eval ρ e w
    if e.irType = .variant then
      succeeded .variant (R.unaryVariantOperation op.code (R.toVariant e.irType d) w)
    else
      return (match op with
        | .numericPositive => d
        | .numericNegative => R.operate .neg [d]
        | .booleanNegation => R.operate .not [d], w)
  | .comparison l r op, w => do
    let (left, w) ← eval ρ l w
    let (right, w) ← eval ρ r w
    if l.irType = .variant ∨ r.irType = .variant then
      succeeded .ofBool (R.compareVariant op.code (R.toVariant l.irType left)
        (R.toVariant r.irType right) w)
    else
      return (R.numeric (LLVMVisitor.integerComparison op) (LLVMVisitor.floatComparison op)
        l.irType r.irType left right, w)

/-- The arguments of a method call, each as a variant. -/
def evalArguments (ρ : Text → Option Z) : List (Option Expression) → W → Option (List Z × W)
  | [], w => some ([], w)
  | none :: _, _ => none
  | some e :: args, w => do
    let (d, w) ← eval ρ e w
    let (zs, w) ← evalArguments ρ args w
    return (R.toVariant e.irType d :: zs, w)

end

end Runtime

/-- The function that prints values of a type. -/
def printMethod (type : IRType) : RuntimeFunction :=
  if type.isFloatingPoint then .printDouble
  else if type = .int1 then .printBoolean
  else if type = .int64 then .printInteger
  else if type = .string then .printString
  else .printVariant

/-- Calls of print functions, and the world after them if no call failed. -/
structure Rendering (Z W : Type) where
  output : List (Print Z)
  world : Option W

namespace Rendering

/-- A rendering and, if no call failed, what comes after it. -/
def andThen (r : Rendering Z W) (k : W → Rendering Z W) : Rendering Z W :=
  match r.world with
  | some w => ⟨r.output ++ (k w).output, (k w).world⟩
  | none => r

/-- A value that is needed first. -/
def after {α : Type} (r : Option (α × W)) (k : α → W → Rendering Z W) : Rendering Z W :=
  match r with
  | some (a, w) => k a w
  | none => ⟨[], none⟩

end Rendering

/-- The loop variables bound; a value variable of the key's name wins. -/
def bindLoop (keyVariable valueVariable : Option Text) (key value : Z) (ρ : Text → Option Z) :
    Text → Option Z :=
  fun x =>
    if valueVariable = some x then some value
    else if keyVariable = some x then some key
    else ρ x

/-- A body for each element in order. -/
def renderLoop (body : Z × Z → W → Rendering Z W) : List (Z × Z) → W → Rendering Z W
  | [], w => ⟨[], some w⟩
  | element :: elements, w => (body element w).andThen (renderLoop body elements)

namespace Runtime

variable (R : Runtime Z W)

mutual

def render (ρ : Text → Option Z) : AST → W → Rendering Z W
  | .statements l, w => renderList ρ l w
  | .rawBlock text, w => ⟨[⟨.printString, .string text⟩], some w⟩
  | .printBlock e, w => .after (R.eval ρ e w) fun d w => ⟨[⟨printMethod e.irType, d⟩], some w⟩
  | .ifBlock c t none, w => .after (R.eval ρ c w) fun d w =>
    if d.isTrue then render ρ t w else ⟨[], some w⟩
  | .ifBlock c t (some e), w => .after (R.eval ρ c w) fun d w =>
    if d.isTrue then render ρ t w else render ρ e w
  | .forBlock k v i b none, w => .after (R.eval ρ i w) fun d w =>
    renderLoop (fun element => render (bindLoop k v element.1 element.2 ρ) b)
      (R.elements (R.toVariant i.irType d) w) w
  | .forBlock k v i b (some e), w => .after (R.eval ρ i w) fun d w =>
    let elements := R.elements (R.toVariant i.irType d) w
    if elements.isEmpty then render ρ e w
    else renderLoop (fun element => render (bindLoop k v element.1 element.2 ρ) b) elements w
  | .includeBlock .., _ => ⟨[], none⟩

def renderList (ρ : Text → Option Z) : List AST → W → Rendering Z W
  | [], w => ⟨[], some w⟩
  | s :: l, w => (render ρ s w).andThen (renderList ρ l)

end

end Runtime

end Php

end B2
