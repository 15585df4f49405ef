import B2.Ast.Double

/-!
# Expressions

The expression tree of `expressions.hpp`. `Expr ν` keeps the type of variable
names open: the source's trees are `Expression`, the trees over `Text`. An
argument of a method call is a `std::unique_ptr<Expression>` in a list and may
be null, so the arguments are optional trees. `Run` is the result of code that
may throw; undefined behaviour of the C++ is a result of its own.
-/

namespace B2

/-- Behaviour the C++ standard leaves undefined. -/
inductive Undefined where
  /-- a node read through a `static_cast` to the class of another node -/
  | wrongCast
  | nullPointer
  | signedOverflow
  /-- an object read after it was deleted -/
  | useAfterDelete
  deriving DecidableEq, Repr

/-- The ways a run of the source ends without a result. -/
inductive Failure where
  | runtimeError (what : Text)
  | missingVariableReference (includeFilename variableName : Text)
  | syntaxError (message : Text) (line : Nat)
  | undefined (behaviour : Undefined)
  /-- the bound on nested calls was too small -/
  | outOfFuel
  deriving DecidableEq, Repr

abbrev Run := Except Failure

theorem bind_eq_ok {α β : Type} {x : Run α} {f : α → Run β} {b : β} :
    x >>= f = .ok b ↔ ∃ a, x = .ok a ∧ f a = .ok b := by
  cases x <;> simp [bind, Except.bind]

theorem bind_eq_error {α β : Type} {x : Run α} {f : α → Run β} {err : Failure} :
    x >>= f = .error err ↔ x = .error err ∨ ∃ a, x = .ok a ∧ f a = .error err := by
  cases x <;> simp [bind, Except.bind]

theorem pure_eq_ok {α : Type} {a b : α} : (pure a : Run α) = .ok b ↔ a = b := by
  simp [pure, Except.pure]

inductive ExpressionValueType where
  | double | integer | boolean | string | variant
  deriving DecidableEq, Repr

inductive BinaryOperation where
  | addition | subtraction | multiplication | division | modulus
  deriving DecidableEq, Repr

inductive UnaryOperation where
  | numericPositive | numericNegative | booleanNegation
  deriving DecidableEq, Repr

inductive ComparisonOperation where
  | equal | notEqual | greaterThan | greaterOrEqual | lessThan | lessOrEqual | or | and
  deriving DecidableEq, Repr

/-- The value of the enumerator, the operator's character. -/
def BinaryOperation.code : BinaryOperation → Nat
  | .addition => '+'.toNat
  | .subtraction => '-'.toNat
  | .multiplication => '*'.toNat
  | .division => '/'.toNat
  | .modulus => '%'.toNat

def UnaryOperation.code : UnaryOperation → Nat
  | .numericPositive => '+'.toNat
  | .numericNegative => '-'.toNat
  | .booleanNegation => '!'.toNat

/-- `PACK_UINT16`. -/
def packUint16 (a b : Char) : Nat := a.toNat * 256 + b.toNat

/-- The value of the enumerator, the operator's two characters. -/
def ComparisonOperation.code : ComparisonOperation → Nat
  | .equal => packUint16 '=' '='
  | .notEqual => packUint16 '!' '='
  | .greaterThan => packUint16 '>' '\x00'
  | .greaterOrEqual => packUint16 '>' '='
  | .lessThan => packUint16 '<' '\x00'
  | .lessOrEqual => packUint16 '<' '='
  | .or => packUint16 '|' '|'
  | .and => packUint16 '&' '&'

inductive Expr (ν : Type) where
  | variableReference (variableName : ν)
  | getAttribute (base : Expr ν) (attributeName : Text)
  | methodCall (methodName : Text) (arguments : List (Option (Expr ν)))
  | doubleLiteral (value : Double)
  | integerLiteral (value : Int64)
  | booleanLiteral (value : Bool)
  | stringLiteral (value : Text)
  | binaryOperation (left right : Expr ν) (op : BinaryOperation)
  | unaryOperation (expr : Expr ν) (op : UnaryOperation)
  | comparison (left right : Expr ν) (op : ComparisonOperation)

/-- The trees of the source. -/
abbrev Expression := Expr Text

namespace Expr

variable {ν μ : Type}

/-- Structural induction; the arguments of a method call are met one by one. -/
@[elab_as_elim, induction_eliminator]
theorem ind {motive : Expr ν → Prop}
    (variableReference : ∀ x, motive (.variableReference x))
    (getAttribute : ∀ v a, motive v → motive (.getAttribute v a))
    (methodCall : ∀ m args, (∀ e, some e ∈ args → motive e) → motive (.methodCall m args))
    (doubleLiteral : ∀ v, motive (.doubleLiteral v))
    (integerLiteral : ∀ v, motive (.integerLiteral v))
    (booleanLiteral : ∀ v, motive (.booleanLiteral v))
    (stringLiteral : ∀ v, motive (.stringLiteral v))
    (binaryOperation : ∀ l r op, motive l → motive r → motive (.binaryOperation l r op))
    (unaryOperation : ∀ e op, motive e → motive (.unaryOperation e op))
    (comparison : ∀ l r op, motive l → motive r → motive (.comparison l r op)) :
    ∀ e, motive e := by
  intro e
  refine Expr.rec (motive_1 := motive) (motive_2 := fun args => ∀ e, some e ∈ args → motive e)
    (motive_3 := fun arg => ∀ e, arg = some e → motive e) variableReference
    (fun v a hv => getAttribute v a hv) methodCall doubleLiteral integerLiteral booleanLiteral
    stringLiteral binaryOperation unaryOperation comparison ?_ ?_ ?_ ?_ e
  · intro e h; cases h
  · intro arg args harg hargs e h
    rcases List.mem_cons.1 h with h | h
    · exact harg e h.symm
    · exact hargs e h
  · intro e h; cases h
  · intro e he e' h; cases h; exact he

def valueType : Expr ν → ExpressionValueType
  | .doubleLiteral _ => .double
  | .integerLiteral _ => .integer
  | .booleanLiteral _ => .boolean
  | .stringLiteral _ => .string
  | .comparison .. => .boolean
  | .binaryOperation l r _ =>
    let left_vtype := l.valueType
    let right_vtype := r.valueType
    if left_vtype = .variant ∨ right_vtype = .variant then .variant
    else if left_vtype = .double ∨ right_vtype = .double then .double
    else if left_vtype = .integer ∧ right_vtype = .integer then .integer
    else .double
  | .unaryOperation e op =>
    match op with
    | .booleanNegation => .boolean
    | .numericPositive | .numericNegative =>
      match e.valueType with
      | .variant => .variant
      | .double => .double
      | .integer => .integer
      | _ => .double
  | .variableReference _ | .getAttribute .. | .methodCall .. => .variant

mutual

/-- `clone()`. -/
def clone : Expr ν → Run (Expr ν)
  | .variableReference x => .ok (.variableReference x)
  | .getAttribute v a => do return .getAttribute (← v.clone) a
  | .methodCall m args => do
    -- `cloneExpressionList` allocates `size()` null elements and appends the clones to them
    return .methodCall m (List.replicate args.length none ++ (← cloneArguments args))
  | .doubleLiteral v => .ok (.doubleLiteral v)
  | .integerLiteral v => .ok (.integerLiteral v)
  | .booleanLiteral v => .ok (.booleanLiteral v)
  | .stringLiteral v => .ok (.stringLiteral v)
  | .binaryOperation l r op => do return .binaryOperation (← l.clone) (← r.clone) op
  | .unaryOperation e op => do return .unaryOperation (← e.clone) op
  | .comparison l r op => do return .comparison (← l.clone) (← r.clone) op

/-- The clones `cloneExpressionList` appends, in order. -/
def cloneArguments : List (Option (Expr ν)) → Run (List (Option (Expr ν)))
  | [] => .ok []
  | none :: _ => .error (.undefined .nullPointer)
  | some e :: args => do
    let e' ← e.clone
    let args' ← cloneArguments args
    return some e' :: args'

end

mutual

/-- Rename the variables. -/
def map (f : ν → μ) : Expr ν → Expr μ
  | .variableReference x => .variableReference (f x)
  | .getAttribute v a => .getAttribute (v.map f) a
  | .methodCall m args => .methodCall m (mapArguments f args)
  | .doubleLiteral v => .doubleLiteral v
  | .integerLiteral v => .integerLiteral v
  | .booleanLiteral v => .booleanLiteral v
  | .stringLiteral v => .stringLiteral v
  | .binaryOperation l r op => .binaryOperation (l.map f) (r.map f) op
  | .unaryOperation e op => .unaryOperation (e.map f) op
  | .comparison l r op => .comparison (l.map f) (r.map f) op

def mapArguments (f : ν → μ) : List (Option (Expr ν)) → List (Option (Expr μ))
  | [] => []
  | none :: args => none :: mapArguments f args
  | some e :: args => some (e.map f) :: mapArguments f args

end

mutual

/-- The variable references of a tree, from left to right. -/
def references : Expr ν → List ν
  | .variableReference x => [x]
  | .getAttribute v _ => v.references
  | .methodCall _ args => argumentReferences args
  | .binaryOperation l r _ | .comparison l r _ => l.references ++ r.references
  | .unaryOperation e _ => e.references
  | .doubleLiteral _ | .integerLiteral _ | .booleanLiteral _ | .stringLiteral _ => []

def argumentReferences : List (Option (Expr ν)) → List ν
  | [] => []
  | none :: args => argumentReferences args
  | some e :: args => e.references ++ argumentReferences args

end

mutual

/-- No argument of the tree is null. -/
def Proper : Expr ν → Prop
  | .getAttribute v _ => v.Proper
  | .methodCall _ args => ProperArguments args
  | .binaryOperation l r _ | .comparison l r _ => l.Proper ∧ r.Proper
  | .unaryOperation e _ => e.Proper
  | .variableReference _ | .doubleLiteral _ | .integerLiteral _ | .booleanLiteral _
  | .stringLiteral _ => True

def ProperArguments : List (Option (Expr ν)) → Prop
  | [] => True
  | none :: _ => False
  | some e :: args => e.Proper ∧ ProperArguments args

end

/-- No method call of the tree has an argument. -/
def ArgumentFree : Expr ν → Prop
  | .getAttribute v _ => v.ArgumentFree
  | .methodCall _ args => args = []
  | .binaryOperation l r _ | .comparison l r _ => l.ArgumentFree ∧ r.ArgumentFree
  | .unaryOperation e _ => e.ArgumentFree
  | .variableReference _ | .doubleLiteral _ | .integerLiteral _ | .booleanLiteral _
  | .stringLiteral _ => True

mutual

/-- The height of a tree, a bound on the nesting of calls that walk it. -/
def depth : Expr ν → Nat
  | .getAttribute v _ => v.depth + 1
  | .methodCall _ args => argumentsDepth args + 1
  | .binaryOperation l r _ | .comparison l r _ => max l.depth r.depth + 1
  | .unaryOperation e _ => e.depth + 1
  | .variableReference _ | .doubleLiteral _ | .integerLiteral _ | .booleanLiteral _
  | .stringLiteral _ => 1

def argumentsDepth : List (Option (Expr ν)) → Nat
  | [] => 0
  | none :: args => argumentsDepth args
  | some e :: args => max e.depth (argumentsDepth args)

end

theorem depth_pos (e : Expr ν) : 0 < e.depth := by
  cases e <;> simp [depth]

end Expr

end B2
