import B2.Ast.Ast
import B2.Ast.Substitution

/-!
# Rendering

The reference meaning of a template. A `World` is what the target language
does with values: its literals, its operators, its conditions, the text of a
value and the properties of an object. A computation that throws has no
result. `World.render` is the output of a template without include blocks
under an environment, which has a value or a failed computation for every
variable.
-/

namespace B2

/-- The operations of the target language on its values `V`. -/
structure World (V : Type) where
  doubleLiteral : Double → V
  integerLiteral : Int64 → V
  booleanLiteral : Bool → V
  stringLiteral : Text → V
  getAttribute : V → Text → Option V
  methodCall : Text → List V → Option V
  binaryOperation : BinaryOperation → V → V → Option V
  unaryOperation : UnaryOperation → V → Option V
  /-- The right operand is a computation, which `&&` and `||` may leave out. -/
  comparison : ComparisonOperation → V → Option V → Option V
  isTrue : V → Bool
  text : V → Option Text
  /-- The keys a `for ... in` loop visits, in its order. -/
  keys : V → List Text
  own : V → Text → Bool
  property : V → Text → V
  /-- The member `hasOwnProperty` of the value is not the built-in function; data holds no
  functions, so calling it throws. -/
  shadowsHasOwnProperty : V → Bool
  text_stringLiteral : ∀ t, text (stringLiteral t) = some t
  isTrue_booleanLiteral : ∀ b, isTrue (booleanLiteral b) = b

namespace World

variable {V : Type} (W : World V) {ν μ : Type}

mutual

def eval (ρ : ν → Option V) : Expr ν → Option V
  | .variableReference x => ρ x
  | .getAttribute v a => do W.getAttribute (← eval ρ v) a
  | .methodCall m args => do W.methodCall m (← evalArguments ρ args)
  | .doubleLiteral v => some (W.doubleLiteral v)
  | .integerLiteral v => some (W.integerLiteral v)
  | .booleanLiteral v => some (W.booleanLiteral v)
  | .stringLiteral v => some (W.stringLiteral v)
  | .binaryOperation l r op => do
    let left ← eval ρ l
    let right ← eval ρ r
    W.binaryOperation op left right
  | .unaryOperation e op => do W.unaryOperation op (← eval ρ e)
  | .comparison l r op => do W.comparison op (← eval ρ l) (eval ρ r)

def evalArguments (ρ : ν → Option V) : List (Option (Expr ν)) → Option (List V)
  | [] => some []
  | none :: _ => none
  | some e :: args => do
    let v ← eval ρ e
    let vs ← evalArguments ρ args
    return v :: vs

end

/-- What a print block adds to the output: with the undefined check a value that
counts as false prints as the empty string. -/
def printed (undefinedCheck : Bool) (v : V) : Option Text :=
  if undefinedCheck && !W.isTrue v then W.text (W.stringLiteral []) else W.text v

/-- The own properties of a value in the order of the loop. -/
def ownKeys (v : V) : List Text := (W.keys v).filter (W.own v)

/-- The loop variables bound in an environment; a value variable of the key's name wins. -/
def bindLoop (keyVariable valueVariable : Option Text) (key value : V) (ρ : Text → Option V) :
    Text → Option V :=
  fun x =>
    if valueVariable = some x then some value
    else if keyVariable = some x then some key
    else ρ x

mutual

/-- The output of a template. -/
def render (undefinedCheck : Bool) (ρ : Text → Option V) : AST → Option Text
  | .statements l => renderList undefinedCheck ρ l
  | .rawBlock t => some t
  | .printBlock e => do W.printed undefinedCheck (← W.eval ρ e)
  | .ifBlock c t none => do
    let b ← W.eval ρ c
    if W.isTrue b then render undefinedCheck ρ t else some []
  | .ifBlock c t (some e) => do
    let b ← W.eval ρ c
    if W.isTrue b then render undefinedCheck ρ t else render undefinedCheck ρ e
  | .forBlock k v i b none => do
    let it ← W.eval ρ i
    let outputs ← (W.ownKeys it).mapM fun key =>
      render undefinedCheck (bindLoop k v (W.stringLiteral key) (W.property it key) ρ) b
    return outputs.flatten
  | .forBlock k v i b (some e) => do
    let it ← W.eval ρ i
    if W.ownKeys it = [] then render undefinedCheck ρ e
    else
      let outputs ← (W.ownKeys it).mapM fun key =>
        render undefinedCheck (bindLoop k v (W.stringLiteral key) (W.property it key) ρ) b
      return outputs.flatten
  | .includeBlock .. => none

def renderList (undefinedCheck : Bool) (ρ : Text → Option V) : List AST → Option Text
  | [] => some []
  | s :: l => do
    let out ← render undefinedCheck ρ s
    let rest ← renderList undefinedCheck ρ l
    return out ++ rest

end

variable {W}

theorem evalArguments_congr {ρ : ν → Option V} {ρ' : μ → Option V} {f : Expr ν → Expr μ} :
    ∀ {args : List (Option (Expr ν))},
      (∀ e, some e ∈ args → W.eval ρ' (f e) = W.eval ρ e) →
        W.evalArguments ρ' (args.map (Option.map f)) = W.evalArguments ρ args
  | [], _ => rfl
  | none :: _, _ => rfl
  | some e :: args, h => by
    simp only [List.map_cons, Option.map_some, evalArguments, h e List.mem_cons_self,
      evalArguments_congr fun e he => h e (List.mem_cons_of_mem _ he)]

/-- The value of a tree with expressions in the place of its variables. -/
theorem eval_bind {ρ : μ → Option V} (σ : ν → Expr μ) (e : Expr ν) :
    W.eval ρ (e.bind σ) = W.eval (fun x => W.eval ρ (σ x)) e := by
  induction e with
  | methodCall m args ih =>
    simp only [Expr.bind, eval, Expr.bindArguments_eq, evalArguments_congr ih]
  | getAttribute v a ih => simp only [Expr.bind, eval, ih]
  | binaryOperation l r op ihl ihr | comparison l r op ihl ihr =>
    simp only [Expr.bind, eval, ihl, ihr]
  | unaryOperation e op ih => simp only [Expr.bind, eval, ih]
  | _ => rfl

/-- The value of a tree depends on the variables it refers to. -/
theorem eval_congr {ρ ρ' : ν → Option V} {e : Expr ν} (h : ∀ x ∈ e.references, ρ' x = ρ x) :
    W.eval ρ' e = W.eval ρ e := by
  induction e with
  | variableReference x => exact h x (List.mem_singleton_self _)
  | methodCall m args ih =>
    have := evalArguments_congr (f := id) fun e he =>
      ih e he fun x hx => h x (Expr.mem_argumentReferences.2 ⟨e, he, hx⟩)
    rw [Option.map_id, List.map_id] at this
    simp only [eval, this]
  | getAttribute v a ih => simp only [eval, ih h]
  | binaryOperation l r op ihl ihr | comparison l r op ihl ihr =>
    simp only [eval, ihl fun x hx => h x (List.mem_append_left _ hx),
      ihr fun x hx => h x (List.mem_append_right _ hx)]
  | unaryOperation e op ih => simp only [eval, ih h]
  | _ => rfl

variable {undefinedCheck : Bool} {ρ : Text → Option V}

theorem renderList_append {l l' : List AST} :
    W.renderList undefinedCheck ρ (l ++ l') = do
      let out ← W.renderList undefinedCheck ρ l
      let rest ← W.renderList undefinedCheck ρ l'
      return out ++ rest := by
  induction l with
  | nil => simp [renderList]
  | cons s l ih =>
    simp only [List.cons_append, renderList, ih]
    cases W.render undefinedCheck ρ s with
    | none => rfl
    | some out =>
      cases W.renderList undefinedCheck ρ l with
      | none => rfl
      | some rest => cases W.renderList undefinedCheck ρ l' <;> simp

theorem renderList_singleton {s : AST} :
    W.renderList undefinedCheck ρ [s] = W.render undefinedCheck ρ s := by
  simp [renderList]

theorem render_fromStatementsArray {l : List AST} :
    W.render undefinedCheck ρ (.fromStatementsArray l) = W.renderList undefinedCheck ρ l := by
  match l with
  | [] => rfl
  | [s] => rw [renderList_singleton]; rfl
  | s :: s' :: l => rfl

theorem renderList_asStatements {a : AST} :
    W.renderList undefinedCheck ρ a.asStatements = W.render undefinedCheck ρ a := by
  cases a <;> first | rfl | exact renderList_singleton

end World

end B2
