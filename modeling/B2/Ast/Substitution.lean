import B2.Ast.Expression

/-!
# Simultaneous substitution in expressions

`Expr.bind` puts an expression in the place of every variable reference, and
`Expr.map` renames them. Two substitutions agree on a tree when they agree on
its references (`bind_eq_bind_iff`). A clone of a method call gains null
arguments, so only a tree without arguments is its own clone
(`clone_eq_self_iff`); `argumentCount` tells the difference.
-/

namespace B2

namespace Expr

variable {ν μ ξ : Type}

mutual

/-- `σ x` in the place of every reference to `x`. -/
def bind (σ : ν → Expr μ) : Expr ν → Expr μ
  | .variableReference x => σ x
  | .getAttribute v a => .getAttribute (v.bind σ) a
  | .methodCall m args => .methodCall m (bindArguments σ args)
  | .doubleLiteral v => .doubleLiteral v
  | .integerLiteral v => .integerLiteral v
  | .booleanLiteral v => .booleanLiteral v
  | .stringLiteral v => .stringLiteral v
  | .binaryOperation l r op => .binaryOperation (l.bind σ) (r.bind σ) op
  | .unaryOperation e op => .unaryOperation (e.bind σ) op
  | .comparison l r op => .comparison (l.bind σ) (r.bind σ) op

def bindArguments (σ : ν → Expr μ) : List (Option (Expr ν)) → List (Option (Expr μ))
  | [] => []
  | none :: args => none :: bindArguments σ args
  | some e :: args => some (e.bind σ) :: bindArguments σ args

end

theorem bindArguments_eq (σ : ν → Expr μ) : ∀ args : List (Option (Expr ν)),
    bindArguments σ args = args.map (Option.map fun e => e.bind σ)
  | [] => rfl
  | none :: args => by rw [bindArguments, bindArguments_eq σ args]; rfl
  | some e :: args => by rw [bindArguments, bindArguments_eq σ args]; rfl

theorem mapArguments_eq (f : ν → μ) : ∀ args : List (Option (Expr ν)),
    mapArguments f args = args.map (Option.map fun e => e.map f)
  | [] => rfl
  | none :: args => by rw [mapArguments, mapArguments_eq f args]; rfl
  | some e :: args => by rw [mapArguments, mapArguments_eq f args]; rfl

theorem mem_argumentReferences {x : ν} : ∀ {args : List (Option (Expr ν))},
    x ∈ argumentReferences args ↔ ∃ e, some e ∈ args ∧ x ∈ e.references
  | [] => by simp [argumentReferences]
  | none :: args => by simp [argumentReferences, mem_argumentReferences]
  | some e :: args => by simp [argumentReferences, mem_argumentReferences]

theorem properArguments_iff : ∀ {args : List (Option (Expr ν))},
    ProperArguments args ↔ ∃ es : List (Expr ν), args = es.map some ∧ ∀ e ∈ es, e.Proper
  | [] => ⟨fun _ => ⟨[], rfl, by simp⟩, fun _ => trivial⟩
  | none :: args => by
    refine ⟨nofun, ?_⟩
    rintro ⟨es, h, -⟩
    cases es <;> simp at h
  | some e :: args => by
    rw [ProperArguments, properArguments_iff]
    constructor
    · rintro ⟨he, es, rfl, hes⟩
      exact ⟨e :: es, rfl, by simpa using ⟨he, hes⟩⟩
    · rintro ⟨es, h, hes⟩
      cases es with
      | nil => simp at h
      | cons e' es =>
        simp only [List.map_cons, List.cons.injEq, Option.some.injEq] at h
        obtain ⟨rfl, rfl⟩ := h
        exact ⟨hes _ List.mem_cons_self, es, rfl, fun e he => hes e (List.mem_cons_of_mem _ he)⟩

/-! ## Laws of substitution -/

/-- Equal lists of optional trees, one tree at a time. -/
theorem map_option_eq_iff {f g : Expr ν → Expr μ} {args : List (Option (Expr ν))} :
    args.map (Option.map f) = args.map (Option.map g) ↔ ∀ e, some e ∈ args → f e = g e := by
  rw [List.map_inj_left]
  constructor
  · intro h e he
    simpa using h (some e) he
  · rintro h (_ | e) he
    · rfl
    · simpa using h e he

theorem map_eq_bind (f : ν → μ) (e : Expr ν) :
    e.map f = e.bind fun x => .variableReference (f x) := by
  induction e with
  | methodCall m args ih =>
    rw [map, bind, mapArguments_eq, bindArguments_eq, map_option_eq_iff.2 ih]
  | getAttribute v a ih => rw [map, bind, ih]
  | binaryOperation l r op ihl ihr | comparison l r op ihl ihr => rw [map, bind, ihl, ihr]
  | unaryOperation e op ih => rw [map, bind, ih]
  | _ => rfl

theorem bind_bind (σ : ν → Expr μ) (τ : μ → Expr ξ) (e : Expr ν) :
    (e.bind σ).bind τ = e.bind fun x => (σ x).bind τ := by
  induction e with
  | methodCall m args ih =>
    simp only [bind, bindArguments_eq, List.map_map, Option.map_comp_map]
    exact congrArg (methodCall m) (map_option_eq_iff.2 ih)
  | getAttribute v a ih => simp only [bind, ih]
  | binaryOperation l r op ihl ihr | comparison l r op ihl ihr => simp only [bind, ihl, ihr]
  | unaryOperation e op ih => simp only [bind, ih]
  | _ => rfl

/-- Substitutions that agree on the references of a tree, and only those, agree on the tree. -/
theorem bind_eq_bind_iff {σ τ : ν → Expr μ} {e : Expr ν} :
    e.bind σ = e.bind τ ↔ ∀ x ∈ e.references, σ x = τ x := by
  induction e with
  | variableReference x => simp [bind, references]
  | methodCall m args ih =>
    simp only [bind, bindArguments_eq, methodCall.injEq, true_and, map_option_eq_iff, references,
      mem_argumentReferences]
    constructor
    · rintro h x ⟨e, he, hx⟩
      exact (ih e he).1 (h e he) x hx
    · exact fun h e he => (ih e he).2 fun x hx => h x ⟨e, he, hx⟩
  | getAttribute v a ih => simp [bind, references, ih]
  | binaryOperation l r op ihl ihr | comparison l r op ihl ihr =>
    simp [bind, references, ihl, ihr, or_imp, forall_and]
  | unaryOperation e op ih => simp [bind, references, ih]
  | _ => simp [bind, references]

theorem map_eq_map_iff {f g : ν → μ} {e : Expr ν} :
    e.map f = e.map g ↔ ∀ x ∈ e.references, f x = g x := by
  simp only [map_eq_bind, bind_eq_bind_iff, variableReference.injEq]

/-! ## Clones -/

mutual

/-- The number of argument places in a tree. -/
def argumentCount : Expr ν → Nat
  | .getAttribute v _ => v.argumentCount
  | .methodCall _ args => args.length + argumentCounts args
  | .binaryOperation l r _ | .comparison l r _ => l.argumentCount + r.argumentCount
  | .unaryOperation e _ => e.argumentCount
  | .variableReference _ | .doubleLiteral _ | .integerLiteral _ | .booleanLiteral _
  | .stringLiteral _ => 0

def argumentCounts : List (Option (Expr ν)) → Nat
  | [] => 0
  | none :: args => argumentCounts args
  | some e :: args => e.argumentCount + argumentCounts args

end

theorem argumentCounts_replicate_append (n : Nat) (args : List (Option (Expr ν))) :
    argumentCounts (List.replicate n none ++ args) = argumentCounts args := by
  induction n with
  | zero => rfl
  | succ n ih => simpa [List.replicate_succ, argumentCounts] using ih

theorem argumentCounts_map {f : ν → μ} : ∀ {args : List (Option (Expr ν))},
    (∀ e, some e ∈ args → (e.map f).argumentCount = e.argumentCount) →
      argumentCounts (mapArguments f args) = argumentCounts args
  | [], _ => rfl
  | none :: args, ih => by
    rw [mapArguments, argumentCounts, argumentCounts]
    exact argumentCounts_map fun e h => ih e (List.mem_cons_of_mem _ h)
  | some e :: args, ih => by
    rw [mapArguments, argumentCounts, argumentCounts, ih e List.mem_cons_self,
      argumentCounts_map fun e h => ih e (List.mem_cons_of_mem _ h)]

theorem argumentCount_map (f : ν → μ) (e : Expr ν) :
    (e.map f).argumentCount = e.argumentCount := by
  induction e with
  | methodCall m args ih =>
    rw [map, argumentCount, argumentCount, argumentCounts_map ih, mapArguments_eq,
      List.length_map]
  | getAttribute v a ih => simp only [map, argumentCount, ih]
  | binaryOperation l r op ihl ihr | comparison l r op ihl ihr =>
    simp only [map, argumentCount, ihl, ihr]
  | unaryOperation e op ih => simp only [map, argumentCount, ih]
  | _ => rfl

theorem clone_of_argumentFree (e : Expr ν) (h : e.ArgumentFree) : e.clone = .ok e := by
  induction e with
  | methodCall m args ih =>
    simp only [ArgumentFree] at h
    subst h
    rfl
  | getAttribute v a ih => rw [clone, ih h]; rfl
  | binaryOperation l r op ihl ihr | comparison l r op ihl ihr => rw [clone, ihl h.1, ihr h.2]; rfl
  | unaryOperation e op ih => rw [clone, ih h]; rfl
  | _ => rfl

theorem cloneArguments_count {args args' : List (Option (Expr ν))}
    (ih : ∀ e, some e ∈ args → ∀ e', e.clone = .ok e' → e.argumentCount ≤ e'.argumentCount)
    (h : cloneArguments args = .ok args') :
    args'.length = args.length ∧ argumentCounts args ≤ argumentCounts args' := by
  induction args generalizing args' with
  | nil => cases h; exact ⟨rfl, le_rfl⟩
  | cons arg args ihargs =>
    cases arg with
    | none => cases h
    | some e =>
      simp only [cloneArguments, bind_eq_ok, pure_eq_ok] at h
      obtain ⟨e', he, args'', hargs, rfl⟩ := h
      have he := ih e List.mem_cons_self e' he
      obtain ⟨hlen, hcount⟩ := ihargs (fun e h => ih e (List.mem_cons_of_mem _ h)) hargs
      exact ⟨by simp [hlen], by simp only [argumentCounts]; omega⟩

/-- Cloning loses no argument place, and only a tree without arguments gains none. -/
theorem argumentCount_clone (e : Expr ν) : ∀ e', e.clone = .ok e' →
    e.argumentCount ≤ e'.argumentCount ∧ (e'.argumentCount = e.argumentCount → e.ArgumentFree) := by
  induction e with
  | methodCall m args ih =>
    intro e' h
    simp only [clone, bind_eq_ok, pure_eq_ok] at h
    obtain ⟨args', hargs, rfl⟩ := h
    obtain ⟨hlen, hcount⟩ := cloneArguments_count (fun e he e' h => (ih e he e' h).1) hargs
    simp only [argumentCount, List.length_append, List.length_replicate,
      argumentCounts_replicate_append, ArgumentFree, hlen]
    refine ⟨by omega, fun h => ?_⟩
    exact List.length_eq_zero_iff.1 (by omega)
  | getAttribute v a ih =>
    intro e' h
    simp only [clone, bind_eq_ok, pure_eq_ok] at h
    obtain ⟨v', hv, rfl⟩ := h
    exact ih v' hv
  | binaryOperation l r op ihl ihr | comparison l r op ihl ihr =>
    intro e' h
    simp only [clone, bind_eq_ok, pure_eq_ok] at h
    obtain ⟨l', hl, r', hr, rfl⟩ := h
    obtain ⟨hlel, heql⟩ := ihl l' hl
    obtain ⟨hler, heqr⟩ := ihr r' hr
    simp only [argumentCount, ArgumentFree]
    exact ⟨by omega, fun h => ⟨heql (by omega), heqr (by omega)⟩⟩
  | unaryOperation e op ih =>
    intro e' h
    simp only [clone, bind_eq_ok, pure_eq_ok] at h
    obtain ⟨s, hs, rfl⟩ := h
    exact ih s hs
  | _ =>
    intro e' h
    cases h
    exact ⟨le_rfl, fun _ => trivial⟩

/-- A tree is its own clone exactly when no method call in it has an argument. -/
theorem clone_eq_self_iff (e : Expr ν) : e.clone = .ok e ↔ e.ArgumentFree :=
  ⟨fun h => (argumentCount_clone e e h).2 rfl, clone_of_argumentFree e⟩

/-- The clone of `f(1)` is `f` of a null argument and `1`. -/
theorem clone_ne_self_call :
    (methodCall "f".toList [some (integerLiteral 1)] : Expression).clone =
        .ok (.methodCall "f".toList [none, some (.integerLiteral 1)]) ∧
      (methodCall "f".toList [some (integerLiteral 1)] : Expression).clone ≠
        .ok (.methodCall "f".toList [some (.integerLiteral 1)]) := by
  refine ⟨rfl, fun h => ?_⟩
  cases h

/-- Only a variable reference has a variable reference for a clone. -/
theorem clone_eq_variableReference {e : Expr ν} {x : ν}
    (h : e.clone = .ok (.variableReference x)) : e = .variableReference x := by
  cases e <;> simp only [clone, bind_eq_ok, pure_eq_ok, Except.ok.injEq, reduceCtorEq, and_false,
    exists_false] at h
  exact h

end Expr

end B2
