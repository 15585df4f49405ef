import B2.Ecma.Expression
import B2.Ecma.Statement

/-!
# Evaluation of ECMAScript

Values, and the evaluation of expression trees and statements by an engine. What is
fixed is the language: which values are true, the texts of primitive values, the order
of evaluation, and that `&&` and `||` may leave out their right operand. What objects
and operators do is a parameter. An evaluation may throw, and it may change the state,
in which the variables and the objects are.

The output of a program is the list of the values it has added to its buffer, each
with its text (`Segment`). Programs that differ in what they append have outputs that
differ in the same way (`execList_mapAppends`).
-/

namespace Ecma

/-- Not a number, the two zeros, and the other numbers. -/
inductive Number (N : Type) where
  | nan
  | zero (negative : Bool)
  | other (n : N)

/-- Objects are identities; functions are among them. -/
inductive Value (N O : Type) where
  | undefined
  | null
  | boolean (b : Bool)
  | number (n : Number N)
  | string (t : List Char)
  | object (o : O)

def Value.isTrue {N O : Type} : Value N O → Bool
  | .undefined | .null | .number .nan | .number (.zero _) => false
  | .boolean b => b
  | .string t => t ≠ []
  | .number (.other _) | .object _ => true

/-- What a word of an expression stands for. -/
inductive Word (N O : Type) where
  | name (x : Name)
  | literal (v : Value N O)
  /-- a name that is not declared -/
  | unbound

/-- A value added to the buffer, and its text. -/
abbrev Segment (N O : Type) := Value N O × List Char

/-- What evaluates in a state to a value, or throws. -/
abbrev Effect (S V : Type) := StateT S Option V

/-- The values, objects and variables of a state `S`. -/
structure Engine (N O S : Type) where
  lookup : Name → S → Value N O
  assign : Name → Value N O → S → S
  element (object key : Value N O) : Effect S (Value N O)
  call (function this : Value N O) (arguments : List (Value N O)) : Effect S (Value N O)
  unary (op : List Char) (v : Value N O) : Effect S (Value N O)
  /-- all but `&&` and `||` -/
  binary (op : List Char) (left right : Value N O) : Effect S (Value N O)
  updateElement (isPostfix : Bool) (op : List Char) (object key : Value N O) : Effect S (Value N O)
  updateName (isPostfix : Bool) (op : List Char) (x : Name) : Effect S (Value N O)
  /-- the number that a numeral denotes -/
  numeral : List Char → Number N
  numberText : N → List Char
  objectText : O → S → Option (List Char)
  /-- The keys a `for ... in` loop visits, in its order. -/
  keys : Value N O → S → List Name

namespace Engine

variable {α ε N O S : Type} (E : Engine N O S)

/-- `ToString` -/
def text : Value N O → S → Option (List Char)
  | .undefined, _ => some "undefined".toList
  | .null, _ => some "null".toList
  | .boolean b, _ => some (if b then "true".toList else "false".toList)
  | .number .nan, _ => some "NaN".toList
  | .number (.zero _), _ => some "0".toList
  | .number (.other n), _ => some (E.numberText n)
  | .string t, _ => some t
  | .object o, s => E.objectText o s

/-! ## Expressions -/

def evalWord : Word N O → Effect S (Value N O)
  | .name x => fun s => some (E.lookup x s, s)
  | .literal v => fun s => some (v, s)
  | .unbound => fun _ => none

def updateWord (isPostfix : Bool) (op : List Char) : Word N O → Effect S (Value N O)
  | .name x => E.updateName isPostfix op x
  | .literal _ | .unbound => fun _ => none

section

variable (word : α → Word N O)

mutual

def eval : Tree α → Effect S (Value N O)
  | .word w => E.evalWord (word w)
  | .element e k => do
    let object ← eval e
    let key ← eval k
    E.element object key
  | .call (.element e k) es => do
    let object ← eval e
    let key ← eval k
    let function ← E.element object key
    let arguments ← evalAll es
    E.call function object arguments
  | .call f es => do
    let function ← eval f
    let arguments ← evalAll es
    E.call function .undefined arguments
  | .unary op e => do
    let v ← eval e
    E.unary op v
  | .update op (.element e k) => do
    let object ← eval e
    let key ← eval k
    E.updateElement false op object key
  | .postfixUpdate (.element e k) op => do
    let object ← eval e
    let key ← eval k
    E.updateElement true op object key
  | .update op (.word w) => E.updateWord false op (word w)
  | .postfixUpdate (.word w) op => E.updateWord true op (word w)
  -- the operand is not a reference
  | .update .. | .postfixUpdate .. => fun _ => none
  | .binary op l r => do
    let left ← eval l
    if op = ['|', '|'] then if left.isTrue then return left else eval r
    else if op = ['&', '&'] then if left.isTrue then eval r else return left
    else
      let right ← eval r
      E.binary op left right

def evalAll : List (Tree α) → Effect S (List (Value N O))
  | [] => return []
  | e :: es => do
    let v ← eval e
    let vs ← evalAll es
    return v :: vs

end

/-- `l || w` -/
theorem eval_or {e : Tree α} {w : α} {v : Value N O} (hw : word w = .literal v) (s : S) :
    E.eval word (.binary ['|', '|'] e (.word w)) s =
      (E.eval word e s).map fun r => (if r.1.isTrue then r.1 else v, r.2) := by
  simp only [eval, hw, if_true]
  show (E.eval word e s).bind _ = _
  cases E.eval word e s with
  | none => rfl
  | some r =>
    cases h : r.1.isTrue <;> simp [h] <;> rfl

end

/-! ## Statements -/

/-- One run of a loop body for each key. -/
def loop (body : Name → S → Option (S × List (Segment N O))) :
    List Name → S → Option (S × List (Segment N O))
  | [], s => some (s, [])
  | key :: keys, s => do
    let (s, out) ← body key s
    let (s, rest) ← loop body keys s
    return (s, out ++ rest)

variable (evaluate : ε → Effect S (Value N O))

mutual

/-- The state after a statement, what it adds to the buffer, and how it ends. -/
def exec : Stmt ε → S → Option (S × List (Segment N O) × Completion)
  | .append e, s => do
    let (v, s) ← evaluate e s
    let t ← E.text v s
    return (s, [(v, t)], .normal)
  | .assign x e, s => do
    let (v, s) ← evaluate e s
    return (E.assign x v s, [], .normal)
  | .continueIf c, s => do
    let (v, s) ← evaluate c s
    return (s, [], if v.isTrue then .continued else .normal)
  | .ifElse c t e, s => do
    let (v, s) ← evaluate c s
    if v.isTrue then execList t s else execList e s
  | .forIn x object body, s => do
    let (s, out) ← loop (fun key s => do
      let (s, out, _) ← execList body (E.assign x (.string key) s)
      return (s, out)) (E.keys (E.lookup object s) s) s
    return (s, out, .normal)

def execList : List (Stmt ε) → S → Option (S × List (Segment N O) × Completion)
  | [], s => some (s, [], .normal)
  | stmt :: stmts, s => do
    let (s, out, c) ← exec stmt s
    match c with
    | .normal => do
      let (s, rest, c) ← execList stmts s
      return (s, out ++ rest, c)
    | .continued => return (s, out, .continued)

end

end Engine

/-! ## Segments -/

namespace Engine

variable {ε N O S : Type} {E : Engine N O S} {evaluate : ε → Effect S (Value N O)}
  {P : Segment N O → Prop}

theorem loop_forall {body : Name → S → Option (S × List (Segment N O))}
    (h : ∀ key s s' out, body key s = some (s', out) → ∀ p ∈ out, P p) :
    ∀ (keys : List Name) (s s' : S) (out : List (Segment N O)),
      loop body keys s = some (s', out) → ∀ p ∈ out, P p
  | [], s, s', out, hloop => by
    cases hloop
    exact nofun
  | key :: keys, s, s', out, hloop => by
    simp only [loop, Option.bind_eq_bind, Option.bind_eq_some_iff, Option.pure_def,
      Option.some.injEq, Prod.mk.injEq, Prod.exists] at hloop
    obtain ⟨s₁, out₁, hbody, s₂, out₂, hrest, rfl, rfl⟩ := hloop
    exact List.forall_mem_append.2 ⟨h _ _ _ _ hbody, loop_forall h keys _ _ _ hrest⟩

mutual

theorem exec_forall (hP : ∀ v s t, E.text v s = some t → P (v, t)) : ∀ (stmt : Stmt ε) s s' out c,
    E.exec evaluate stmt s = some (s', out, c) → ∀ p ∈ out, P p
  | .append e, s, s', out, c, hexec => by
    simp only [exec, Option.bind_eq_bind, Option.bind_eq_some_iff, Option.pure_def,
      Option.some.injEq, Prod.mk.injEq, Prod.exists] at hexec
    obtain ⟨v, s₁, -, t, ht, rfl, rfl, rfl⟩ := hexec
    exact List.forall_mem_singleton.2 (hP v s₁ t ht)
  | .assign x e, s, s', out, c, hexec | .continueIf e, s, s', out, c, hexec => by
    simp only [exec, Option.bind_eq_bind, Option.bind_eq_some_iff, Option.pure_def,
      Option.some.injEq, Prod.mk.injEq, Prod.exists] at hexec
    obtain ⟨v, s₁, -, -, rfl, -⟩ := hexec
    exact nofun
  | .ifElse cond t e, s, s', out, c, hexec => by
    simp only [exec, Option.bind_eq_bind, Option.bind_eq_some_iff, Prod.exists] at hexec
    obtain ⟨v, s₁, -, hbranch⟩ := hexec
    split_ifs at hbranch
    · exact execList_forall hP t _ _ _ _ hbranch
    · exact execList_forall hP e _ _ _ _ hbranch
  | .forIn x object body, s, s', out, c, hexec => by
    simp only [exec, Option.bind_eq_bind, Option.bind_eq_some_iff, Option.pure_def,
      Option.some.injEq, Prod.mk.injEq, Prod.exists] at hexec
    obtain ⟨s₁, out₁, hloop, rfl, rfl, rfl⟩ := hexec
    refine loop_forall ?_ _ _ _ _ hloop
    intro key s s' out hbody
    simp only [Option.bind_eq_some_iff, Option.some.injEq, Prod.mk.injEq, Prod.exists] at hbody
    obtain ⟨s₂, out₂, c₂, hlist, rfl, rfl⟩ := hbody
    exact execList_forall hP body _ _ _ _ hlist

/-- What holds of every value and its text holds of what is added to the buffer. -/
theorem execList_forall (hP : ∀ v s t, E.text v s = some t → P (v, t)) :
    ∀ (stmts : List (Stmt ε)) s s' out c,
      E.execList evaluate stmts s = some (s', out, c) → ∀ p ∈ out, P p
  | [], s, s', out, c, hexec => by
    cases hexec
    exact nofun
  | stmt :: stmts, s, s', out, c, hexec => by
    simp only [execList, Option.bind_eq_bind, Option.bind_eq_some_iff, Prod.exists] at hexec
    obtain ⟨s₁, out₁, c₁, hstmt, hrest⟩ := hexec
    have hfirst := exec_forall hP stmt _ _ _ _ hstmt
    cases c₁ with
    | continued =>
      cases hrest
      exact hfirst
    | normal =>
      simp only [Option.bind_eq_some_iff, Option.pure_def, Option.some.injEq, Prod.mk.injEq,
        Prod.exists] at hrest
      obtain ⟨s₂, out₂, c₂, hlist, rfl, rfl, rfl⟩ := hrest
      exact List.forall_mem_append.2 ⟨hfirst, execList_forall hP stmts _ _ _ _ hlist⟩

end

end Engine

/-! ## Other appends -/

namespace Stmt

variable {ε : Type}

mutual

/-- The statement with other expressions appended. -/
def mapAppends (f : ε → ε) : Stmt ε → Stmt ε
  | .append e => .append (f e)
  | .assign x e => .assign x e
  | .continueIf c => .continueIf c
  | .forIn x object body => .forIn x object (mapAppendsList f body)
  | .ifElse c t e => .ifElse c (mapAppendsList f t) (mapAppendsList f e)

def mapAppendsList (f : ε → ε) : List (Stmt ε) → List (Stmt ε)
  | [] => []
  | s :: l => mapAppends f s :: mapAppendsList f l

end

mutual

/-- The expressions that are appended. -/
def appends : Stmt ε → List ε
  | .append e => [e]
  | .assign .. | .continueIf _ => []
  | .forIn _ _ body => appendsList body
  | .ifElse _ t e => appendsList t ++ appendsList e

def appendsList : List (Stmt ε) → List ε
  | [] => []
  | s :: l => appends s ++ appendsList l

end

mutual

/-- The other expressions. -/
def others : Stmt ε → List ε
  | .append _ => []
  | .assign _ e | .continueIf e => [e]
  | .forIn _ _ body => othersList body
  | .ifElse c t e => c :: (othersList t ++ othersList e)

def othersList : List (Stmt ε) → List ε
  | [] => []
  | s :: l => others s ++ othersList l

end

theorem mapAppendsList_append (f : ε → ε) (l l' : List (Stmt ε)) :
    mapAppendsList f (l ++ l') = mapAppendsList f l ++ mapAppendsList f l' := by
  induction l with
  | nil => rfl
  | cons s l ih => simp [mapAppendsList, ih]

mutual

theorem appends_mapAppends (f : ε → ε) : ∀ s : Stmt ε,
    (s.mapAppends f).appends = s.appends.map f
  | .append e | .assign _ e | .continueIf e => rfl
  | .forIn x object body => appendsList_mapAppends f body
  | .ifElse c t e => by
    simp only [mapAppends, appends, List.map_append, appendsList_mapAppends f t,
      appendsList_mapAppends f e]

theorem appendsList_mapAppends (f : ε → ε) : ∀ l : List (Stmt ε),
    appendsList (mapAppendsList f l) = (appendsList l).map f
  | [] => rfl
  | s :: l => by
    simp only [mapAppendsList, appendsList, List.map_append, appends_mapAppends f s,
      appendsList_mapAppends f l]

theorem others_mapAppends (f : ε → ε) : ∀ s : Stmt ε, (s.mapAppends f).others = s.others
  | .append e | .assign _ e | .continueIf e => rfl
  | .forIn x object body => othersList_mapAppends f body
  | .ifElse c t e => by
    simp only [mapAppends, others, othersList_mapAppends f t, othersList_mapAppends f e]

theorem othersList_mapAppends (f : ε → ε) : ∀ l : List (Stmt ε),
    othersList (mapAppendsList f l) = othersList l
  | [] => rfl
  | s :: l => by
    simp only [mapAppendsList, othersList, others_mapAppends f s, othersList_mapAppends f l]

end

end Stmt

namespace Engine

variable {ε N O S : Type} {E : Engine N O S} {evaluate : ε → Effect S (Value N O)}
  {f : ε → ε} {g : Segment N O → Segment N O}

/-- Where `e` adds a segment, `f e` adds its image under `g` and does nothing else. -/
def Replaces (E : Engine N O S) (evaluate : ε → Effect S (Value N O)) (f : ε → ε)
    (g : Segment N O → Segment N O) (e : ε) : Prop :=
  ∀ s v s' t, evaluate e s = some (v, s') → E.text v s' = some t →
    evaluate (f e) s = some ((g (v, t)).1, s') ∧ E.text (g (v, t)).1 s' = some (g (v, t)).2

theorem loop_map {body body' : Name → S → Option (S × List (Segment N O))}
    (h : ∀ key s s' out, body key s = some (s', out) → body' key s = some (s', out.map g)) :
    ∀ (keys : List Name) (s s' : S) (out : List (Segment N O)),
      loop body keys s = some (s', out) → loop body' keys s = some (s', out.map g)
  | [], s, s', out, hloop => by
    cases hloop
    rfl
  | key :: keys, s, s', out, hloop => by
    simp only [loop, Option.bind_eq_bind, Option.bind_eq_some_iff, Option.pure_def,
      Option.some.injEq, Prod.mk.injEq, Prod.exists] at hloop ⊢
    obtain ⟨s₁, out₁, hbody, s₂, out₂, hrest, rfl, rfl⟩ := hloop
    exact ⟨s₁, _, h _ _ _ _ hbody, s₂, _, loop_map h keys _ _ _ hrest, rfl, List.map_append.symm⟩

mutual

/-- A statement with other expressions appended adds the images to the buffer. -/
theorem exec_mapAppends : ∀ (stmt : Stmt ε),
    (∀ e ∈ stmt.appends, Replaces E evaluate f g e) → ∀ s s' out c,
      E.exec evaluate stmt s = some (s', out, c) →
        E.exec evaluate (stmt.mapAppends f) s = some (s', out.map g, c)
  | .append e, h, s, s', out, c, hexec => by
    simp only [exec, Option.bind_eq_bind, Option.bind_eq_some_iff, Option.pure_def,
      Option.some.injEq, Prod.mk.injEq, Prod.exists] at hexec
    obtain ⟨v, s₁, he, t, ht, rfl, rfl, rfl⟩ := hexec
    obtain ⟨he', ht'⟩ := h e (List.mem_singleton_self e) s v s₁ t he ht
    simp only [Stmt.mapAppends, exec, he', Option.bind_eq_bind, Option.bind_some, ht',
      Option.pure_def, List.map_cons, List.map_nil]
  | .assign x e, h, s, s', out, c, hexec => by
    simp only [Stmt.mapAppends, exec, Option.bind_eq_bind, Option.bind_eq_some_iff, Option.pure_def,
      Option.some.injEq, Prod.mk.injEq, Prod.exists] at hexec ⊢
    obtain ⟨v, s₁, he, rfl, rfl, rfl⟩ := hexec
    exact ⟨v, s₁, he, rfl, rfl, rfl⟩
  | .continueIf e, h, s, s', out, c, hexec => by
    simp only [Stmt.mapAppends, exec, Option.bind_eq_bind, Option.bind_eq_some_iff, Option.pure_def,
      Option.some.injEq, Prod.mk.injEq, Prod.exists] at hexec ⊢
    obtain ⟨v, s₁, he, rfl, rfl, rfl⟩ := hexec
    exact ⟨v, s₁, he, rfl, rfl, rfl⟩
  | .ifElse cond t e, h, s, s', out, c, hexec => by
    simp only [Stmt.mapAppends, exec, Option.bind_eq_bind, Option.bind_eq_some_iff,
      Prod.exists] at hexec ⊢
    obtain ⟨v, s₁, he, hbranch⟩ := hexec
    refine ⟨v, s₁, he, ?_⟩
    by_cases hv : v.isTrue = true
    · rw [if_pos hv] at hbranch ⊢
      exact execList_mapAppends t (fun e he => h e (List.mem_append_left _ he)) _ _ _ _ hbranch
    · rw [if_neg hv] at hbranch ⊢
      exact execList_mapAppends e (fun e he => h e (List.mem_append_right _ he)) _ _ _ _ hbranch
  | .forIn x object body, h, s, s', out, c, hexec => by
    simp only [Stmt.mapAppends, exec, Option.bind_eq_bind, Option.bind_eq_some_iff, Option.pure_def,
      Option.some.injEq, Prod.mk.injEq, Prod.exists] at hexec ⊢
    obtain ⟨s₁, out₁, hloop, rfl, rfl, rfl⟩ := hexec
    refine ⟨s₁, _, loop_map ?_ _ _ _ _ hloop, rfl, rfl, rfl⟩
    intro key s s' out hbody
    simp only [Option.bind_eq_some_iff, Option.some.injEq, Prod.mk.injEq, Prod.exists] at hbody ⊢
    obtain ⟨s₂, out₂, c₂, hlist, rfl, rfl⟩ := hbody
    exact ⟨s₂, _, c₂, execList_mapAppends body h _ _ _ _ hlist, rfl, rfl⟩

theorem execList_mapAppends : ∀ (stmts : List (Stmt ε)),
    (∀ e ∈ Stmt.appendsList stmts, Replaces E evaluate f g e) → ∀ s s' out c,
      E.execList evaluate stmts s = some (s', out, c) →
        E.execList evaluate (Stmt.mapAppendsList f stmts) s = some (s', out.map g, c)
  | [], h, s, s', out, c, hexec => by
    cases hexec
    rfl
  | stmt :: stmts, h, s, s', out, c, hexec => by
    simp only [Stmt.mapAppendsList, execList, Option.bind_eq_bind, Option.bind_eq_some_iff,
      Prod.exists] at hexec ⊢
    obtain ⟨s₁, out₁, c₁, hstmt, hrest⟩ := hexec
    refine ⟨s₁, _, c₁, exec_mapAppends stmt (fun e he => h e (List.mem_append_left _ he))
      _ _ _ _ hstmt, ?_⟩
    cases c₁ with
    | continued =>
      cases hrest
      rfl
    | normal =>
      simp only [Option.bind_eq_some_iff, Option.pure_def, Option.some.injEq, Prod.mk.injEq,
        Prod.exists] at hrest ⊢
      obtain ⟨s₂, out₂, c₂, hlist, rfl, rfl, rfl⟩ := hrest
      exact ⟨s₂, _, c₂, execList_mapAppends stmts (fun e he => h e (List.mem_append_right _ he))
        _ _ _ _ hlist, rfl, List.map_append.symm, rfl⟩

end

end Engine

end Ecma
