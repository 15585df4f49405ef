import B2.Javascript.Statements
import B2.Render.Semantics

/-!
# The generated program

Running the generated function against the reference rendering. The loops of
the generated code ask their iterable for `hasOwnProperty`, which data with a
property of that name does not give them. `World.renderOwn` is the rendering
with that question in it: the generated statements compute it for every tree
(`runs_compile`), and it is the reference rendering exactly when no loop that
is reached asks such an iterable (`Safe`).
-/

namespace B2

namespace World

variable {V : Type} (W : World V)

/-- The output of a loop that asks its iterable whether a key is its own. -/
def iterate (it : V) (out : Text → Option Text) : Option Text :=
  ((W.keys it).mapM fun key =>
    if W.shadowsHasOwnProperty it then none
    else if W.own it key then out key else some []).map List.flatten

mutual

/-- `render` with the loops of the generated code. -/
def renderOwn (undefinedCheck : Bool) (ρ : Text → Option V) : AST → Option Text
  | .statements l => renderOwnList undefinedCheck ρ l
  | .rawBlock t => some t
  | .printBlock e => (W.eval ρ e).bind (W.printed undefinedCheck)
  | .ifBlock c t none => (W.eval ρ c).bind fun b =>
    if W.isTrue b then renderOwn undefinedCheck ρ t else some []
  | .ifBlock c t (some e) => (W.eval ρ c).bind fun b =>
    if W.isTrue b then renderOwn undefinedCheck ρ t else renderOwn undefinedCheck ρ e
  | .forBlock k v i b none => (W.eval ρ i).bind fun it =>
    W.iterate it fun key =>
      renderOwn undefinedCheck (bindLoop k v (W.stringLiteral key) (W.property it key) ρ) b
  | .forBlock k v i b (some e) => (W.eval ρ i).bind fun it =>
    (W.iterate it fun key =>
      renderOwn undefinedCheck (bindLoop k v (W.stringLiteral key) (W.property it key) ρ) b).bind
      fun out => (if W.ownKeys it = [] then renderOwn undefinedCheck ρ e else some []).map (out ++ ·)
  | .includeBlock .. => none

def renderOwnList (undefinedCheck : Bool) (ρ : Text → Option V) : List AST → Option Text
  | [] => some []
  | s :: l => (renderOwn undefinedCheck ρ s).bind fun out =>
    (renderOwnList undefinedCheck ρ l).map (out ++ ·)

end

mutual

/-- No loop that is reached asks an iterable whose `hasOwnProperty` is shadowed. -/
def Safe (ρ : Text → Option V) : AST → Prop
  | .statements l => SafeList ρ l
  | .rawBlock _ | .printBlock _ | .includeBlock .. => True
  | .ifBlock c t none => ∀ b, W.eval ρ c = some b → W.isTrue b = true → Safe ρ t
  | .ifBlock c t (some e) => ∀ b, W.eval ρ c = some b →
    (W.isTrue b = true → Safe ρ t) ∧ (W.isTrue b = false → Safe ρ e)
  | .forBlock k v i b none => ∀ it, W.eval ρ i = some it →
    (W.keys it ≠ [] → W.shadowsHasOwnProperty it = false) ∧
      ∀ key ∈ W.ownKeys it, Safe (bindLoop k v (W.stringLiteral key) (W.property it key) ρ) b
  | .forBlock k v i b (some e) => ∀ it, W.eval ρ i = some it →
    ((W.keys it ≠ [] → W.shadowsHasOwnProperty it = false) ∧
      ∀ key ∈ W.ownKeys it, Safe (bindLoop k v (W.stringLiteral key) (W.property it key) ρ) b) ∧
    (W.ownKeys it = [] → Safe ρ e)

def SafeList (ρ : Text → Option V) : List AST → Prop
  | [] => True
  | s :: l => Safe ρ s ∧ SafeList ρ l

end

/-! ## Asking for own properties -/

section

variable {W}

theorem iterate_of_not_shadows {it : V} {out : Text → Option Text}
    (h : W.keys it ≠ [] → W.shadowsHasOwnProperty it = false) :
    W.iterate it out = ((W.ownKeys it).mapM out).map List.flatten := by
  have hkeys : ∀ keys : List Text, (keys ≠ [] → W.shadowsHasOwnProperty it = false) →
      (keys.mapM fun key => if W.shadowsHasOwnProperty it then none
        else if W.own it key then out key else some []).map List.flatten =
        ((keys.filter (W.own it)).mapM out).map List.flatten := by
    intro keys
    induction keys with
    | nil => simp
    | cons key keys ih =>
      intro h
      have hs := h (by simp)
      have ih := ih fun _ => hs
      simp only [hs, Bool.false_eq_true, if_false] at ih ⊢
      cases ho : W.own it key with
      | false =>
        rw [List.filter_cons_of_neg (by simp [ho]), ← ih, List.mapM_cons]
        cases keys.mapM fun key => if W.own it key = true then out key else some [] <;> simp [ho]
      | true =>
        rw [List.filter_cons_of_pos ho, List.mapM_cons, List.mapM_cons]
        cases hout : out key with
        | none => simp [ho]
        | some o =>
          simp only [ho, if_true, Option.bind_eq_bind, Option.bind_some]
          revert ih
          cases keys.mapM fun key => if W.own it key = true then out key else some [] <;>
            cases (keys.filter (W.own it)).mapM out <;> simp
  exact hkeys _ h

theorem iterate_of_shadows {it : V} {out : Text → Option Text} (hne : W.keys it ≠ [])
    (h : W.shadowsHasOwnProperty it = true) : W.iterate it out = none := by
  cases hk : W.keys it with
  | nil => exact absurd hk hne
  | cons key keys => simp [iterate, hk, h, List.mapM_cons]

theorem mapM_eq_none {α β : Type} {f : α → Option β} {l : List α} {a : α} (ha : a ∈ l)
    (h : f a = none) : l.mapM f = none := by
  induction l with
  | nil => cases ha
  | cons b l ih =>
    rw [List.mapM_cons]
    rcases List.mem_cons.1 ha with rfl | ha
    · simp [h]
    · cases f b <;> simp [ih ha]

theorem iterate_congr {it : V} {out out' : Text → Option Text}
    (h : ∀ key ∈ W.ownKeys it, out key = out' key) : W.iterate it out = W.iterate it out' := by
  have hfun : ∀ key ∈ W.keys it, (if W.shadowsHasOwnProperty it then none
      else if W.own it key then out key else some []) = (if W.shadowsHasOwnProperty it then none
      else if W.own it key then out' key else some []) := by
    intro key hkey
    split_ifs with _ ho
    · rfl
    · exact h key (List.mem_filter.2 ⟨hkey, ho⟩)
    · rfl
  have hmap : ∀ (f g : Text → Option Text) (keys : List Text), (∀ key ∈ keys, f key = g key) →
      keys.mapM f = keys.mapM g := by
    intro f g keys
    induction keys with
    | nil => simp
    | cons key keys ih =>
      intro h
      rw [List.mapM_cons, List.mapM_cons, h key List.mem_cons_self,
        ih fun key hk => h key (List.mem_cons_of_mem _ hk)]
  rw [iterate, iterate, hmap _ _ _ hfun]

variable (W) in
/-- A loop whose bodies are as in the reference rendering where they are safe, and throw where
they are not. -/
theorem iterate_eq (it : V) {own render : Text → Option Text} {S : Text → Prop}
    (hsafe : ∀ key, S key → own key = render key) (hother : ∀ key, ¬S key → own key = none) :
    (((W.keys it ≠ [] → W.shadowsHasOwnProperty it = false) ∧ ∀ key ∈ W.ownKeys it, S key) →
      W.iterate it own = ((W.ownKeys it).mapM render).map List.flatten) ∧
    (¬((W.keys it ≠ [] → W.shadowsHasOwnProperty it = false) ∧ ∀ key ∈ W.ownKeys it, S key) →
      W.iterate it own = none) := by
  refine ⟨fun h => ?_, fun h => ?_⟩
  · rw [iterate_congr fun key hkey => hsafe key (h.2 key hkey), iterate_of_not_shadows h.1]
  · by_cases hs : W.keys it ≠ [] → W.shadowsHasOwnProperty it = false
    · rw [not_and] at h
      obtain ⟨key, hkey, hS⟩ := by simpa only [not_forall, exists_prop] using h hs
      rw [iterate_of_not_shadows hs, mapM_eq_none hkey (hother key hS), Option.map_none]
    · obtain ⟨hne, hs⟩ := Classical.not_imp.1 hs
      exact iterate_of_shadows hne (by simpa using hs)

/-- The generated loops render a tree as it should be where that is safe, and throw where it
is not. -/
theorem renderOwn_eq (undefinedCheck : Bool) (a : AST) : ∀ ρ : Text → Option V,
    (W.Safe ρ a → W.renderOwn undefinedCheck ρ a = W.render undefinedCheck ρ a) ∧
      (¬W.Safe ρ a → W.renderOwn undefinedCheck ρ a = none) := by
  induction a with
  | statements l ih =>
    intro ρ
    simp only [Safe, renderOwn, render]
    induction l with
    | nil => exact ⟨fun _ => rfl, fun h => absurd trivial h⟩
    | cons s l ihl =>
      obtain ⟨hs, hs'⟩ := ih s List.mem_cons_self ρ
      obtain ⟨hl, hl'⟩ := ihl fun s h => ih s (List.mem_cons_of_mem _ h)
      simp only [SafeList, renderOwnList, renderList]
      refine ⟨fun h => ?_, fun h => ?_⟩
      · rw [hs h.1, hl h.2]
        cases W.render undefinedCheck ρ s <;> cases W.renderList undefinedCheck ρ l <;> rfl
      · by_cases h₁ : W.Safe ρ s
        · rw [hl' fun h₂ => h ⟨h₁, h₂⟩]
          cases W.renderOwn undefinedCheck ρ s <;> rfl
        · rw [hs' h₁]
          rfl
  | rawBlock t => exact fun ρ => ⟨fun _ => rfl, fun h => absurd trivial h⟩
  | includeBlock name scope M => exact fun ρ => ⟨fun _ => rfl, fun h => absurd trivial h⟩
  | printBlock e => exact fun ρ => ⟨fun _ => rfl, fun h => absurd trivial h⟩
  | ifBlock c t e iht ihe =>
    intro ρ
    obtain ⟨ht, ht'⟩ := iht ρ
    cases e with
    | none =>
      simp only [Safe, renderOwn, render]
      cases hc : W.eval ρ c with
      | none => exact ⟨fun _ => rfl, fun h => absurd (by rintro _ ⟨⟩) h⟩
      | some b =>
        simp only [Option.some.injEq, forall_eq', Option.bind_eq_bind, Option.bind_some]
        cases hb : W.isTrue b with
        | true => simpa using ⟨ht, ht'⟩
        | false => simp
    | some e =>
      obtain ⟨he, he'⟩ := ihe e rfl ρ
      simp only [Safe, renderOwn, render]
      cases hc : W.eval ρ c with
      | none => exact ⟨fun _ => rfl, fun h => absurd (by rintro _ ⟨⟩) h⟩
      | some b =>
        simp only [Option.some.injEq, forall_eq', Option.bind_eq_bind, Option.bind_some]
        cases hb : W.isTrue b with
        | true => simpa using ⟨ht, ht'⟩
        | false => simpa using ⟨he, he'⟩
  | forBlock k v i b e ihb ihe =>
    intro ρ
    have hloop := fun it => iterate_eq W it
      (fun key => (ihb (bindLoop k v (W.stringLiteral key) (W.property it key) ρ)).1)
      (fun key => (ihb (bindLoop k v (W.stringLiteral key) (W.property it key) ρ)).2)
    cases e with
    | none =>
      simp only [Safe, renderOwn, render]
      cases hi : W.eval ρ i with
      | none => exact ⟨fun _ => rfl, fun h => absurd (by rintro _ ⟨⟩) h⟩
      | some it =>
        simp only [Option.some.injEq, forall_eq', Option.bind_eq_bind, Option.bind_some]
        refine ⟨fun h => ?_, fun h => (hloop it).2 h⟩
        rw [(hloop it).1 h, Option.map_eq_bind]
        rfl
    | some e =>
      obtain ⟨he, he'⟩ := ihe e rfl ρ
      simp only [Safe, renderOwn, render]
      cases hi : W.eval ρ i with
      | none => exact ⟨fun _ => rfl, fun h => absurd (by rintro _ ⟨⟩) h⟩
      | some it =>
        simp only [Option.some.injEq, forall_eq', Option.bind_eq_bind, Option.bind_some]
        refine ⟨fun h => ?_, fun h => ?_⟩
        · rw [(hloop it).1 h.1]
          by_cases hk : W.ownKeys it = []
          · simp [hk, he (h.2 hk)]
          · simp only [if_neg hk, Option.map_some, List.append_nil]
            rw [Option.bind_fun_some, Option.map_eq_bind]
            rfl
        · by_cases hs : (W.keys it ≠ [] → W.shadowsHasOwnProperty it = false) ∧
              ∀ key ∈ W.ownKeys it,
                Safe W (bindLoop k v (W.stringLiteral key) (W.property it key) ρ) b
          · obtain ⟨hk, hne⟩ := Classical.not_imp.1 fun h' => h ⟨hs, h'⟩
            rw [if_pos hk, he' hne]
            cases W.iterate it _ <;> rfl
          · rw [(hloop it).2 hs]
            rfl

end

end World

/-! ## The generated statements -/

namespace JavascriptVisitor

open Ecma (Line Stmt Reads Runs Ends)

variable {V : Type} (W : World V) (ρ : Text → Option V)

/-- The value of a variable as the visitor writes it. -/
def jsValue (σ : Text → V) : JsVar → Option V
  | .data x => ρ x
  | .identifier name => some (σ name)

/-- The generated expressions in the target language. -/
def semantics : Ecma.Semantics JsExpression V where
  eval σ
    | .value e => W.eval (jsValue ρ σ) e
    | .orEmpty e => (W.eval (jsValue ρ σ) e).map fun v =>
      if W.isTrue v then v else W.stringLiteral []
    | .text t => some (W.stringLiteral t)
    | .boolean b => some (W.booleanLiteral b)
    | .identifier name => some (σ name)
    | .notOwn object key =>
      if W.shadowsHasOwnProperty (σ object) then none
      else (W.text (σ key)).map fun key => W.booleanLiteral (!W.own (σ object) key)
    | .element object key => (W.text (σ key)).map fun key => W.property (σ object) key
  text := W.text
  isTrue := W.isTrue
  keys := W.keys
  ofKey := W.stringLiteral

variable {W} {ρ}

/-- Only identifiers of loops numbered above `n` have changed. -/
def Frame (n : Nat) (σ σ' : Text → V) : Prop :=
  ∀ x, (∀ i, n < i → x ∉ loopIds i) → σ' x = σ x

theorem Frame.refl (n : Nat) (σ : Text → V) : Frame n σ σ := fun _ _ => rfl

theorem Frame.trans {n m : Nat} {σ σ' σ'' : Text → V} (h : Frame n σ σ') (hnm : n ≤ m)
    (h' : Frame m σ' σ'') : Frame n σ σ'' := fun x hx =>
  (h' x fun i hi => hx i (hnm.trans_lt hi)).trans (h x hx)

theorem Frame.update {n : Nat} {σ σ' : Text → V} {x : Text} (h : Frame n σ σ')
    (hx : x ∈ loopIds (n + 1)) (v : V) : Frame n σ (Function.update σ' x v) := by
  intro y hy
  have hne : y ≠ x := by
    rintro rfl
    exact hy (n + 1) (by omega) hx
  rw [Function.update_of_ne hne]
  exact h y hy

theorem Frame.eq {n i : Nat} {σ σ' : Text → V} {x : Text} (h : Frame n σ σ') (hi : i ≤ n)
    (hx : x ∈ loopIds i) : σ' x = σ x :=
  h x fun j hj hxj => by
    have := eq_of_mem_loopIds hx hxj
    omega

theorem counter_le (a : AST) : ∀ n, n ≤ counter n a := by
  induction a with
  | statements l ih =>
    intro n
    rw [counter]
    induction l generalizing n with
    | nil => exact le_rfl
    | cons s l ihl =>
      exact (ih s List.mem_cons_self n).trans
        (ihl (fun s hs => ih s (List.mem_cons_of_mem _ hs)) _)
  | rawBlock _ | printBlock _ | includeBlock _ _ _ => exact fun n => le_rfl
  | ifBlock c t e iht ihe =>
    intro n
    cases e with
    | none => exact iht n
    | some e => exact (iht n).trans (ihe e rfl _)
  | forBlock k v i b e ihb ihe =>
    intro n
    cases e with
    | none => exact (Nat.le_succ n).trans (ihb _)
    | some e => exact ((Nat.le_succ n).trans (ihb _)).trans (ihe e rfl _)

/-- The shadow map and the variables of the function stand for the loop variables of `ρ'`. -/
structure Represents (ρ : Text → Option V) (n : Nat) (shadowValues : Text → Option Text)
    (σ : Text → V) (ρ' : Text → Option V) : Prop where
  value : ∀ x, ρ' x = match shadowValues x with
    | some id => some (σ id)
    | none => ρ x
  loop : ∀ x id, shadowValues x = some id → ∃ i ≤ n, id ∈ loopIds i

theorem Represents.frame {n m : Nat} {shadowValues : Text → Option Text} {σ σ' : Text → V}
    {ρ' : Text → Option V} (h : Represents ρ n shadowValues σ ρ') (hσ : Frame n σ σ')
    (hnm : n ≤ m) : Represents ρ m shadowValues σ' ρ' := by
  refine ⟨fun x => ?_, fun x id hx => ?_⟩
  · rw [h.value x]
    cases hx : shadowValues x with
    | none => rfl
    | some id =>
      obtain ⟨i, hi, hid⟩ := h.loop x id hx
      simp only [hσ.eq hi hid]
  · obtain ⟨i, hi, hid⟩ := h.loop x id hx
    exact ⟨i, hi.trans hnm, hid⟩

theorem Represents.bindLoop {n : Nat} {shadowValues : Text → Option Text} {σ : Text → V}
    {ρ' : Text → Option V} {k v : Option Text} {key value : V}
    (h : Represents ρ n shadowValues σ ρ') (hkey : σ (keyId (n + 1)) = key)
    (hvalue : v.isSome = true → σ (valueId (n + 1)) = value) :
    Represents ρ (n + 1) (bindShadow (n + 1) k v shadowValues) σ
      (World.bindLoop k v key value ρ') := by
  have hset : ∀ (x : Option Text) (id : Text) (m : Text → Option Text) (y : Text),
      setShadow x id m y = if x = some y then some id else m y := by
    intro x id m y
    cases x with
    | none => simp [setShadow]
    | some x => simp [setShadow, Function.update_apply, eq_comm]
  refine ⟨fun x => ?_, fun x id hx => ?_⟩
  · simp only [World.bindLoop, bindShadow, hset]
    by_cases hv : v = some x
    · simp [hv, hvalue (by simp [hv])]
    · by_cases hk : k = some x
      · simp [hv, hk, hkey]
      · simp [hv, hk, h.value x]
  · simp only [bindShadow, hset] at hx
    split_ifs at hx
    · cases hx
      exact ⟨n + 1, le_rfl, by simp [loopIds]⟩
    · cases hx
      exact ⟨n + 1, le_rfl, by simp [loopIds]⟩
    · obtain ⟨i, hi, hid⟩ := h.loop x id hx
      exact ⟨i, hi.trans (Nat.le_succ n), hid⟩

/-- An expression as it is written has the value it has in the template. -/
theorem eval_expression {n m : Nat} {shadowValues : Text → Option Text} {σ : Text → V}
    {ρ' : Text → Option V} (h : Represents ρ n shadowValues σ ρ') (e : Expression) :
    W.eval (jsValue ρ σ) (Members.expression ⟨m, shadowValues⟩ e) = W.eval ρ' e := by
  rw [Members.expression, Expr.map_eq_bind, World.eval_bind]
  congr 1
  funext x
  rw [h.value x]
  simp only [World.eval]
  cases shadowValues x <;> rfl

/-- What holds in a loop over `it` numbered `n + 1` after the keys `done`. -/
structure LoopInvariant (W : World V) (n : Nat) (σ₀ : Text → V) (it : V) (has_else_body : Bool)
    (done : List Text) (σ : Text → V) : Prop where
  frame : Frame n σ₀ σ
  iterable : σ (iterableId (n + 1)) = it
  isEmpty : has_else_body = true →
    σ (isEmptyId (n + 1)) = W.booleanLiteral (done.filter (W.own it)).isEmpty

/-- One iteration: the key is asked for, the value is read, and the body runs. -/
theorem ends_loopBody {n : Nat} {σ₀ : Text → V} {it : V} {has_else_body : Bool}
    {v : Option Text} {body : List (Stmt JsExpression)} {out : Text → Option Text}
    (hbody : ∀ key σ buffer, W.own it key = true → Frame n σ₀ σ →
      σ (keyId (n + 1)) = W.stringLiteral key →
      (v.isSome = true → σ (valueId (n + 1)) = W.property it key) →
        Runs (semantics W ρ) body ⟨σ, buffer⟩ (out key) (Frame (n + 1) σ))
    (done : List Text) (key : Text) (σ : Text → V) (buffer : List Char)
    (h : LoopInvariant W n σ₀ it has_else_body done σ) :
    Ends (semantics W ρ) (loopBody (n + 1) v has_else_body body)
      ⟨Function.update σ (keyId (n + 1)) ((semantics W ρ).ofKey key), buffer⟩
      (if W.shadowsHasOwnProperty it then none
        else if W.own it key then out key else some [])
      fun _ => LoopInvariant W n σ₀ it has_else_body (done ++ [key]) := by
  have hik : iterableId (n + 1) ≠ keyId (n + 1) :=
    ne_of_second (iterableId_second _) (keyId_second _) (by decide)
  have hiv : iterableId (n + 1) ≠ valueId (n + 1) :=
    ne_of_second (iterableId_second _) (valueId_second _) (by decide)
  have hie : iterableId (n + 1) ≠ isEmptyId (n + 1) :=
    ne_of_second (iterableId_second _) (isEmptyId_second _) (by decide)
  have hek : isEmptyId (n + 1) ≠ keyId (n + 1) :=
    ne_of_second (isEmptyId_second _) (keyId_second _) (by decide)
  have hkv : keyId (n + 1) ≠ valueId (n + 1) :=
    ne_of_second (keyId_second _) (valueId_second _) (by decide)
  have hof : (semantics W ρ).ofKey key = W.stringLiteral key := rfl
  rw [hof, loopBody]
  generalize hσ₁ : Function.update σ (keyId (n + 1)) (W.stringLiteral key) = σ₁
  have hf₁ : Frame n σ₀ σ₁ := hσ₁ ▸ h.frame.update (by simp [loopIds]) _
  have hi₁ : σ₁ (iterableId (n + 1)) = it := by
    rw [← hσ₁, Function.update_of_ne hik, h.iterable]
  have hk₁ : σ₁ (keyId (n + 1)) = W.stringLiteral key := by rw [← hσ₁, Function.update_self]
  have he₁ : σ₁ (isEmptyId (n + 1)) = σ (isEmptyId (n + 1)) := by
    rw [← hσ₁, Function.update_of_ne hek]
  cases hs : W.shadowsHasOwnProperty it with
  | true => exact Ends.continueIf_none (by simp [semantics, hi₁, hs])
  | false =>
    have hguard : (semantics W ρ).eval σ₁ (.notOwn (iterableId (n + 1)) (keyId (n + 1))) =
        some (W.booleanLiteral (!W.own it key)) := by
      simp [semantics, hi₁, hs, hk₁, W.text_stringLiteral]
    simp only [Bool.false_eq_true, if_false]
    refine Ends.continueIf hguard (fun hb => ?_) (fun hb => ?_)
    · have ho : W.own it key = false := by
        simpa [semantics, W.isTrue_booleanLiteral] using hb
      refine ⟨by simp [ho], hf₁, hi₁, fun hflag => ?_⟩
      change σ₁ _ = _
      rw [he₁, h.isEmpty hflag]
      simp [ho]
    · have ho : W.own it key = true := by
        simpa [semantics, W.isTrue_booleanLiteral] using hb
      rw [if_pos ho]
      -- the value variable
      have hvalue : Runs (semantics W ρ)
          (if v.isSome then [.assign (valueId (n + 1))
            (.element (iterableId (n + 1)) (keyId (n + 1)))] else []) ⟨σ₁, buffer⟩ (some [])
          fun σ₂ => Frame n σ₀ σ₂ ∧ σ₂ (iterableId (n + 1)) = it ∧
            σ₂ (keyId (n + 1)) = W.stringLiteral key ∧
            (v.isSome = true → σ₂ (valueId (n + 1)) = W.property it key) := by
        cases v with
        | none => exact Runs.nil ⟨hf₁, hi₁, hk₁, by rintro ⟨⟩⟩
        | some x =>
          refine Runs.assign (v := W.property it key)
            (by simp [semantics, hi₁, hk₁, W.text_stringLiteral]) ⟨?_, ?_, ?_, fun _ => ?_⟩
          · exact hf₁.update (by simp [loopIds]) _
          · exact (Function.update_of_ne hiv _ _).trans hi₁
          · exact (Function.update_of_ne hkv _ _).trans hk₁
          · exact Function.update_self _ _ _
      rw [List.append_assoc]
      refine hvalue.before ?_
      rintro σ₂ buffer₂ ⟨hf₂, hi₂, hk₂, hv₂⟩
      refine (hbody key σ₂ buffer₂ ho hf₂ hk₂ hv₂).after fun σ₃ buffer₃ hf₃ => ?_
      have hframe : Frame n σ₀ σ₃ := hf₂.trans (Nat.le_succ n) hf₃
      have hi₃ : σ₃ (iterableId (n + 1)) = it := by
        rw [hf₃.eq le_rfl (by simp [loopIds]), hi₂]
      -- the emptiness flag
      cases has_else_body with
      | false => exact Runs.nil ⟨hframe, hi₃, by rintro ⟨⟩⟩
      | true =>
        refine Runs.assign (v := W.booleanLiteral false) rfl ⟨?_, ?_, fun _ => ?_⟩
        · exact hframe.update (by simp [loopIds]) _
        · exact (Function.update_of_ne hie _ _).trans hi₃
        · have hne : ((done ++ [key]).filter (W.own it)).isEmpty = false := by simp [ho]
          rw [hne]
          exact Function.update_self _ _ _

/-- A generated loop, from a state in which its iterable and its flag are set. -/
theorem runs_loop {n : Nat} {σ₀ σ : Text → V} {buffer : List Char} {it : V}
    {has_else_body : Bool} {v : Option Text} {body : List (Stmt JsExpression)}
    {out : Text → Option Text}
    (hbody : ∀ key σ buffer, W.own it key = true → Frame n σ₀ σ →
      σ (keyId (n + 1)) = W.stringLiteral key →
      (v.isSome = true → σ (valueId (n + 1)) = W.property it key) →
        Runs (semantics W ρ) body ⟨σ, buffer⟩ (out key) (Frame (n + 1) σ))
    (h : LoopInvariant W n σ₀ it has_else_body [] σ) :
    Runs (semantics W ρ) [.forIn (keyId (n + 1)) (iterableId (n + 1))
        (loopBody (n + 1) v has_else_body body)] ⟨σ, buffer⟩ (W.iterate it out)
      (LoopInvariant W n σ₀ it has_else_body (W.keys it)) := by
  have hrun : Runs (semantics W ρ) [.forIn (keyId (n + 1)) (iterableId (n + 1))
      (loopBody (n + 1) v has_else_body body)] ⟨σ, buffer⟩ _ _ :=
    Runs.forIn (ends_loopBody (ρ := ρ) (v := v) hbody) h
  simp only [h.iterable] at hrun
  exact hrun

theorem value_expression {n m : Nat} {shadowValues : Text → Option Text} {σ : Text → V}
    {ρ' : Text → Option V} (h : Represents ρ n shadowValues σ ρ') (e : Expression) :
    (semantics W ρ).eval σ (.value (Members.expression ⟨m, shadowValues⟩ e)) = W.eval ρ' e :=
  eval_expression h e

theorem runs_ifElse {n : Nat} {shadowValues : Text → Option Text} {σ : Text → V}
    {buffer : List Char} {ρ' : Text → Option V} (hρ : Represents ρ n shadowValues σ ρ')
    (c : Expression) {t e : List (Stmt JsExpression)} {out₁ out₂ : Option Text}
    (ht : Runs (semantics W ρ) t ⟨σ, buffer⟩ out₁ (Frame n σ))
    (he : Runs (semantics W ρ) e ⟨σ, buffer⟩ out₂ (Frame n σ)) :
    Runs (semantics W ρ)
      [.ifElse (.value (Members.expression ⟨n, shadowValues⟩ c)) t e] ⟨σ, buffer⟩
      ((W.eval ρ' c).bind fun b => if W.isTrue b then out₁ else out₂) (Frame n σ) := by
  have := Runs.ifElse (c := .value (Members.expression ⟨n, shadowValues⟩ c)) ht he
  rwa [value_expression hρ] at this

/-- The iterable and the flag before a loop. -/
theorem runs_forHeader {n : Nat} {σ : Text → V} {buffer : List Char} {it : V}
    {iterable : Expr JsVar} (has_else_body : Bool)
    (hi : W.eval (jsValue ρ σ) iterable = some it) :
    Runs (semantics W ρ) (.assign (iterableId (n + 1)) (.value iterable) ::
        if has_else_body then [.assign (isEmptyId (n + 1)) (.boolean true)] else [])
      ⟨σ, buffer⟩ (some []) (LoopInvariant W n σ it has_else_body []) := by
  have hie : iterableId (n + 1) ≠ isEmptyId (n + 1) :=
    ne_of_second (iterableId_second _) (isEmptyId_second _) (by decide)
  have hassign : Runs (semantics W ρ) [.assign (iterableId (n + 1)) (.value iterable)]
      ⟨σ, buffer⟩ (some []) (LoopInvariant W n σ it false []) :=
    Runs.assign hi ⟨(Frame.refl n σ).update (by simp [loopIds]) _,
      Function.update_self _ _ _, nofun⟩
  cases has_else_body with
  | false => exact hassign
  | true =>
    refine hassign.before (m := [_]) fun σ₁ buffer₁ h₁ => ?_
    exact Runs.assign rfl ⟨h₁.frame.update (by simp [loopIds]) _,
      (Function.update_of_ne hie _ _).trans h₁.iterable, fun _ => Function.update_self _ _ _⟩

/-- The statements of a tree add its rendering to the output. -/
theorem runs_compile (undefinedCheck : Bool) (a : AST) (h : a.IncludeFree) :
    ∀ (n : Nat) (shadowValues : Text → Option Text) (σ : Text → V) (buffer : List Char)
      (ρ' : Text → Option V), Represents ρ n shadowValues σ ρ' →
        Runs (semantics W ρ) (compile undefinedCheck n shadowValues a) ⟨σ, buffer⟩
          (W.renderOwn undefinedCheck ρ' a) (Frame n σ) := by
  induction a with
  | statements l ih =>
    intro n shadowValues σ buffer ρ' hρ
    simp only [compile, World.renderOwn]
    induction l generalizing n σ buffer with
    | nil => exact Runs.nil (Frame.refl n σ)
    | cons s l ihl =>
      have hs := ih s List.mem_cons_self (AST.includeFree_of_mem h List.mem_cons_self)
        n shadowValues σ buffer ρ' hρ
      simp only [compileList, World.renderOwnList]
      refine hs.append fun σ₁ buffer₁ hσ₁ => ?_
      have hl := ihl (fun s hs => ih s (List.mem_cons_of_mem _ hs)) h.2 (counter n s) σ₁ buffer₁
        (hρ.frame hσ₁ (counter_le s n))
      exact hl.mono fun σ₂ hσ₂ => hσ₁.trans (counter_le s n) hσ₂
  | rawBlock t =>
    intro n shadowValues σ buffer ρ' _
    have := Runs.appendStmt (D := semantics W ρ) (e := .text t) (s := ⟨σ, buffer⟩)
      (P := Frame n σ) (Frame.refl n σ)
    simpa [semantics, W.text_stringLiteral, World.renderOwn, compile] using this
  | printBlock e =>
    intro n shadowValues σ buffer ρ' hρ
    have hprint : ∀ x : JsExpression, Runs (semantics W ρ) [.append x] ⟨σ, buffer⟩
        (((semantics W ρ).eval σ x).bind W.text) (Frame n σ) :=
      fun x => Runs.appendStmt (Frame.refl n σ)
    simp only [compile, World.renderOwn]
    cases undefinedCheck with
    | false =>
      have := hprint (.value (Members.expression ⟨n, shadowValues⟩ e))
      rwa [value_expression hρ] at this
    | true =>
      have hout : ((semantics W ρ).eval σ
          (.orEmpty (Members.expression ⟨n, shadowValues⟩ e))).bind W.text =
          (W.eval ρ' e).bind (W.printed true) := by
        simp only [semantics, eval_expression hρ, Option.bind_map]
        congr 1
        funext x
        cases hx : W.isTrue x <;> simp [World.printed, hx]
      rw [← hout]
      exact hprint _
  | includeBlock name scope M => cases h
  | ifBlock c t e iht ihe =>
    intro n shadowValues σ buffer ρ' hρ
    cases e with
    | none => exact runs_ifElse hρ c (iht h n shadowValues σ buffer ρ' hρ) (Runs.nil (Frame.refl n σ))
    | some e =>
      have he := ihe e rfl h.2 (counter n t) shadowValues σ buffer ρ'
        (hρ.frame (Frame.refl n σ) (counter_le t n))
      exact runs_ifElse hρ c (iht h.1 n shadowValues σ buffer ρ' hρ)
        (he.mono fun σ₁ hσ₁ => (Frame.refl n σ).trans (counter_le t n) hσ₁)
  | forBlock k v i b e ihb ihe =>
    intro n shadowValues σ buffer ρ' hρ
    have hbfree : b.IncludeFree := by
      cases e with
      | none => exact h
      | some e => exact h.1
    have hvalue := eval_expression (W := W) (m := n + 1) hρ i
    have hbody : ∀ it key σ₁ buffer₁, W.own it key = true → Frame n σ σ₁ →
        σ₁ (keyId (n + 1)) = W.stringLiteral key →
        (v.isSome = true → σ₁ (valueId (n + 1)) = W.property it key) →
          Runs (semantics W ρ)
            (compile undefinedCheck (n + 1) (bindShadow (n + 1) k v shadowValues) b) ⟨σ₁, buffer₁⟩
            (W.renderOwn undefinedCheck
              (World.bindLoop k v (W.stringLiteral key) (W.property it key) ρ') b)
            (Frame (n + 1) σ₁) :=
      fun it key σ₁ buffer₁ _ hσ₁ hkey hval => ihb hbfree (n + 1) _ σ₁ buffer₁ _
        ((hρ.frame hσ₁ le_rfl).bindLoop hkey hval)
    cases e with
    | none =>
      simp only [compile, World.renderOwn]
      cases hi : W.eval ρ' i with
      | none => exact Ends.assign_none (hvalue.trans hi)
      | some it =>
        refine (runs_forHeader false (hvalue.trans hi)).before fun σ₁ buffer₁ h₁ => ?_
        exact (runs_loop (hbody it) h₁).mono fun σ₂ h₂ => h₂.frame
    | some e =>
      simp only [compile, World.renderOwn]
      cases hi : W.eval ρ' i with
      | none => exact Ends.assign_none (hvalue.trans hi)
      | some it =>
        refine (runs_forHeader true (hvalue.trans hi)).before fun σ₁ buffer₁ h₁ => ?_
        refine (runs_loop (hbody it) h₁).append (l := [_]) fun σ₂ buffer₂ h₂ => ?_
        have hle := (Nat.le_succ n).trans (counter_le b (n + 1))
        have he := ihe e rfl h.2 (counter (n + 1) b) shadowValues σ₂ buffer₂ ρ'
          (hρ.frame h₂.frame hle)
        have helse := Runs.ifElse (c := .identifier (isEmptyId (n + 1)))
          (he.mono fun σ₃ hσ₃ => h₂.frame.trans hle hσ₃) (Runs.nil h₂.frame)
        have hout : ((semantics W ρ).eval σ₂ (.identifier (isEmptyId (n + 1)))).bind
            (fun x => if (semantics W ρ).isTrue x then W.renderOwn undefinedCheck ρ' e
              else some []) =
            if W.ownKeys it = [] then W.renderOwn undefinedCheck ρ' e else some [] := by
          simp [semantics, h₂.isEmpty rfl, W.isTrue_booleanLiteral, World.ownKeys]
        rw [← hout]
        exact helse

/-! ## The whole function -/

/-- The lines between `var buffer = '';` and `return buffer;`. -/
def bodyLines : List FunctionLine → Option (List (Line JsExpression))
  | .openFunction :: .defaultData :: .declareBuffer :: lines => untilReturn lines
  | _ => none
where
  untilReturn : List FunctionLine → Option (List (Line JsExpression))
    | [.returnBuffer, .closeFunction] => some []
    | .statement l :: lines => (untilReturn lines).map (l :: ·)
    | _ => none

theorem untilReturn_append (lines : List (Line JsExpression)) (rest : List FunctionLine) :
    bodyLines.untilReturn (lines.map .statement ++ rest) =
      (bodyLines.untilReturn rest).map (lines ++ ·) := by
  induction lines with
  | nil => simp
  | cons l lines ih =>
    rw [List.map_cons, List.cons_append, bodyLines.untilReturn, ih, Option.map_map]
    rfl

/-- What the function returns for data with the properties `ρ`, if it does not throw; `σ` is
what its variables hold before the first assignment. -/
def run (W : World V) (ρ : Text → Option V) (σ : Text → V) (lines : List FunctionLine) :
    Option Text := do
  let stmts ← Ecma.parse (← bodyLines lines)
  let r ← Ecma.execList (semantics W ρ) stmts ⟨σ, []⟩
  return r.1.buffer

/-- The function written for a template does what the template says. -/
def Implements (undefinedCheck : Bool) (W : World V) (ρ : Text → Option V) (a : AST) : Prop :=
  ∃ lines body, visit undefinedCheck a = .ok lines ∧ bodyLines lines = some body ∧
    Ecma.BracesBalance body ∧ (declared body).Nodup ∧
      ∀ σ, run W ρ σ lines = W.render undefinedCheck ρ a

/-- The lines of the function written for a template read as the statements of its translation. -/
theorem visit_compile (undefinedCheck : Bool) {a : AST} (h : a.IncludeFree) :
    ∃ lines body, visit undefinedCheck a = .ok lines ∧ bodyLines lines = some body ∧
      Ecma.parse body = some (compile undefinedCheck 0 (fun _ => none) a) ∧
        (declared body).Nodup := by
  obtain ⟨lines, hnode, hreads, hfresh⟩ :=
    (node_compile undefinedCheck a h 0 (fun _ => none) nofun).1
  have hvisit : visit undefinedCheck a = .ok (printHeader ++ lines.map .statement ++ printFooter) := by
    simp only [visit, hnode]
    rfl
  have hbody : bodyLines (printHeader ++ lines.map .statement ++ printFooter) =
      some ([.blank] ++ lines ++ [.blank]) := by
    have := untilReturn_append ([.blank] ++ lines ++ [.blank]) [.returnBuffer, .closeFunction]
    simpa [printHeader, printFooter, bodyLines, bodyLines.untilReturn] using this
  have hreads : Reads ([.blank] ++ lines ++ [.blank])
      (compile undefinedCheck 0 (fun _ => none) a) := by
    simpa using (Reads.blank.append hreads).append Reads.blank
  refine ⟨_, _, hvisit, hbody, hreads.parse, ?_⟩
  have hblank : declared [(.blank : Line JsExpression)] = [] := rfl
  simpa only [declared_append, hblank, List.nil_append, List.append_nil] using hfresh.nodup

/-- The function written for a template is well formed and computes `renderOwn`. -/
theorem visit_renderOwn (undefinedCheck : Bool) (W : World V) (ρ : Text → Option V) {a : AST}
    (h : a.IncludeFree) : ∃ lines body, visit undefinedCheck a = .ok lines ∧
      bodyLines lines = some body ∧ Ecma.BracesBalance body ∧ (declared body).Nodup ∧
        ∀ σ, run W ρ σ lines = W.renderOwn undefinedCheck ρ a := by
  obtain ⟨lines, body, hvisit, hbody, hparse, hnodup⟩ := visit_compile undefinedCheck h
  refine ⟨lines, body, hvisit, hbody, Ecma.bracesBalance_of_parse hparse, hnodup, fun σ => ?_⟩
  have hruns := runs_compile (W := W) (ρ := ρ) undefinedCheck a h 0 (fun _ => none) σ [] ρ
    ⟨fun _ => rfl, nofun⟩
  simp only [run, hbody, hparse, Option.bind_eq_bind, Option.bind_some]
  cases hr : W.renderOwn undefinedCheck ρ a with
  | none =>
    rw [hr] at hruns
    rw [show Ecma.execList _ _ _ = none from hruns]
    rfl
  | some out =>
    rw [hr] at hruns
    obtain ⟨σ', c, hexec, -⟩ := hruns
    rw [hexec]
    rfl

/-- The generated function implements a template exactly when the template throws or no loop
that is reached asks an iterable that has a property `hasOwnProperty`. -/
theorem implements_iff (undefinedCheck : Bool) (W : World V) (ρ : Text → Option V) (a : AST)
    (h : a.IncludeFree) :
    Implements undefinedCheck W ρ a ↔ W.render undefinedCheck ρ a = none ∨ W.Safe ρ a := by
  obtain ⟨lines, body, hvisit, hbody, hbraces, hnodup, hrun⟩ := visit_renderOwn undefinedCheck W ρ h
  obtain ⟨hsafe, hother⟩ := W.renderOwn_eq undefinedCheck a ρ
  constructor
  · rintro ⟨lines', body', hvisit', -, -, -, hrun'⟩
    obtain rfl : lines = lines' := Except.ok.inj (hvisit.symm.trans hvisit')
    refine or_iff_not_imp_right.2 fun hnot => ?_
    rw [← hrun' fun _ => W.booleanLiteral true, hrun, hother hnot]
  · intro hcases
    refine ⟨lines, body, hvisit, hbody, hbraces, hnodup, fun σ => ?_⟩
    rw [hrun]
    by_cases hs : W.Safe ρ a
    · exact hsafe hs
    · rw [hother hs, hcases.resolve_right hs]

/-- Data as the example below reads it. -/
inductive Data where
  | undefined
  | boolean (b : Bool)
  | text (t : Text)
  | object (entries : List (Text × Data))

/-- The properties of an object. -/
def Data.entries : Data → List (Text × Data)
  | .object l => l
  | _ => []

/-- Numbers and operators are left out: a template that uses them has no output here. -/
def plainData : World Data where
  doubleLiteral _ := .undefined
  integerLiteral _ := .undefined
  booleanLiteral := .boolean
  stringLiteral := .text
  getAttribute d a := ((d.entries.find? (·.1 = a)).map Prod.snd).getD .undefined
  methodCall _ _ := none
  binaryOperation _ _ _ := none
  unaryOperation _ _ := none
  comparison _ _ _ := none
  isTrue
    | .undefined => false
    | .boolean b => b
    | .text t => t ≠ []
    | .object _ => true
  text
    | .undefined => some "undefined".toList
    | .boolean b => some (if b then "true" else "false").toList
    | .text t => some t
    | .object _ => some "[object Object]".toList
  keys d := d.entries.map Prod.fst
  own d key := d.entries.any (·.1 = key)
  property d key := ((d.entries.find? (·.1 = key)).map Prod.snd).getD .undefined
  shadowsHasOwnProperty d := d.entries.any (·.1 = "hasOwnProperty".toList)
  text_stringLiteral _ := rfl
  isTrue_booleanLiteral _ := rfl

/-- `{% for x in xs %}{{ x }}{% endfor %}`. -/
def printEach : AST :=
  .forBlock none (some "x".toList) (.variableReference "xs".toList)
    (.printBlock (.variableReference "x".toList)) none

/-- Data whose `xs` has one property. -/
def oneProperty (key : String) (value : String) : Text → Option Data :=
  fun x => if x = "xs".toList then some (.object [(key.toList, .text value.toList)]) else
    some .undefined

theorem implements_printEach : Implements false plainData (oneProperty "a" "b") printEach := by
  refine (implements_iff false plainData (oneProperty "a" "b") printEach trivial).2 (.inr ?_)
  intro it hit
  obtain rfl : it = .object [("a".toList, .text "b".toList)] := by
    simpa [World.eval, oneProperty] using hit.symm
  exact ⟨fun _ => by decide, fun key _ => trivial⟩

/-- The loop throws where the property is called `hasOwnProperty`; it should write `b`. -/
theorem not_implements_hasOwnProperty :
    ¬Implements false plainData (oneProperty "hasOwnProperty" "b") printEach := by
  rintro ⟨lines, body, hvisit, -, -, -, hrun⟩
  obtain rfl := Except.ok.inj hvisit
  have := hrun fun _ => .undefined
  exact absurd this (by decide)

end JavascriptVisitor

end B2
