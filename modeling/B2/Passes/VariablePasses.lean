import B2.Ast.Substitution
import B2.Passes.ResolveIncludes

/-!
# Variable passes

`ReplaceVariableReferencesPass` and `PrependScopePass` as simultaneous
substitutions. On a tree without null arguments the walker of such a pass
returns `Expr.bind`, which puts every insertion in its place at once and never
looks into one, or fails on one of the references (`substitute_cases`).
-/

namespace B2

namespace Expr

/-- What `g` gives for a variable, the variable itself where it fails. -/
def replacement (g : Text → Run Expression) (x : Text) : Expression :=
  match g x with
  | .ok e => e
  | .error _ => .variableReference x

theorem substituteArguments_cases {g : Text → Run Expression} : ∀ {es : List Expression},
    (∀ e ∈ es, (e.substitute g = .ok (e.bind (replacement g)) ∧
        ∀ x ∈ e.references, ∃ e', g x = .ok e') ∨
      ∃ err, e.substitute g = .error err ∧ ∃ x ∈ e.references, g x = .error err) →
    (substituteArguments g (es.map some) = .ok (bindArguments (replacement g) (es.map some)) ∧
        ∀ x ∈ argumentReferences (es.map some), ∃ e', g x = .ok e') ∨
      ∃ err, substituteArguments g (es.map some) = .error err ∧
        ∃ x ∈ argumentReferences (es.map some), g x = .error err
  | [], _ => .inl ⟨rfl, by simp [argumentReferences]⟩
  | e :: es, h => by
    simp only [List.map_cons, substituteArguments, bindArguments, argumentReferences,
      List.mem_append]
    rcases h e List.mem_cons_self with ⟨he, hx⟩ | ⟨err, he, x, hx, hg⟩
    · rw [he]
      rcases substituteArguments_cases fun e he => h e (List.mem_cons_of_mem _ he) with
        ⟨hes, hxs⟩ | ⟨err, hes, x, hx, hg⟩
      · rw [hes]
        exact .inl ⟨rfl, fun x h => h.elim (hx x) (hxs x)⟩
      · rw [hes]
        exact .inr ⟨err, rfl, x, .inr hx, hg⟩
    · rw [he]
      exact .inr ⟨err, rfl, x, .inl hx, hg⟩

/-- A substitution returns the simultaneous substitution or fails on one of the references. -/
theorem substitute_cases {g : Text → Run Expression} (e : Expression) (h : e.Proper) :
    (e.substitute g = .ok (e.bind (replacement g)) ∧ ∀ x ∈ e.references, ∃ e', g x = .ok e') ∨
      ∃ err, e.substitute g = .error err ∧ ∃ x ∈ e.references, g x = .error err := by
  induction e using Expr.ind with
  | variableReference x =>
    simp only [substitute, bind, replacement, references, List.mem_singleton, forall_eq,
      exists_eq_left]
    cases hx : g x with
    | ok e => exact .inl ⟨rfl, e, rfl⟩
    | error err => exact .inr ⟨err, rfl, rfl⟩
  | getAttribute v a ih =>
    rcases ih h with ⟨hv, hx⟩ | ⟨err, hv, hx⟩
    · exact .inl ⟨by rw [substitute, hv]; rfl, hx⟩
    · exact .inr ⟨err, by rw [substitute, hv]; rfl, hx⟩
  | methodCall m args ih =>
    obtain ⟨es, rfl, hes⟩ := properArguments_iff.1 h
    rcases substituteArguments_cases fun e he => ih e (List.mem_map_of_mem he) (hes e he) with
      ⟨hargs, hx⟩ | ⟨err, hargs, hx⟩
    · exact .inl ⟨by rw [substitute, hargs]; rfl, hx⟩
    · exact .inr ⟨err, by rw [substitute, hargs]; rfl, hx⟩
  | binaryOperation l r op ihl ihr | comparison l r op ihl ihr =>
    rcases ihl h.1 with ⟨hl, hxl⟩ | ⟨err, hl, x, hx, hg⟩
    · rcases ihr h.2 with ⟨hr, hxr⟩ | ⟨err, hr, x, hx, hg⟩
      · exact .inl ⟨by rw [substitute, hl, hr]; rfl,
          fun x hx => (List.mem_append.1 hx).elim (hxl x) (hxr x)⟩
      · exact .inr ⟨err, by rw [substitute, hl, hr]; rfl, x, List.mem_append_right _ hx, hg⟩
    · exact .inr ⟨err, by rw [substitute, hl]; rfl, x, List.mem_append_left _ hx, hg⟩
  | unaryOperation e op ih =>
    rcases ih h with ⟨he, hx⟩ | ⟨err, he, hx⟩
    · exact .inl ⟨by rw [substitute, he]; rfl, hx⟩
    · exact .inr ⟨err, by rw [substitute, he]; rfl, hx⟩
  | _ => exact .inl ⟨rfl, by simp [references]⟩

end Expr

/-- A tree without null arguments has a clone. -/
theorem Expr.clone_of_proper {ν : Type} (e : Expr ν) (h : e.Proper) :
    ∃ e', e.clone = .ok e' := by
  induction e with
  | methodCall m args ih =>
    obtain ⟨es, rfl, hes⟩ := properArguments_iff.1 h
    have hargs : ∀ l : List (Expr ν), (∀ e ∈ l, ∃ e', e.clone = .ok e') →
        ∃ l', cloneArguments (l.map some) = .ok l' := by
      intro l
      induction l with
      | nil => exact fun _ => ⟨[], rfl⟩
      | cons e l ihl =>
        intro hl
        obtain ⟨e', he⟩ := hl e List.mem_cons_self
        obtain ⟨l', hl'⟩ := ihl fun e he => hl e (List.mem_cons_of_mem _ he)
        exact ⟨some e' :: l', by simp only [List.map_cons, cloneArguments, he, hl']; rfl⟩
    obtain ⟨args', hargs'⟩ := hargs es fun e he => ih e (List.mem_map_of_mem he) (hes e he)
    exact ⟨_, by rw [clone, hargs']; rfl⟩
  | getAttribute v a ih =>
    obtain ⟨v', hv⟩ := ih h
    exact ⟨_, by rw [clone, hv]; rfl⟩
  | binaryOperation l r op ihl ihr | comparison l r op ihl ihr =>
    obtain ⟨l', hl⟩ := ihl h.1
    obtain ⟨r', hr⟩ := ihr h.2
    exact ⟨_, by rw [clone, hl, hr]; rfl⟩
  | unaryOperation e op ih =>
    obtain ⟨e', he⟩ := ih h
    exact ⟨_, by rw [clone, he]; rfl⟩
  | _ => exact ⟨_, rfl⟩

namespace IncludeContext

/-- From the height of `e` on, the passes put a clone in the place of every variable reference
of `e` at once. -/
structure ReplacesAtOnce (includeFilename : Text) (M : StringExpressionMap)
    (scope e : Expression) : Prop where
  clones : (∀ x r, M.find x = some r → ∃ c, r.clone = .ok c) ∧ ∃ s, scope.clone = .ok s
  replaced : ∀ σ : Text → Expression,
    (∀ x ∈ e.references, ∃ r, M.find x = some r ∧ r.clone = .ok (σ x)) →
      ∀ n, e.depth ≤ n →
        (replaceVariableReferencesPass includeFilename M).process n e = .ok (e.bind σ)
  missing : ∀ n, e.depth ≤ n →
    ((∃ x, (replaceVariableReferencesPass includeFilename M).process n e =
        .error (.missingVariableReference includeFilename x)) ↔
      ∃ x ∈ e.references, M.find x = none)
  prepended : ∀ s, scope.clone = .ok s → ∀ n, e.depth ≤ n →
    (prependScopePass scope).process n e = .ok (e.bind fun x => .getAttribute s x)

/-- What the replacing pass gives for a variable. -/
def mapped (includeFilename : Text) (M : StringExpressionMap) (x : Text) : Run Expression :=
  match M.find x with
  | none => .error (.missingVariableReference includeFilename x)
  | some replacement => replacement.clone

section

variable {includeFilename : Text} {M : StringExpressionMap} {e : Expression}
  (hM : ∀ x r, M.find x = some r → r.Proper)

include hM

/-- Nothing but a missing entry makes it fail. -/
theorem mapped_eq_error {x : Text} {err : Failure} (h : mapped includeFilename M x = .error err) :
    M.find x = none ∧ err = .missingVariableReference includeFilename x := by
  unfold mapped at h
  split at h
  · rename_i hfind
    cases h
    exact ⟨hfind, rfl⟩
  · rename_i r hfind
    obtain ⟨c, hc⟩ := r.clone_of_proper (hM x r hfind)
    cases hc.symm.trans h

omit hM in
theorem substitute_mapped (he : e.Proper) {σ : Text → Expression}
    (hσ : ∀ x ∈ e.references, ∃ r, M.find x = some r ∧ r.clone = .ok (σ x)) :
    e.substitute (mapped includeFilename M) = .ok (e.bind σ) := by
  have hmapped : ∀ x ∈ e.references, mapped includeFilename M x = .ok (σ x) := by
    intro x hx
    obtain ⟨r, hfind, hclone⟩ := hσ x hx
    simp only [mapped, hfind, hclone]
  rcases e.substitute_cases (g := mapped includeFilename M) he with ⟨h, -⟩ | ⟨err, -, x, hx, hg⟩
  · rw [h, Expr.bind_eq_bind_iff.2]
    intro x hx
    simp only [Expr.replacement, hmapped x hx]
  · cases (hmapped x hx).symm.trans hg

theorem substitute_mapped_missing (he : e.Proper) :
    (∃ x, e.substitute (mapped includeFilename M) =
        .error (.missingVariableReference includeFilename x)) ↔
      ∃ x ∈ e.references, M.find x = none := by
  rcases e.substitute_cases (g := mapped includeFilename M) he with
    ⟨h, hrefs⟩ | ⟨err, h, x, hx, hg⟩
  · refine iff_of_false ?_ ?_
    · rintro ⟨x, hx⟩
      cases h.symm.trans hx
    · rintro ⟨x, hx, hfind⟩
      obtain ⟨e', he'⟩ := hrefs x hx
      simp only [mapped, hfind, reduceCtorEq] at he'
  · obtain ⟨hfind, rfl⟩ := mapped_eq_error hM hg
    exact iff_of_true ⟨x, h⟩ ⟨x, hx, hfind⟩

end

theorem replacesAtOnce (includeFilename : Text) {M : StringExpressionMap} {scope e : Expression}
    (he : e.Proper) (hM : ∀ x r, M.find x = some r → r.Proper) (hscope : scope.Proper) :
    ReplacesAtOnce includeFilename M scope e where
  clones := ⟨fun x r hx => r.clone_of_proper (hM x r hx), scope.clone_of_proper hscope⟩
  replaced σ hσ n hn :=
    (ExpressionPass.process_eq_substitute _ e n hn).trans (substitute_mapped he hσ)
  missing n hn := by
    rw [← substitute_mapped_missing hM he]
    exact exists_congr fun x => by
      rw [← ExpressionPass.process_eq_substitute (mapped includeFilename M) e n hn]
      rfl
  prepended s hs n hn := by
    have hscoped : (fun x => do return .getAttribute (← scope.clone) x : Text → Run Expression) =
        fun x => .ok (.getAttribute s x) := by
      rw [hs]
      rfl
    rw [prependScopePass, ExpressionPass.process_eq_substitute _ e n hn, hscoped]
    rcases e.substitute_cases (g := fun x => .ok (.getAttribute s x)) he with
      ⟨h, -⟩ | ⟨err, -, x, -, hg⟩
    · exact h
    · cases hg

/-- `with x=y y=x`. -/
def swapped : StringExpressionMap :=
  (StringExpressionMap.empty.insert "x".toList (.variableReference "y".toList)).insert "y".toList
    (.variableReference "x".toList)

/-- `x - y.x`, its names swapped or put under `z`. -/
theorem replacesAtOnce_swapped :
    ReplacesAtOnce "f".toList swapped (.variableReference "z".toList)
      (.binaryOperation (.variableReference "x".toList)
        (.getAttribute (.variableReference "y".toList) "x".toList) .subtraction) := by
  refine replacesAtOnce _ ⟨trivial, trivial⟩ (fun x r h => ?_) trivial
  obtain ⟨p, hp, rfl⟩ := Option.map_eq_some_iff.1 h
  have hmem := List.mem_of_find?_eq_some hp
  have hentries : swapped.entries = [("x".toList, .variableReference "y".toList),
      ("y".toList, .variableReference "x".toList)] := rfl
  rw [hentries] at hmem
  rcases List.mem_pair.1 hmem with rfl | rfl <;> trivial

end IncludeContext

end B2
