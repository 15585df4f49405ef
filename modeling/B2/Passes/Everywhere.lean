import B2.Passes.ResolveIncludes

/-!
# Properties of the expressions of a tree

`AST.Everywhere P Q I` says `P` of the expressions of a tree, `Q` of what its
for blocks iterate over and `I` of its include blocks. The passes carry such a
property from their argument to their result.
-/

namespace B2

namespace AST

mutual

/-- `P` of every expression outside include blocks, `Q` of every iterable, `I` of every
include block. -/
def Everywhere (P Q : Expression → Prop)
    (I : Text → Option Expression → StringExpressionMap → Prop) : AST → Prop
  | .statements l => EverywhereList P Q I l
  | .rawBlock _ => True
  | .printBlock e => P e
  | .ifBlock c t none => P c ∧ t.Everywhere P Q I
  | .ifBlock c t (some e) => P c ∧ t.Everywhere P Q I ∧ e.Everywhere P Q I
  | .forBlock _ _ i b none => P i ∧ Q i ∧ b.Everywhere P Q I
  | .forBlock _ _ i b (some e) => P i ∧ Q i ∧ b.Everywhere P Q I ∧ e.Everywhere P Q I
  | .includeBlock name scope M => I name scope M

def EverywhereList (P Q : Expression → Prop)
    (I : Text → Option Expression → StringExpressionMap → Prop) : List AST → Prop
  | [] => True
  | s :: l => s.Everywhere P Q I ∧ EverywhereList P Q I l

end

/-- `P` and `Q` of the scope of an include block, `P` of the values of its mapping. -/
def OfArguments (P Q : Expression → Prop) (_name : Text) (scope : Option Expression)
    (M : StringExpressionMap) : Prop :=
  (∀ s, scope = some s → P s ∧ Q s) ∧ ∀ p ∈ M.entries, P p.2

/-- No method call outside include blocks has a null argument. -/
def Proper : AST → Prop := Everywhere Expr.Proper (fun _ => True) fun _ _ _ => True

/-! ## Lemmas on `Everywhere` -/

section

variable {P P' Q Q' : Expression → Prop}
  {I I' : Text → Option Expression → StringExpressionMap → Prop}

theorem everywhereList_iff {l : List AST} :
    EverywhereList P Q I l ↔ ∀ s ∈ l, s.Everywhere P Q I := by
  induction l with
  | nil => simp [EverywhereList]
  | cons s l ih => simp [EverywhereList, ih]

theorem everywhereList_append {l l' : List AST} :
    EverywhereList P Q I (l ++ l') ↔ EverywhereList P Q I l ∧ EverywhereList P Q I l' := by
  simp only [everywhereList_iff, List.mem_append, or_imp, forall_and]

theorem everywhere_fromStatementsArray {l : List AST} :
    (fromStatementsArray l).Everywhere P Q I ↔ EverywhereList P Q I l := by
  match l with
  | [] => rfl
  | [s] => simp [fromStatementsArray, EverywhereList]
  | s :: s' :: l => rfl

theorem everywhere_asStatements {a : AST} :
    EverywhereList P Q I a.asStatements ↔ a.Everywhere P Q I := by
  cases a <;> simp [asStatements, EverywhereList, Everywhere]

theorem Everywhere.mono (hP : ∀ e, P e → P' e) (hQ : ∀ e, Q e → Q' e)
    (hI : ∀ name scope M, I name scope M → I' name scope M) (a : AST) :
    a.Everywhere P Q I → a.Everywhere P' Q' I' := by
  induction a with
  | statements l ih =>
    simp only [Everywhere, everywhereList_iff]
    exact fun h s hs => ih s hs (h s hs)
  | rawBlock _ => exact id
  | printBlock e => exact hP e
  | includeBlock name scope M => exact hI name scope M
  | ifBlock c t e iht ihe =>
    cases e with
    | none => exact fun h => ⟨hP c h.1, iht h.2⟩
    | some e => exact fun h => ⟨hP c h.1, iht h.2.1, ihe e rfl h.2.2⟩
  | forBlock k v i b e ihb ihe =>
    cases e with
    | none => exact fun h => ⟨hP i h.1, hQ i h.2.1, ihb h.2.2⟩
    | some e => exact fun h => ⟨hP i h.1, hQ i h.2.1, ihb h.2.2.1, ihe e rfl h.2.2.2⟩

/-- In a tree whose expressions are as wanted the include blocks are left to look at. -/
theorem Everywhere.include_iff {a : AST} (h : a.Everywhere P Q I) :
    a.Everywhere P Q I' ↔ a.Everywhere (fun _ => True) (fun _ => True) I' := by
  refine ⟨Everywhere.mono (fun _ _ => trivial) (fun _ _ => trivial) (fun _ _ _ h => h) a, ?_⟩
  induction a with
  | statements l ih =>
    simp only [Everywhere, everywhereList_iff] at h ⊢
    exact fun h' s hs => ih s hs (h s hs) (h' s hs)
  | rawBlock _ => exact id
  | printBlock e => exact fun _ => h
  | includeBlock name scope M => exact id
  | ifBlock c t e iht ihe =>
    cases e with
    | none => exact fun h' => ⟨h.1, iht h.2 h'.2⟩
    | some e => exact fun h' => ⟨h.1, iht h.2.1 h'.2.1, ihe e rfl h.2.2 h'.2.2⟩
  | forBlock k v i b e ihb ihe =>
    cases e with
    | none => exact fun h' => ⟨h.1, h.2.1, ihb h.2.2 h'.2.2⟩
    | some e =>
      exact fun h' => ⟨h.1, h.2.1, ihb h.2.2.1 h'.2.2.1, ihe e rfl h.2.2.2 h'.2.2.2⟩

end

/-! ## `Everywhere` in the result of a pass -/

section

variable {f : Expression → Run Expression} {P P' Q Q' : Expression → Prop}
  {I I' : Text → Option Expression → StringExpressionMap → Prop}

theorem mapStatements_everywhere : ∀ {l l' : List AST},
    (∀ s ∈ l, ∀ s', s.mapExpressions f = .ok s' → (s'.Everywhere P' Q' I' ↔ s.Everywhere P Q I)) →
    mapStatements f l = .ok l' → (EverywhereList P' Q' I' l' ↔ EverywhereList P Q I l)
  | [], l', _, h => by
    cases h
    rfl
  | s :: l, l', ih, h => by
    simp only [mapStatements, bind_eq_ok, pure_eq_ok] at h
    obtain ⟨s', hs, l'', hl, rfl⟩ := h
    rw [everywhereList_append, everywhere_asStatements, ih s List.mem_cons_self s' hs,
      mapStatements_everywhere (fun s h => ih s (List.mem_cons_of_mem _ h)) hl, EverywhereList]

/-- A pass over the expressions carries properties it carries over each expression. -/
theorem mapExpressions_everywhere (hP : ∀ e e', f e = .ok e' → (P' e' ↔ P e))
    (hQ : ∀ e e', f e = .ok e' → (Q' e' ↔ Q e))
    (hI : ∀ name scope scope' M M', scope.mapM f = .ok scope' → M.mapValues f = .ok M' →
      (I' name scope' M' ↔ I name scope M)) (a : AST) :
    ∀ a', a.mapExpressions f = .ok a' → (a'.Everywhere P' Q' I' ↔ a.Everywhere P Q I) := by
  induction a with
  | statements l ih =>
    intro a' h
    simp only [mapExpressions, bind_eq_ok, pure_eq_ok] at h
    obtain ⟨l', hl, rfl⟩ := h
    rw [everywhere_fromStatementsArray, mapStatements_everywhere ih hl, Everywhere]
  | rawBlock t =>
    intro a' h
    cases h
    simp only [Everywhere]
  | printBlock e =>
    intro a' h
    simp only [mapExpressions, bind_eq_ok, pure_eq_ok] at h
    obtain ⟨e', he, rfl⟩ := h
    exact hP e e' he
  | includeBlock name scope M =>
    intro a' h
    simp only [mapExpressions, bind_eq_ok, pure_eq_ok] at h
    obtain ⟨scope', hs, M', hM, rfl⟩ := h
    exact hI name scope scope' M M' hs hM
  | ifBlock c t e iht ihe =>
    intro a' h
    cases e with
    | none =>
      simp only [mapExpressions, bind_eq_ok, pure_eq_ok] at h
      obtain ⟨c', hc, t', ht, rfl⟩ := h
      simp only [Everywhere, hP c c' hc, iht t' ht]
    | some e =>
      simp only [mapExpressions, bind_eq_ok, pure_eq_ok] at h
      obtain ⟨c', hc, t', ht, e', he, rfl⟩ := h
      simp only [Everywhere, hP c c' hc, iht t' ht, ihe e rfl e' he]
  | forBlock k v i b e ihb ihe =>
    intro a' h
    cases e with
    | none =>
      simp only [mapExpressions, bind_eq_ok, pure_eq_ok] at h
      obtain ⟨i', hi, b', hb, rfl⟩ := h
      simp only [Everywhere, hP i i' hi, hQ i i' hi, ihb b' hb]
    | some e =>
      simp only [mapExpressions, bind_eq_ok, pure_eq_ok] at h
      obtain ⟨i', hi, b', hb, e', he, rfl⟩ := h
      simp only [Everywhere, hP i i' hi, hQ i i' hi, ihb b' hb, ihe e rfl e' he]

end

theorem mapEntries_forall {f : Expression → Run Expression} {P P' : Expression → Prop}
    (hP : ∀ e e', f e = .ok e' → (P' e' ↔ P e)) : ∀ {l : List (Text × Expression)} {l'},
    StringExpressionMap.mapEntries f l = .ok l' → ((∀ p ∈ l'.1, P' p.2) ↔ ∀ p ∈ l, P p.2)
  | [], l', h => by
    cases h
    simp
  | (x, e) :: l, l', h => by
    simp only [StringExpressionMap.mapEntries, bind_eq_ok, pure_eq_ok] at h
    obtain ⟨e', he, l'', hl, rfl⟩ := h
    simp only [List.forall_mem_cons, hP e e' he, mapEntries_forall hP hl]

theorem mapM_option_eq_ok {f : Expression → Run Expression} {scope scope' : Option Expression}
    (h : scope.mapM f = .ok scope') :
    scope = none ∧ scope' = none ∨
      ∃ s s', scope = some s ∧ scope' = some s' ∧ f s = .ok s' := by
  cases scope with
  | none => cases h; exact .inl ⟨rfl, rfl⟩
  | some s =>
    have := mapM_some_bind f s (pure : Option Expression → Run (Option Expression))
    rw [bind_pure, h] at this
    obtain ⟨s', hs, h⟩ := bind_eq_ok.1 this.symm
    cases h
    exact .inr ⟨s, s', rfl, rfl, hs⟩

theorem ofArguments_iff {f : Expression → Run Expression} {P P' Q Q' : Expression → Prop}
    (hP : ∀ e e', f e = .ok e' → (P' e' ↔ P e)) (hQ : ∀ e e', f e = .ok e' → (Q' e' ↔ Q e))
    (name : Text) (scope scope' : Option Expression) (M M' : StringExpressionMap)
    (hs : scope.mapM f = .ok scope') (hM : M.mapValues f = .ok M') :
    OfArguments P' Q' name scope' M' ↔ OfArguments P Q name scope M := by
  simp only [StringExpressionMap.mapValues, bind_eq_ok, pure_eq_ok] at hM
  obtain ⟨l', hl, rfl⟩ := hM
  unfold OfArguments
  rw [mapEntries_forall hP hl]
  rcases mapM_option_eq_ok hs with ⟨rfl, rfl⟩ | ⟨s, s', rfl, rfl, h⟩
  · simp
  · simp [hP s s' h, hQ s s' h]

section

variable {f : Text → Option Expression → StringExpressionMap → Run AST} {P Q : Expression → Prop}
  {I J : Text → Option Expression → StringExpressionMap → Prop}

theorem mapIncludesList_everywhere : ∀ {l l' : List AST},
    (∀ s ∈ l, ∀ s', s.mapIncludes f = .ok s' → (s'.Everywhere P Q I ↔ s.Everywhere P Q J)) →
    mapIncludesList f l = .ok l' → (EverywhereList P Q I l' ↔ EverywhereList P Q J l)
  | [], l', _, h => by
    cases h
    rfl
  | s :: l, l', ih, h => by
    simp only [mapIncludesList, bind_eq_ok, pure_eq_ok] at h
    obtain ⟨s', hs, l'', hl, rfl⟩ := h
    rw [everywhereList_append, everywhere_asStatements, ih s List.mem_cons_self s' hs,
      mapIncludesList_everywhere (fun s h => ih s (List.mem_cons_of_mem _ h)) hl, EverywhereList]

/-- Putting trees in the place of include blocks carries a property of those trees. -/
theorem mapIncludes_everywhere
    (hf : ∀ name scope M r, f name scope M = .ok r → (r.Everywhere P Q I ↔ J name scope M))
    (a : AST) : ∀ r, a.mapIncludes f = .ok r → (r.Everywhere P Q I ↔ a.Everywhere P Q J) := by
  induction a with
  | statements l ih =>
    intro r h
    simp only [mapIncludes, bind_eq_ok, pure_eq_ok] at h
    obtain ⟨l', hl, rfl⟩ := h
    rw [everywhere_fromStatementsArray, mapIncludesList_everywhere ih hl, Everywhere]
  | rawBlock t =>
    intro r h
    cases h
    simp only [Everywhere]
  | printBlock e =>
    intro r h
    cases h
    simp only [Everywhere]
  | includeBlock name scope M =>
    intro r h
    exact hf name scope M r h
  | ifBlock c t e iht ihe =>
    intro r h
    cases e with
    | none =>
      simp only [mapIncludes, bind_eq_ok, pure_eq_ok] at h
      obtain ⟨t', ht, rfl⟩ := h
      simp only [Everywhere, iht t' ht]
    | some e =>
      simp only [mapIncludes, bind_eq_ok, pure_eq_ok] at h
      obtain ⟨t', ht, e', he, rfl⟩ := h
      simp only [Everywhere, iht t' ht, ihe e rfl e' he]
  | forBlock k v i b e ihb ihe =>
    intro r h
    cases e with
    | none =>
      simp only [mapIncludes, bind_eq_ok, pure_eq_ok] at h
      obtain ⟨b', hb, rfl⟩ := h
      simp only [Everywhere, ihb b' hb]
    | some e =>
      simp only [mapIncludes, bind_eq_ok, pure_eq_ok] at h
      obtain ⟨b', hb, e', he, rfl⟩ := h
      simp only [Everywhere, ihb b' hb, ihe e rfl e' he]

end

end AST

end B2
