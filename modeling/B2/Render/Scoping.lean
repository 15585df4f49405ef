import B2.Ast.Substitution
import B2.Passes.Everywhere
import B2.Render.Semantics

/-!
# Loop scopes

Which variable a reference means. A reference under for blocks means the key or
the value of the innermost loop that binds its name, or a free variable
(`Ref`); loops are counted from the outside. `AST.expressionsIn` lists the expressions
of a tree in source order, each with the loops around it.
-/

namespace B2

/-- The key and value variables of the loops around a node, innermost first. -/
abbrev Scope := List (Option Text × Option Text)

/-- What a variable reference means. -/
inductive Ref where
  | free (x : Text)
  | key (loop : Nat)
  | value (loop : Nat)
  deriving DecidableEq

/-- The meaning of a name; the value variable of a loop wins over its key variable. -/
def resolveName : Scope → Text → Ref
  | [], x => .free x
  | (k, v) :: S, x =>
    if v = some x then .value S.length
    else if k = some x then .key S.length
    else resolveName S x

/-- A loop around the node binds the name. -/
def Bound (S : Scope) (x : Text) : Prop := ∃ p ∈ S, p.1 = some x ∨ p.2 = some x

instance (S : Scope) (x : Text) : Decidable (Bound S x) :=
  inferInstanceAs (Decidable (∃ p ∈ S, p.1 = some x ∨ p.2 = some x))

theorem bound_cons {p : Option Text × Option Text} {S : Scope} {x : Text} :
    Bound (p :: S) x ↔ (p.1 = some x ∨ p.2 = some x) ∨ Bound S x := by
  simp [Bound]

theorem resolveName_of_not_bound :
    ∀ {S : Scope} {x : Text}, ¬Bound S x → resolveName S x = .free x
  | [], _, _ => rfl
  | (k, v) :: S, x, h => by
    rw [bound_cons, not_or, not_or] at h
    rw [resolveName, if_neg h.1.2, if_neg h.1.1, resolveName_of_not_bound h.2]

theorem resolveName_eq_free_iff : ∀ {S : Scope} {x y : Text},
    resolveName S x = .free y ↔ x = y ∧ ¬Bound S x
  | [], x, y => by simp [resolveName, Bound]
  | (k, v) :: S, x, y => by
    rw [resolveName, bound_cons]
    by_cases hv : v = some x
    · simp [hv]
    · by_cases hk : k = some x
      · simp [hk, hv]
      · simp [hk, hv, resolveName_eq_free_iff]

/-- The loop a bound name refers to is one of those around it. -/
theorem resolveName_lt : ∀ {S : Scope} {x : Text} {n : Nat},
    resolveName S x = .key n ∨ resolveName S x = .value n → n < S.length
  | [], _, _, h => by simp [resolveName] at h
  | (k, v) :: S, x, n, h => by
    rw [resolveName] at h
    split at h
    · simp only [reduceCtorEq, Ref.value.injEq, false_or] at h
      simp [← h]
    · split at h
      · simp only [reduceCtorEq, Ref.key.injEq, or_false] at h
        simp [← h]
      · exact (resolveName_lt h).trans (by simp)

/-- Two bound names with the same meaning are the same name. -/
theorem resolveName_inj : ∀ {S : Scope} {x y : Text}, resolveName S x = resolveName S y → x = y
  | [], x, y, h => by simpa [resolveName] using h
  | (k, v) :: S, x, y, h => by
    have hkey : ∀ z, resolveName S z ≠ .key S.length := fun z hz =>
      absurd (resolveName_lt (.inl hz)) (lt_irrefl _)
    have hvalue : ∀ z, resolveName S z ≠ .value S.length := fun z hz =>
      absurd (resolveName_lt (.inr hz)) (lt_irrefl _)
    simp only [resolveName] at h
    split_ifs at h with hx hy hy hkx hvy hky hvy hky
    all_goals first
      | exact resolveName_inj h
      | (exact absurd h (hkey _)) | (exact absurd h (hvalue _))
      | (exact absurd h.symm (hkey _)) | (exact absurd h.symm (hvalue _))
      | simp_all

/-! ## The expressions of a tree with their scopes -/

namespace AST

mutual

/-- The expressions of a tree in source order, each with the loops around it. -/
def expressionsIn (S : Scope) : AST → List (Scope × Expression)
  | .statements l => expressionsInList S l
  | .rawBlock _ => []
  | .printBlock e => [(S, e)]
  | .ifBlock c t none => (S, c) :: t.expressionsIn S
  | .ifBlock c t (some e) => (S, c) :: (t.expressionsIn S ++ e.expressionsIn S)
  | .forBlock k v i b none => (S, i) :: b.expressionsIn ((k, v) :: S)
  | .forBlock k v i b (some e) => (S, i) :: (b.expressionsIn ((k, v) :: S) ++ e.expressionsIn S)
  | .includeBlock .. => []

def expressionsInList (S : Scope) : List AST → List (Scope × Expression)
  | [] => []
  | s :: l => s.expressionsIn S ++ expressionsInList S l

end

/-- The expressions of a tree with their variables as what they mean. -/
def meanings (a : AST) : List (Expr Ref) :=
  (a.expressionsIn []).map fun p => p.2.map (resolveName p.1)

section

variable {S : Scope}

theorem expressionsInList_append {l l' : List AST} :
    expressionsInList S (l ++ l') = expressionsInList S l ++ expressionsInList S l' := by
  induction l with
  | nil => rfl
  | cons s l ih => simp [expressionsInList, ih]

theorem expressionsIn_fromStatementsArray {l : List AST} :
    (fromStatementsArray l).expressionsIn S = expressionsInList S l := by
  match l with
  | [] => rfl
  | [s] => simp [fromStatementsArray, expressionsInList]
  | s :: s' :: l => rfl

theorem expressionsInList_asStatements {a : AST} :
    expressionsInList S a.asStatements = a.expressionsIn S := by
  cases a <;> simp [asStatements, expressionsInList, expressionsIn]

theorem mem_expressionsInList {l : List AST} {p : Scope × Expression} :
    p ∈ expressionsInList S l ↔ ∃ s ∈ l, p ∈ s.expressionsIn S := by
  induction l with
  | nil => simp [expressionsInList]
  | cons s l ih => simp [expressionsInList, ih]

end

/-- The passes keep the scopes: the expressions of the result are those of the tree, one by
one rewritten. -/
theorem mapExpressions_expressionsIn {f : Expression → Run Expression} (a : AST) : ∀ (a' : AST)
    (S : Scope), a.mapExpressions f = .ok a' →
      List.Forall₂ (fun p p' => p'.1 = p.1 ∧ f p.2 = .ok p'.2) (a.expressionsIn S)
        (a'.expressionsIn S) := by
  induction a with
  | statements l ih =>
    intro a' S h
    simp only [mapExpressions, bind_eq_ok, pure_eq_ok] at h
    obtain ⟨l', hl, rfl⟩ := h
    rw [expressionsIn_fromStatementsArray, expressionsIn]
    induction l generalizing l' with
    | nil => cases hl; exact .nil
    | cons s l ihl =>
      simp only [mapStatements, bind_eq_ok, pure_eq_ok] at hl
      obtain ⟨s', hs, l'', hl, rfl⟩ := hl
      rw [expressionsInList, expressionsInList_append, expressionsInList_asStatements]
      exact List.rel_append (ih s List.mem_cons_self s' S hs)
        (ihl (fun s h => ih s (List.mem_cons_of_mem _ h)) l'' hl)
  | rawBlock t =>
    intro a' S h
    cases h
    exact .nil
  | printBlock e =>
    intro a' S h
    simp only [mapExpressions, bind_eq_ok, pure_eq_ok] at h
    obtain ⟨e', he, rfl⟩ := h
    exact .cons ⟨rfl, he⟩ .nil
  | includeBlock name scope M =>
    intro a' S h
    simp only [mapExpressions, bind_eq_ok, pure_eq_ok] at h
    obtain ⟨scope', -, M', -, rfl⟩ := h
    exact .nil
  | ifBlock c t e iht ihe =>
    intro a' S h
    cases e with
    | none =>
      simp only [mapExpressions, bind_eq_ok, pure_eq_ok] at h
      obtain ⟨c', hc, t', ht, rfl⟩ := h
      exact .cons ⟨rfl, hc⟩ (iht t' S ht)
    | some e =>
      simp only [mapExpressions, bind_eq_ok, pure_eq_ok] at h
      obtain ⟨c', hc, t', ht, e', he, rfl⟩ := h
      exact .cons ⟨rfl, hc⟩ (List.rel_append (iht t' S ht) (ihe e rfl e' S he))
  | forBlock k v i b e ihb ihe =>
    intro a' S h
    cases e with
    | none =>
      simp only [mapExpressions, bind_eq_ok, pure_eq_ok] at h
      obtain ⟨i', hi, b', hb, rfl⟩ := h
      exact .cons ⟨rfl, hi⟩ (ihb b' _ hb)
    | some e =>
      simp only [mapExpressions, bind_eq_ok, pure_eq_ok] at h
      obtain ⟨i', hi, b', hb, e', he, rfl⟩ := h
      exact .cons ⟨rfl, hi⟩ (List.rel_append (ihb b' _ hb) (ihe e rfl e' S he))

theorem mapStatements_eq_error {f : Expression → Run Expression} {err : Failure} {S : Scope} :
    ∀ {l : List AST}, (∀ s ∈ l, s.IncludeFree → s.mapExpressions f = .error err →
      ∃ p ∈ s.expressionsIn S, f p.2 = .error err) → IncludeFreeList l →
      mapStatements f l = .error err → ∃ p ∈ expressionsInList S l, f p.2 = .error err
  | [], _, _, h => by cases h
  | s :: l, ih, hfree, h => by
    simp only [expressionsInList, List.mem_append]
    simp only [mapStatements, bind_eq_error] at h
    rcases h with h | ⟨s', -, h | ⟨l', -, h⟩⟩
    · obtain ⟨p, hp, he⟩ := ih s List.mem_cons_self hfree.1 h
      exact ⟨p, .inl hp, he⟩
    · obtain ⟨p, hp, he⟩ :=
        mapStatements_eq_error (fun s h => ih s (List.mem_cons_of_mem _ h)) hfree.2 h
      exact ⟨p, .inr hp, he⟩
    · cases h

/-- A pass fails on a tree without include blocks only by failing on one of its expressions. -/
theorem mapExpressions_eq_error {f : Expression → Run Expression} {err : Failure} (a : AST) :
    ∀ S : Scope, a.IncludeFree → a.mapExpressions f = .error err →
      ∃ p ∈ a.expressionsIn S, f p.2 = .error err := by
  induction a with
  | statements l ih =>
    intro S hfree h
    simp only [mapExpressions, bind_eq_error] at h
    rcases h with h | ⟨l', -, h⟩
    · exact mapStatements_eq_error (fun s hs => ih s hs S) hfree h
    · cases h
  | rawBlock t => intro S _ h; cases h
  | printBlock e =>
    intro S _ h
    simp only [mapExpressions, bind_eq_error] at h
    rcases h with h | ⟨e', -, h⟩
    · exact ⟨(S, e), List.mem_singleton_self _, h⟩
    · cases h
  | includeBlock name scope M => intro S hfree _; cases hfree
  | ifBlock c t e iht ihe =>
    intro S hfree h
    cases e with
    | none =>
      simp only [mapExpressions, bind_eq_error] at h
      rcases h with h | ⟨c', -, h | ⟨t', -, h⟩⟩
      · exact ⟨(S, c), by simp [expressionsIn], h⟩
      · obtain ⟨p, hp, he⟩ := iht S hfree h
        exact ⟨p, by simp [expressionsIn, hp], he⟩
      · cases h
    | some e =>
      simp only [mapExpressions, bind_eq_error] at h
      rcases h with h | ⟨c', -, h | ⟨t', -, h | ⟨e', -, h⟩⟩⟩
      · exact ⟨(S, c), by simp [expressionsIn], h⟩
      · obtain ⟨p, hp, he⟩ := iht S hfree.1 h
        exact ⟨p, by simp [expressionsIn, hp], he⟩
      · obtain ⟨p, hp, he⟩ := ihe e rfl S hfree.2 h
        exact ⟨p, by simp [expressionsIn, hp], he⟩
      · cases h
  | forBlock k v i b e ihb ihe =>
    intro S hfree h
    cases e with
    | none =>
      simp only [mapExpressions, bind_eq_error] at h
      rcases h with h | ⟨i', -, h | ⟨b', -, h⟩⟩
      · exact ⟨(S, i), by simp [expressionsIn], h⟩
      · obtain ⟨p, hp, he⟩ := ihb ((k, v) :: S) hfree h
        exact ⟨p, by simp [expressionsIn, hp], he⟩
      · cases h
    | some e =>
      simp only [mapExpressions, bind_eq_error] at h
      rcases h with h | ⟨i', -, h | ⟨b', -, h | ⟨e', -, h⟩⟩⟩
      · exact ⟨(S, i), by simp [expressionsIn], h⟩
      · obtain ⟨p, hp, he⟩ := ihb ((k, v) :: S) hfree.1 h
        exact ⟨p, by simp [expressionsIn, hp], he⟩
      · obtain ⟨p, hp, he⟩ := ihe e rfl S hfree.2 h
        exact ⟨p, by simp [expressionsIn, hp], he⟩
      · cases h

/-- A property of all expressions of a tree without include blocks. -/
theorem Everywhere.expressionsIn {P Q : Expression → Prop}
    {I : Text → Option Expression → StringExpressionMap → Prop} (a : AST) :
    ∀ S : Scope, a.Everywhere P Q I → ∀ p ∈ a.expressionsIn S, P p.2 := by
  induction a with
  | statements l ih =>
    intro S h p hp
    obtain ⟨s, hs, hp⟩ := mem_expressionsInList.1 hp
    exact ih s hs S (everywhereList_iff.1 h s hs) p hp
  | rawBlock t => intro S _ p hp; cases hp
  | includeBlock name scope M => intro S _ p hp; cases hp
  | printBlock e =>
    intro S h p hp
    rw [List.mem_singleton.1 hp]
    exact h
  | ifBlock c t e iht ihe =>
    intro S h p hp
    cases e with
    | none =>
      rcases List.mem_cons.1 hp with rfl | hp
      · exact h.1
      · exact iht S h.2 p hp
    | some e =>
      rcases List.mem_cons.1 hp with rfl | hp
      · exact h.1
      · rcases List.mem_append.1 hp with hp | hp
        · exact iht S h.2.1 p hp
        · exact ihe e rfl S h.2.2 p hp
  | forBlock k v i b e ihb ihe =>
    intro S h p hp
    cases e with
    | none =>
      rcases List.mem_cons.1 hp with rfl | hp
      · exact h.1
      · exact ihb _ h.2.2 p hp
    | some e =>
      rcases List.mem_cons.1 hp with rfl | hp
      · exact h.1
      · rcases List.mem_append.1 hp with hp | hp
        · exact ihb _ h.2.2.1 p hp
        · exact ihe e rfl S h.2.2.2 p hp

end AST

end B2
