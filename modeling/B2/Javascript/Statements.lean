import B2.Javascript.Visitor

/-!
# The generated statements

`JavascriptVisitor.compile` is the visitor as a translation of trees to trees:
the statements its lines read as (`node_compile`). The shadow map is the same
after a node as before it, so the translation passes it down only, and the
counter after a node depends on the tree alone (`counter`). Two loops get
different numbers and a number is part of an identifier, so no identifier is
declared twice (`Fresh`).
-/

namespace B2

open Ecma (Line Stmt Reads ReadsElse)

namespace JavascriptVisitor

/-! ## Identifiers -/

/-- The identifiers that a for block may declare. -/
def loopIds (n : Nat) : List Text := [iterableId n, isEmptyId n, keyId n, valueId n]

theorem decimal_inj {m n : Nat} (h : decimal m = decimal n) : m = n := by
  have := congrArg (Nat.ofDigitChars 10 · 0) h
  simpa only [decimal, Nat.ofDigitChars_ten_toDigits] using this

theorem iterableId_second (n : Nat) : (iterableId n)[1]? = some 't' := rfl
theorem isEmptyId_second (n : Nat) : (isEmptyId n)[1]? = some 's' := rfl
theorem keyId_second (n : Nat) : (keyId n)[1]? = some 'e' := rfl
theorem valueId_second (n : Nat) : (valueId n)[1]? = some 'a' := rfl

theorem ne_of_second {x y : Text} {a b : Char} (hx : x[1]? = some a) (hy : y[1]? = some b)
    (h : a ≠ b) : x ≠ y := by
  rintro rfl
  rw [hx] at hy
  exact h (Option.some.inj hy)

theorem loopIds_nodup (n : Nat) : (loopIds n).Nodup := by
  have h₁ := iterableId_second n
  have h₂ := isEmptyId_second n
  have h₃ := keyId_second n
  have h₄ := valueId_second n
  simp only [loopIds, List.nodup_cons, List.mem_cons, List.not_mem_nil, or_false, not_or]
  exact ⟨⟨ne_of_second h₁ h₂ (by decide), ne_of_second h₁ h₃ (by decide),
    ne_of_second h₁ h₄ (by decide)⟩, ⟨ne_of_second h₂ h₃ (by decide),
    ne_of_second h₂ h₄ (by decide)⟩, ne_of_second h₃ h₄ (by decide), id, List.nodup_nil⟩

/-- The identifiers of two loops never coincide. -/
theorem eq_of_mem_loopIds {m n : Nat} {x : Text} (hm : x ∈ loopIds m) (hn : x ∈ loopIds n) :
    m = n := by
  simp only [loopIds, List.mem_cons, List.not_mem_nil, or_false] at hm hn
  rcases hm with rfl | rfl | rfl | rfl <;> rcases hn with h | h | h | h
  case inl.inl | inr.inl.inr.inl | inr.inr.inl.inr.inr.inl | inr.inr.inr.inr.inr.inr =>
    exact decimal_inj (List.append_cancel_left h)
  all_goals
    have := congrArg (·[1]?) h
    exact absurd (Option.some.inj this) (by decide)

/-- The names belong to loops numbered above `n` and up to `n'`, and none comes twice. -/
structure Fresh (n n' : Nat) (names : List Text) : Prop where
  le : n ≤ n'
  nodup : names.Nodup
  mem : ∀ x ∈ names, ∃ i, n < i ∧ i ≤ n' ∧ x ∈ loopIds i

theorem Fresh.nil (n : Nat) : Fresh n n [] := ⟨le_rfl, by simp, by simp⟩

theorem Fresh.append {n n' n'' : Nat} {l l' : List Text} (h : Fresh n n' l)
    (h' : Fresh n' n'' l') : Fresh n n'' (l ++ l') := by
  refine ⟨h.le.trans h'.le, ?_, ?_⟩
  · rw [List.nodup_append]
    refine ⟨h.nodup, h'.nodup, ?_⟩
    rintro x hx y hy rfl
    obtain ⟨i, -, hi, hxi⟩ := h.mem x hx
    obtain ⟨j, hj, -, hxj⟩ := h'.mem x hy
    have := eq_of_mem_loopIds hxi hxj
    omega
  · intro x hx
    rcases List.mem_append.1 hx with hx | hx
    · obtain ⟨i, h₁, h₂, h₃⟩ := h.mem x hx
      exact ⟨i, h₁, h₂.trans h'.le, h₃⟩
    · obtain ⟨i, h₁, h₂, h₃⟩ := h'.mem x hx
      exact ⟨i, h.le.trans_lt h₁, h₂, h₃⟩

theorem Fresh.loop {n : Nat} {l : List Text} (h : List.Sublist l (loopIds (n + 1))) :
    Fresh n (n + 1) l :=
  ⟨by omega, (loopIds_nodup _).sublist h, fun x hx => ⟨n + 1, by omega, le_rfl, h.subset hx⟩⟩

/-- The names that lines declare. -/
def declared {ε : Type} (lines : List (Line ε)) : List Text :=
  lines.filterMap fun
    | .declare x _ => some x
    | .openFor x _ => some x
    | _ => none

/-! ## The translation -/

/-- The shadow map in the body of a loop. -/
def bindShadow (n : Nat) (k v : Option Text) (shadowValues : Text → Option Text) :
    Text → Option Text :=
  setShadow v (valueId n) (setShadow k (keyId n) shadowValues)

/-- The counter after a node. -/
def counter (n : Nat) : AST → Nat
  | .statements l => counterList n l
  | .rawBlock _ | .printBlock _ | .includeBlock .. => n
  | .ifBlock _ t none => counter n t
  | .ifBlock _ t (some e) => counter (counter n t) e
  | .forBlock _ _ _ b none => counter (n + 1) b
  | .forBlock _ _ _ b (some e) => counter (counter (n + 1) b) e
where
  counterList (n : Nat) : List AST → Nat
    | [] => n
    | s :: l => counterList (counter n s) l

/-- The statements of a loop body around those of the tree. -/
def loopBody (n : Nat) (v : Option Text) (has_else_body : Bool)
    (body : List (Stmt JsExpression)) : List (Stmt JsExpression) :=
  .continueIf (.notOwn (iterableId n) (keyId n)) ::
    ((if v.isSome then [.assign (valueId n) (.element (iterableId n) (keyId n))] else []) ++ body ++
      if has_else_body then [.assign (isEmptyId n) (.boolean false)] else [])

mutual

/-- The statements of a node. -/
def compile (undefinedCheck : Bool) (n : Nat) (shadowValues : Text → Option Text) :
    AST → List (Stmt JsExpression)
  | .statements l => compileList undefinedCheck n shadowValues l
  | .rawBlock t => [.append (.text t)]
  | .printBlock e =>
    [.append (if undefinedCheck then .orEmpty (Members.expression ⟨n, shadowValues⟩ e)
      else .value (Members.expression ⟨n, shadowValues⟩ e))]
  | .ifBlock c t none =>
    [.ifElse (.value (Members.expression ⟨n, shadowValues⟩ c))
      (compile undefinedCheck n shadowValues t) []]
  | .ifBlock c t (some e) =>
    [.ifElse (.value (Members.expression ⟨n, shadowValues⟩ c))
      (compile undefinedCheck n shadowValues t)
      (compile undefinedCheck (counter n t) shadowValues e)]
  | .forBlock k v i b none =>
    [.assign (iterableId (n + 1)) (.value (Members.expression ⟨n + 1, shadowValues⟩ i)),
      .forIn (keyId (n + 1)) (iterableId (n + 1)) (loopBody (n + 1) v false
        (compile undefinedCheck (n + 1) (bindShadow (n + 1) k v shadowValues) b))]
  | .forBlock k v i b (some e) =>
    [.assign (iterableId (n + 1)) (.value (Members.expression ⟨n + 1, shadowValues⟩ i)),
      .assign (isEmptyId (n + 1)) (.boolean true),
      .forIn (keyId (n + 1)) (iterableId (n + 1)) (loopBody (n + 1) v true
        (compile undefinedCheck (n + 1) (bindShadow (n + 1) k v shadowValues) b)),
      .ifElse (.identifier (isEmptyId (n + 1)))
        (compile undefinedCheck (counter (n + 1) b) shadowValues e) []]
  | .includeBlock .. => []

def compileList (undefinedCheck : Bool) (n : Nat) (shadowValues : Text → Option Text) :
    List AST → List (Stmt JsExpression)
  | [] => []
  | s :: l =>
    compile undefinedCheck n shadowValues s ++
      compileList undefinedCheck (counter n s) shadowValues l

end

/-- The statements of an else body. -/
def compileElse (undefinedCheck : Bool) (n : Nat) (shadowValues : Text → Option Text) :
    Option AST → List (Stmt JsExpression)
  | none => []
  | some e => compile undefinedCheck n shadowValues e

/-! ## The shadow map -/

/-- An empty shadow value would be taken for an absent one; the visitor writes none. -/
def NoEmptyShadow (shadowValues : Text → Option Text) : Prop :=
  ∀ x id, shadowValues x = some id → id ≠ []

theorem noEmptyShadow_bindShadow {n : Nat} {k v : Option Text} {shadowValues : Text → Option Text}
    (h : NoEmptyShadow shadowValues) : NoEmptyShadow (bindShadow n k v shadowValues) := by
  intro x id hx
  have hk : keyId n ≠ [] := List.cons_ne_nil _ _
  have hv : valueId n ≠ [] := List.cons_ne_nil _ _
  cases k <;> cases v <;> simp only [bindShadow, setShadow, Function.update_apply] at hx <;>
    grind [NoEmptyShadow]

/-- The visitor puts the shadow map back as it was. -/
theorem restoreShadow_bindShadow {n : Nat} {k v : Option Text} {shadowValues : Text → Option Text}
    (h : NoEmptyShadow shadowValues) :
    restoreShadow v (oldShadow shadowValues v) (restoreShadow k (oldShadow shadowValues k)
      (bindShadow n k v shadowValues)) = shadowValues := by
  have hrestore : ∀ (x y : Text) (m : Text → Option Text),
      restoreShadow (some x) (oldShadow shadowValues (some x)) m y =
        if y = x then shadowValues x else m y := by
    intro x y m
    cases hx : shadowValues x with
    | none => simp [restoreShadow, oldShadow, hx, Function.update_apply]
    | some id => simp [restoreShadow, oldShadow, hx, h x id hx, Function.update_apply]
  have hnone : ∀ old m, restoreShadow none old m = m := fun _ _ => rfl
  funext y
  cases k <;> cases v <;>
    simp only [hrestore, hnone, bindShadow, setShadow, Function.update_apply] <;> grind

/-! ## What the lines read as -/

section

variable (undefinedCheck : Bool) (n : Nat) (shadowValues : Text → Option Text)

/-- The visitor's lines for a node are the statements of its translation. -/
def Compiles (a : AST) : Prop :=
  ∃ lines, node undefinedCheck false ⟨n, shadowValues⟩ a = .ok (lines, ⟨counter n a, shadowValues⟩) ∧
    Reads lines (compile undefinedCheck n shadowValues a) ∧ Fresh n (counter n a) (declared lines)

/-- The lines of an if block written as an `else if` are the else branch before it. -/
def CompilesElseIf (a : AST) : Prop :=
  ∃ lines, node undefinedCheck true ⟨n, shadowValues⟩ a = .ok (lines, ⟨counter n a, shadowValues⟩) ∧
    ReadsElse lines (compile undefinedCheck n shadowValues a) ∧
    Fresh n (counter n a) (declared lines)

end

section

variable {undefinedCheck : Bool} {n : Nat} {shadowValues : Text → Option Text}

theorem declared_append {ε : Type} (l l' : List (Line ε)) :
    declared (l ++ l') = declared l ++ declared l' := List.filterMap_append

theorem compiles_statements : ∀ {l : List AST} {n : Nat},
    (∀ s ∈ l, ∀ n, Compiles undefinedCheck n shadowValues s) →
      Compiles undefinedCheck n shadowValues (.statements l)
  | [], n, _ => ⟨[], rfl, Reads.nil, Fresh.nil n⟩
  | s :: l, n, h => by
    obtain ⟨lines, hs, hreads, hfresh⟩ := h s List.mem_cons_self n
    obtain ⟨rest, hl, hreads', hfresh'⟩ := compiles_statements (n := counter n s) fun s hs =>
      h s (List.mem_cons_of_mem _ hs)
    refine ⟨lines ++ rest, ?_, hreads.append hreads', ?_⟩
    · simp only [node] at hl
      simp only [node, nodes, hs]
      simp only [bind, Except.bind, hl]
      rfl
    · rw [declared_append]
      exact hfresh.append hfresh'

/-- The lines of an if block after its head, for both kinds of head. -/
theorem compiles_ifBlock {c : Expression} {t : AST} {e : Option AST}
    (ht : ∀ n, Compiles undefinedCheck n shadowValues t)
    (he : ∀ b, e = some b → ∀ n, Compiles undefinedCheck n shadowValues b ∧
      (isIfBlock b = true → CompilesElseIf undefinedCheck n shadowValues b)) :
    Compiles undefinedCheck n shadowValues (.ifBlock c t e) ∧
      CompilesElseIf undefinedCheck n shadowValues (.ifBlock c t e) := by
  obtain ⟨lines, hnode, hreads, hfresh⟩ := ht n
  obtain ⟨rest, hrest, hreadsElse, hfresh'⟩ : ∃ rest, (∀ is_elseif,
      node undefinedCheck is_elseif ⟨n, shadowValues⟩ (.ifBlock c t e) =
        .ok ((if is_elseif then [.elseIf (.value (Members.expression ⟨n, shadowValues⟩ c))]
          else [.blank, .openIf (.value (Members.expression ⟨n, shadowValues⟩ c))]) ++
            lines ++ rest, ⟨counter n (.ifBlock c t e), shadowValues⟩)) ∧
      ReadsElse rest (compileElse undefinedCheck (counter n t) shadowValues e) ∧
      Fresh (counter n t) (counter n (.ifBlock c t e)) (declared rest) := by
    cases e with
    | none =>
      refine ⟨[.close, .blank], fun is_elseif => ?_, ReadsElse.close.blank, Fresh.nil _⟩
      simp only [node, hnode]
      rfl
    | some e =>
      cases hif : isIfBlock e with
      | true =>
        obtain ⟨rest, hrest, hreadsElse, hfresh'⟩ := (he e rfl (counter n t)).2 hif
        refine ⟨rest, fun is_elseif => ?_, hreadsElse, hfresh'⟩
        simp only [node, hnode, hif, if_true]
        simp only [bind, Except.bind, hrest]
        rfl
      | false =>
        obtain ⟨rest, hrest, hreads', hfresh'⟩ := (he e rfl (counter n t)).1
        refine ⟨.openElse :: rest ++ [.close, .blank], fun is_elseif => ?_, ?_, ?_⟩
        · simp only [node, hnode, hif, Bool.false_eq_true, if_false]
          simp only [bind, Except.bind, hrest]
          rfl
        · simpa [compileElse] using (ReadsElse.openElse hreads').blank
        · rw [declared_append]
          simpa [declared, counter] using hfresh'
  have hcompile : compile undefinedCheck n shadowValues (.ifBlock c t e) =
      [.ifElse (.value (Members.expression ⟨n, shadowValues⟩ c))
        (compile undefinedCheck n shadowValues t)
        (compileElse undefinedCheck (counter n t) shadowValues e)] := by
    cases e <;> rfl
  constructor
  · refine ⟨_, hrest false, ?_, ?_⟩
    · rw [hcompile]
      exact Reads.blank.append (Reads.ifElse _ hreads hreadsElse)
    · rw [declared_append, declared_append]
      exact hfresh.append hfresh'
  · refine ⟨_, hrest true, ?_, ?_⟩
    · rw [hcompile]
      exact ReadsElse.elseIf _ hreads hreadsElse
    · rw [declared_append, declared_append]
      exact hfresh.append hfresh'

theorem reads_linesIf {l : Line JsExpression} {s : Stmt JsExpression} (flag : Bool)
    (h : Reads [l] [s]) : Reads (linesIf flag [l]) (if flag then [s] else []) := by
  cases flag
  · exact Reads.nil
  · exact h

theorem reads_forHeader (n : Nat) (iterable : Expr JsVar) (has_else_body : Bool) :
    Reads (forHeader n iterable has_else_body)
      (.assign (iterableId n) (.value iterable) ::
        if has_else_body then [.assign (isEmptyId n) (.boolean true)] else []) :=
  (Reads.blank.append (Reads.line fun _ _ => rfl)).append
    (reads_linesIf _ (Reads.line fun _ _ => rfl))

theorem reads_forLoop (n : Nat) (v : Option Text) (has_else_body : Bool)
    {lines : List (Line JsExpression)} {body : List (Stmt JsExpression)} (h : Reads lines body) :
    Reads (forLoop n v.isSome has_else_body lines)
      [.forIn (keyId n) (iterableId n) (loopBody n v has_else_body body)] := by
  have hcontinue : Reads [Line.continueIf (JsExpression.notOwn (iterableId n) (keyId n))]
      [.continueIf (.notOwn (iterableId n) (keyId n))] := Reads.line fun _ _ => rfl
  have hvalue := reads_linesIf v.isSome (l := .declare (valueId n)
    (.element (iterableId n) (keyId n))) (Reads.line fun _ _ => rfl)
  have hempty := reads_linesIf has_else_body (l := .assign (isEmptyId n) (.boolean false))
    (Reads.line fun _ _ => rfl)
  have hbody := (((hcontinue.append hvalue).append Reads.blank).append h).append hempty
  have := (Reads.forIn (keyId n) (iterableId n) hbody).append Reads.blank
  simpa [forLoop, loopBody] using this

theorem reads_forElse (n : Nat) {lines : List (Line JsExpression)}
    {body : List (Stmt JsExpression)} (h : Reads lines body) :
    Reads (forElse n lines) [.ifElse (.identifier (isEmptyId n)) body []] := by
  have := Reads.ifElse (.identifier (isEmptyId n)) h ReadsElse.close.blank
  simpa [forElse] using this

/-- The names a for block declares before its body. -/
theorem declared_for (n : Nat) (iterable : Expr JsVar) (v : Option Text) (has_else_body : Bool)
    (lines : List (Line JsExpression)) :
    ∃ ids, List.Sublist ids (loopIds n) ∧
      declared (forHeader n iterable has_else_body ++
        forLoop n v.isSome has_else_body lines) = ids ++ declared lines := by
  refine ⟨iterableId n :: (if has_else_body then [isEmptyId n] else []) ++
    (keyId n :: if v.isSome then [valueId n] else []), ?_, ?_⟩
  · cases has_else_body <;> cases v <;> simp [loopIds]
  · cases has_else_body <;> cases v <;> simp [declared, forHeader, forLoop, linesIf]

theorem compiles_forBlock {k v : Option Text} {i : Expression} {b : AST} {e : Option AST}
    (hsh : NoEmptyShadow shadowValues)
    (hb : ∀ n shadowValues, NoEmptyShadow shadowValues →
      Compiles undefinedCheck n shadowValues b)
    (he : ∀ e', e = some e' → ∀ n, Compiles undefinedCheck n shadowValues e') :
    Compiles undefinedCheck n shadowValues (.forBlock k v i b e) := by
  obtain ⟨lines, hnode, hreads, hfresh⟩ :=
    hb (n + 1) (bindShadow (n + 1) k v shadowValues) (noEmptyShadow_bindShadow hsh)
  have hrestore := restoreShadow_bindShadow (n := n + 1) (k := k) (v := v) hsh
  simp only [bindShadow] at hnode hrestore
  obtain ⟨ids, hids, hdeclared⟩ := declared_for (n + 1)
    (Members.expression ⟨n + 1, shadowValues⟩ i) v e.isSome lines
  have hloop := (reads_forHeader (n + 1) (Members.expression ⟨n + 1, shadowValues⟩ i)
    e.isSome).append (reads_forLoop (n + 1) v e.isSome hreads)
  cases e with
  | none =>
    refine ⟨forHeader (n + 1) (Members.expression ⟨n + 1, shadowValues⟩ i) false ++
      forLoop (n + 1) v.isSome false lines, ?_, hloop, ?_⟩
    · simp only [node]
      simp only [bind, Except.bind, hnode, hrestore]
      rfl
    · rw [Option.isSome_none] at hdeclared
      rw [hdeclared]
      exact (Fresh.loop hids).append hfresh
  | some e =>
    obtain ⟨rest, hrest, hreads', hfresh'⟩ := he e rfl (counter (n + 1) b)
    refine ⟨forHeader (n + 1) (Members.expression ⟨n + 1, shadowValues⟩ i) true ++
      forLoop (n + 1) v.isSome true lines ++ forElse (n + 1) rest, ?_,
      hloop.append (reads_forElse (n + 1) hreads'), ?_⟩
    · simp only [node]
      simp only [bind, Except.bind, hnode, hrestore, hrest]
      rfl
    · rw [Option.isSome_some] at hdeclared
      have helse : declared (forElse (n + 1) rest) = declared rest := by
        simp [declared, forElse]
      rw [declared_append, hdeclared, helse]
      exact ((Fresh.loop hids).append hfresh).append hfresh'

end

/-- The visitor is the translation: its lines read as the statements of the tree, and no name
is declared twice. -/
theorem node_compile (undefinedCheck : Bool) (a : AST) (h : a.IncludeFree) : ∀ n shadowValues,
    NoEmptyShadow shadowValues → Compiles undefinedCheck n shadowValues a ∧
      (isIfBlock a = true → CompilesElseIf undefinedCheck n shadowValues a) := by
  induction a with
  | statements l ih =>
    intro n shadowValues hsh
    exact ⟨compiles_statements fun s hs n =>
      (ih s hs (AST.includeFree_of_mem h hs) n shadowValues hsh).1, nofun⟩
  | rawBlock t =>
    exact fun n shadowValues _ =>
      ⟨⟨_, rfl, Reads.line fun _ _ => rfl, Fresh.nil n⟩, nofun⟩
  | printBlock e =>
    exact fun n shadowValues _ =>
      ⟨⟨_, rfl, Reads.line fun _ _ => rfl, Fresh.nil n⟩, nofun⟩
  | includeBlock name scope M => cases h
  | ifBlock c t e iht ihe =>
    intro n shadowValues hsh
    have htfree : t.IncludeFree := by
      cases e with
      | none => exact h
      | some e => exact h.1
    have hefree : ∀ b, e = some b → b.IncludeFree := by
      rintro b rfl
      exact h.2
    have := compiles_ifBlock (n := n) (c := c) (fun n => (iht htfree n shadowValues hsh).1)
      fun b hb n => ihe b hb (hefree b hb) n shadowValues hsh
    exact ⟨this.1, fun _ => this.2⟩
  | forBlock k v i b e ihb ihe =>
    intro n shadowValues hsh
    have hbfree : b.IncludeFree := by
      cases e with
      | none => exact h
      | some e => exact h.1
    have hefree : ∀ e', e = some e' → e'.IncludeFree := by
      rintro e' rfl
      exact h.2
    exact ⟨compiles_forBlock hsh (fun n shadowValues hsh => (ihb hbfree n shadowValues hsh).1)
      fun e' he n => (ihe e' he (hefree e' he) n shadowValues hsh).1, nofun⟩

end JavascriptVisitor

end B2
