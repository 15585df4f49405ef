import B2.Javascript.Statements
import B2.Render.Occurrences

/-!
# What the JavaScript visitor writes for variables

The variables in the lines of a tree, in the order they are written, are the
occurrences of the tree, each with the name of its for block's key or value or as
a property of `data` (`writesOccurrences`).
-/

namespace B2

open Ecma (Line)

/-- The variables of a written expression. -/
def JsExpression.references : JsExpression → List JsVar
  | .value e | .orEmpty e => e.references
  | _ => []

namespace JavascriptVisitor

/-- The variables of a line; the names that `for_block` makes up are none. -/
def lineReferences : Line JsExpression → List JsVar
  | .append e | .declare _ e | .assign _ e | .continueIf e | .openIf e | .elseIf e => e.references
  | .blank | .openFor .. | .openElse | .close => []

def references (lines : List (Line JsExpression)) : List JsVar := lines.flatMap lineReferences

/-- The variables of the generated function. -/
def functionReferences (lines : List FunctionLine) : List JsVar :=
  lines.flatMap fun
    | .statement l => lineReferences l
    | _ => []

end JavascriptVisitor

open JavascriptVisitor

/-- The name of a for block's key or value; the visitor counts for blocks from 1. -/
def Binding.jsName : Binding → Text
  | .key n => keyId (n + 1)
  | .value n => valueId (n + 1)

/-- An occurrence as it is to be written. -/
def Occurrence.jsVar (o : Occurrence) : JsVar :=
  match o.binding with
  | some b => .identifier b.jsName
  | none => .data o.name

namespace JavascriptVisitor

/-- The shadow map in the bodies of some for blocks. -/
def shadowOf : List Loop → Text → Option Text
  | [] => fun _ => none
  | L :: Ls => bindShadow (L.number + 1) L.key L.value (shadowOf Ls)

theorem noEmptyShadow_shadowOf : ∀ Ls : List Loop, NoEmptyShadow (shadowOf Ls)
  | [] => nofun
  | _ :: Ls => noEmptyShadow_bindShadow (noEmptyShadow_shadowOf Ls)

/-- The map holds what the scopes say. -/
theorem shadowOf_eq (x : Text) : ∀ Ls : List Loop,
    shadowOf Ls x = (⟨x, Ls⟩ : Occurrence).binding.map Binding.jsName
  | [] => rfl
  | ⟨n, k, v⟩ :: Ls => by
    have ih := shadowOf_eq x Ls
    rw [Occurrence.binding_cons]
    unfold shadowOf bindShadow Loop.binding
    by_cases hv : v = some x
    · subst hv
      simp [setShadow, Binding.jsName]
    · have hvalue : ∀ m, setShadow v (valueId (n + 1)) m x = m x := fun m => by
        cases v with
        | none => rfl
        | some y => exact Function.update_of_ne (fun h => hv (by rw [h])) _ _
      rw [hvalue, if_neg hv]
      by_cases hk : k = some x
      · subst hk
        simp [setShadow, Binding.jsName]
      · rw [if_neg hk, Option.none_or, ← ih]
        cases k with
        | none => rfl
        | some y => exact Function.update_of_ne (fun h => hk (by rw [h])) _ _

/-! ## Lines -/

section

variable {n : Nat} {Ls : List Loop}

theorem references_append (l l' : List (Line JsExpression)) :
    references (l ++ l') = references l ++ references l' := List.flatMap_append

mutual

theorem references_map (f : Text → JsVar) : ∀ e : Expression,
    (e.map f).references = e.references.map f
  | .variableReference _ => rfl
  | .getAttribute v _ => references_map f v
  | .methodCall _ args => argumentReferences_map f args
  | .doubleLiteral _ | .integerLiteral _ | .booleanLiteral _ | .stringLiteral _ => rfl
  | .binaryOperation l r _ | .comparison l r _ => by
    simp only [Expr.map, Expr.references, references_map f l, references_map f r, List.map_append]
  | .unaryOperation e _ => references_map f e

theorem argumentReferences_map (f : Text → JsVar) : ∀ args : List (Option Expression),
    Expr.argumentReferences (Expr.mapArguments f args) = (Expr.argumentReferences args).map f
  | [] => rfl
  | none :: args => argumentReferences_map f args
  | some e :: args => by
    simp only [Expr.mapArguments, Expr.argumentReferences, references_map f e,
      argumentReferences_map f args, List.map_append]

end

/-- The variables of an expression in the bodies of some for blocks. -/
theorem references_expression (e : Expression) :
    (Members.expression ⟨n, shadowOf Ls⟩ e).references =
      (e.occurrences Ls).map Occurrence.jsVar := by
  unfold Members.expression Expr.occurrences
  rw [references_map, List.map_map]
  refine List.map_congr_left fun x _ => ?_
  simp only [Function.comp_apply, shadowOf_eq, Occurrence.jsVar]
  cases (⟨x, Ls⟩ : Occurrence).binding <;> rfl

theorem references_forHeader (m : Nat) (i : Expr JsVar) (has_else_body : Bool) :
    references (forHeader m i has_else_body) = i.references := by
  cases has_else_body <;>
    simp [references, forHeader, linesIf, lineReferences, JsExpression.references]

theorem references_forLoop (m : Nat) (has_value_variable has_else_body : Bool)
    (body : List (Line JsExpression)) :
    references (forLoop m has_value_variable has_else_body body) = references body := by
  cases has_value_variable <;> cases has_else_body <;>
    simp [references, forLoop, linesIf, lineReferences, JsExpression.references]

theorem references_forElse (m : Nat) (body : List (Line JsExpression)) :
    references (forElse m body) = references body := by
  simp [references, forElse, lineReferences, JsExpression.references]

end

/-! ## Trees -/

section

variable (undefinedCheck : Bool)

/-- In the bodies of the loops `Ls` the visitor writes the occurrences of the tree, and leaves
the shadow map as it was. -/
def WritesOccurrences (a : AST) : Prop :=
  ∀ (is_elseif : Bool) (n : Nat) (Ls : List Loop), ∃ lines,
    node undefinedCheck is_elseif ⟨n, shadowOf Ls⟩ a =
      .ok (lines, ⟨n + a.forBlocks, shadowOf Ls⟩) ∧
    references lines = (a.occurrences n Ls).map Occurrence.jsVar

variable {undefinedCheck}

theorem writesOccurrences_statements {l : List AST}
    (h : ∀ s ∈ l, WritesOccurrences undefinedCheck s) :
    WritesOccurrences undefinedCheck (.statements l) := by
  induction l with
  | nil => exact fun _ n Ls => ⟨[], rfl, rfl⟩
  | cons s l ih =>
    intro _ n Ls
    obtain ⟨lines, hs, href⟩ := h s List.mem_cons_self false n Ls
    obtain ⟨rest, hl, href'⟩ := ih (fun s hs => h s (List.mem_cons_of_mem _ hs)) false
      (n + s.forBlocks) Ls
    refine ⟨lines ++ rest, ?_, ?_⟩
    · simp only [node] at hl
      simp only [node, nodes, hs]
      simp only [bind, Except.bind, hl, AST.forBlocks, AST.forBlocks.forBlocksList, Nat.add_assoc]
      rfl
    · rw [references_append, href, href', ← List.map_append]
      rfl

theorem writesOccurrences_ifBlock {c : Expression} {t : AST} {e : Option AST}
    (ht : WritesOccurrences undefinedCheck t)
    (he : ∀ b, e = some b → WritesOccurrences undefinedCheck b) :
    WritesOccurrences undefinedCheck (.ifBlock c t e) := by
  intro is_elseif n Ls
  obtain ⟨lines, hnode, href⟩ := ht false n Ls
  obtain ⟨head, hdef, hhead⟩ : ∃ head, head = (if is_elseif then
        [Line.elseIf (JsExpression.value (Members.expression ⟨n, shadowOf Ls⟩ c))]
      else [.blank, .openIf (.value (Members.expression ⟨n, shadowOf Ls⟩ c))]) ∧
      references head = (c.occurrences Ls).map Occurrence.jsVar := by
    refine ⟨_, rfl, ?_⟩
    rw [← references_expression (n := n)]
    cases is_elseif <;> simp [references, lineReferences, JsExpression.references]
  cases e with
  | none =>
    refine ⟨head ++ lines ++ [.close, .blank], ?_, ?_⟩
    · simp only [node, hnode, hdef]
      rfl
    · rw [references_append, references_append, hhead, href]
      simp [references, lineReferences, AST.occurrences]
  | some e =>
    cases hif : isIfBlock e with
    | true =>
      obtain ⟨rest, hrest, href'⟩ := he e rfl true (n + t.forBlocks) Ls
      refine ⟨head ++ lines ++ rest, ?_, ?_⟩
      · simp only [node, hnode, hif, if_true, hdef]
        simp only [bind, Except.bind, hrest, AST.forBlocks, Nat.add_assoc]
        rfl
      · rw [references_append, references_append, hhead, href, href']
        simp [AST.occurrences]
    | false =>
      obtain ⟨rest, hrest, href'⟩ := he e rfl false (n + t.forBlocks) Ls
      refine ⟨head ++ lines ++ (.openElse :: rest ++ [.close, .blank]), ?_, ?_⟩
      · simp only [node, hnode, hif, Bool.false_eq_true, if_false, hdef]
        simp only [bind, Except.bind, hrest, AST.forBlocks, Nat.add_assoc]
        rfl
      · have hrest' : references (.openElse :: rest ++ [.close, .blank]) = references rest := by
          simp [references, lineReferences]
        rw [references_append, references_append, hhead, href, hrest', href']
        simp [AST.occurrences]

theorem writesOccurrences_forBlock {k v : Option Text} {i : Expression} {b : AST}
    {e : Option AST} (hb : WritesOccurrences undefinedCheck b)
    (he : ∀ e', e = some e' → WritesOccurrences undefinedCheck e') :
    WritesOccurrences undefinedCheck (.forBlock k v i b e) := by
  intro _ n Ls
  obtain ⟨lines, hnode, href⟩ := hb false (n + 1) (⟨n, k, v⟩ :: Ls)
  have hrestore := restoreShadow_bindShadow (n := n + 1) (k := k) (v := v)
    (noEmptyShadow_shadowOf Ls)
  simp only [shadowOf, bindShadow] at hnode hrestore
  cases e with
  | none =>
    refine ⟨forHeader (n + 1) (Members.expression ⟨n + 1, shadowOf Ls⟩ i) false ++
      forLoop (n + 1) v.isSome false lines, ?_, ?_⟩
    · simp only [node]
      simp only [bind, Except.bind, hnode, hrestore, AST.forBlocks]
      rw [show n + (b.forBlocks + 1) = n + 1 + b.forBlocks by omega]
      rfl
    · rw [references_append, references_forHeader, references_forLoop, references_expression, href]
      simp [AST.occurrences]
  | some e =>
    obtain ⟨rest, hrest, href'⟩ := he e rfl false (n + 1 + b.forBlocks) Ls
    refine ⟨forHeader (n + 1) (Members.expression ⟨n + 1, shadowOf Ls⟩ i) true ++
      forLoop (n + 1) v.isSome true lines ++ forElse (n + 1) rest, ?_, ?_⟩
    · simp only [node]
      simp only [bind, Except.bind, hnode, hrestore, hrest, AST.forBlocks]
      rw [show n + (b.forBlocks + e.forBlocks + 1) = n + 1 + b.forBlocks + e.forBlocks by omega]
      rfl
    · rw [references_append, references_append, references_forHeader, references_forLoop,
        references_forElse, references_expression, href, href']
      simp [AST.occurrences]

theorem writesOccurrences (undefinedCheck : Bool) (a : AST) (h : a.IncludeFree) :
    WritesOccurrences undefinedCheck a := by
  induction a with
  | statements l ih =>
    exact writesOccurrences_statements fun s hs => ih s hs (AST.includeFree_of_mem h hs)
  | rawBlock t => exact fun _ n Ls => ⟨_, rfl, rfl⟩
  | printBlock e =>
    intro _ n Ls
    refine ⟨_, rfl, ?_⟩
    show references [_] = (e.occurrences Ls).map Occurrence.jsVar
    rw [← references_expression (n := n)]
    cases undefinedCheck <;> simp [references, lineReferences, JsExpression.references]
  | ifBlock c t e iht ihe =>
    cases e with
    | none => exact writesOccurrences_ifBlock (iht h) nofun
    | some e =>
      refine writesOccurrences_ifBlock (iht h.1) ?_
      rintro _ ⟨⟩
      exact ihe e rfl h.2
  | forBlock k v i b e ihb ihe =>
    cases e with
    | none => exact writesOccurrences_forBlock (ihb h) nofun
    | some e =>
      refine writesOccurrences_forBlock (ihb h.1) ?_
      rintro _ ⟨⟩
      exact ihe e rfl h.2
  | includeBlock x sc M => cases h

/-- The variables of the generated function are the occurrences of the tree. -/
theorem visit_occurrences {a : AST} (h : a.IncludeFree) : ∃ lines,
    visit undefinedCheck a = .ok lines ∧
      functionReferences lines = (a.occurrences 0 []).map Occurrence.jsVar := by
  obtain ⟨lines, hnode, href⟩ := writesOccurrences undefinedCheck a h false 0 []
  refine ⟨printHeader ++ lines.map .statement ++ printFooter, ?_, ?_⟩
  · unfold visit
    rw [show (⟨0, fun _ => none⟩ : Members) = ⟨0, shadowOf []⟩ from rfl, hnode]
    rfl
  · rw [← href]
    unfold functionReferences
    rw [List.flatMap_append, List.flatMap_append, List.flatMap_map]
    exact List.append_nil _

end

end JavascriptVisitor

end B2
