import B2.Ast.Expression

/-!
# Template trees

The tree of `ast.hpp`. The `with` mapping of an include block is a
`StringExpressionMap`, an association list that carries the uniqueness of its
keys. The loop variables of a for block are the `variableName`s of its
`VariableReferenceExpression` fields, either of which may be absent.
-/

namespace B2

/-- `std::unordered_map<std::string, std::unique_ptr<Expression>>`. -/
structure StringExpressionMap where
  entries : List (Text × Expression)
  nodup : (entries.map Prod.fst).Nodup

namespace StringExpressionMap

def empty : StringExpressionMap := ⟨[], by simp⟩

def find (M : StringExpressionMap) (x : Text) : Option Expression :=
  (M.entries.find? (·.1 = x)).map Prod.snd

/-- `(*map)[key] = value`. -/
def insert (M : StringExpressionMap) (key : Text) (value : Expression) : StringExpressionMap where
  entries := M.entries.filter (·.1 ≠ key) ++ [(key, value)]
  nodup := by
    have hsub : ((M.entries.filter (·.1 ≠ key)).map Prod.fst).Nodup :=
      M.nodup.sublist (List.filter_sublist.map _)
    rw [List.map_append, List.nodup_append]
    refine ⟨hsub, by simp, ?_⟩
    simp only [List.mem_map, List.mem_filter, List.map_cons, List.map_nil, List.mem_singleton]
    rintro _ ⟨p, ⟨-, hp⟩, rfl⟩ _ rfl
    simpa using hp

/-- `f` on every value, the keys kept. -/
def mapEntries (f : Expression → Run Expression) : (l : List (Text × Expression)) →
    Run {l' : List (Text × Expression) // l'.map Prod.fst = l.map Prod.fst}
  | [] => .ok ⟨[], rfl⟩
  | (x, e) :: l => do
    let e' ← f e
    let l' ← mapEntries f l
    return ⟨(x, e') :: l'.1, by simp [l'.2]⟩

def mapValues (f : Expression → Run Expression) (M : StringExpressionMap) :
    Run StringExpressionMap := do
  let l ← mapEntries f M.entries
  return ⟨l.1, by rw [l.2]; exact M.nodup⟩

end StringExpressionMap

inductive AST where
  | statements (statements : List AST)
  | rawBlock (text : Text)
  | printBlock (expr : Expression)
  | ifBlock (condition : Expression) (thenBody : AST) (elseBody : Option AST)
  | forBlock (keyVariable valueVariable : Option Text) (iterable : Expression) (body : AST)
      (elseBody : Option AST)
  | includeBlock (includeName : Text) (scope : Option Expression)
      (variableMapping : StringExpressionMap)

namespace AST

/-- `from_statements_array`, and the last step of `ASTPass::statements`: a list of
one statement is that statement. -/
def fromStatementsArray : List AST → AST
  | [a] => a
  | l => .statements l

/-- The statements a node contributes to the list it is merged into. -/
def asStatements : AST → List AST
  | .statements l => l
  | a => [a]

/-- Structural induction; the statements of a list are met one by one. -/
@[elab_as_elim, induction_eliminator]
theorem ind {motive : AST → Prop}
    (statements : ∀ l, (∀ s ∈ l, motive s) → motive (.statements l))
    (rawBlock : ∀ t, motive (.rawBlock t))
    (printBlock : ∀ e, motive (.printBlock e))
    (ifBlock : ∀ c t e, motive t → (∀ b, e = some b → motive b) → motive (.ifBlock c t e))
    (forBlock : ∀ k v i b e, motive b → (∀ b', e = some b' → motive b') →
      motive (.forBlock k v i b e))
    (includeBlock : ∀ n s M, motive (.includeBlock n s M)) : ∀ a, motive a := by
  intro a
  refine AST.rec (motive_1 := motive) (motive_2 := fun l => ∀ s ∈ l, motive s)
    (motive_3 := fun e => ∀ b, e = some b → motive b) statements rawBlock printBlock ifBlock
    forBlock includeBlock ?_ ?_ ?_ ?_ a
  · intro s h; cases h
  · intro s l hs hl s' h
    rcases List.mem_cons.1 h with rfl | h
    · exact hs
    · exact hl s' h
  · intro b h; cases h
  · intro b hb b' h; cases h; exact hb

mutual

/-- The tree holds no include block. -/
def IncludeFree : AST → Prop
  | .statements l => IncludeFreeList l
  | .rawBlock _ | .printBlock _ => True
  | .ifBlock _ t none => t.IncludeFree
  | .ifBlock _ t (some e) => t.IncludeFree ∧ e.IncludeFree
  | .forBlock _ _ _ b none => b.IncludeFree
  | .forBlock _ _ _ b (some e) => b.IncludeFree ∧ e.IncludeFree
  | .includeBlock .. => False

def IncludeFreeList : List AST → Prop
  | [] => True
  | s :: l => s.IncludeFree ∧ IncludeFreeList l

end

theorem includeFree_of_mem {s : AST} : ∀ {l : List AST}, IncludeFreeList l → s ∈ l →
    s.IncludeFree
  | s' :: l, h, hs => by
    rcases List.mem_cons.1 hs with rfl | hs
    · exact h.1
    · exact includeFree_of_mem h.2 hs

mutual

/-- A bound on the nesting of calls that walk the tree and its expressions. -/
def depth : AST → Nat
  | .statements l => listDepth l + 1
  | .rawBlock _ => 1
  | .printBlock _ => 1
  | .ifBlock _ t none => t.depth + 1
  | .ifBlock _ t (some e) => max t.depth e.depth + 1
  | .forBlock _ _ _ b none => b.depth + 1
  | .forBlock _ _ _ b (some e) => max b.depth e.depth + 1
  | .includeBlock .. => 1

def listDepth : List AST → Nat
  | [] => 0
  | s :: l => max s.depth (listDepth l)

end

end AST

end B2
