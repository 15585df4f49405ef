import B2.Ast.Ast

/-!
# Occurrences of variables

Which for block an occurrence of a variable belongs to. For blocks are numbered
in the order of the text, from 0. An occurrence comes with the for blocks whose
bodies contain it; the innermost of them that binds the name gives it its
meaning, and the value wins over the key. Iterables and else bodies are outside.
-/

namespace B2

/-- A for block: its number and its variables. -/
structure Loop where
  number : Nat
  key : Option Text
  value : Option Text

/-- The key or the value of a for block. -/
inductive Binding where
  | key (loop : Nat)
  | value (loop : Nat)
  deriving DecidableEq

/-- What a name means in the body of one for block. -/
def Loop.binding (L : Loop) (x : Text) : Option Binding :=
  if L.value = some x then some (.value L.number)
  else if L.key = some x then some (.key L.number) else none

/-- An occurrence of a variable, with the for blocks around it from the inside out. -/
structure Occurrence where
  name : Text
  loops : List Loop

/-- The variable of a for block that is meant, or none. -/
def Occurrence.binding (o : Occurrence) : Option Binding :=
  o.loops.findSome? fun L => L.binding o.name

/-- The occurrences in an expression. -/
def Expr.occurrences (Ls : List Loop) (e : Expression) : List Occurrence :=
  e.references.map (⟨·, Ls⟩)

namespace AST

/-- The number of for blocks. -/
def forBlocks : AST → Nat
  | .statements l => forBlocksList l
  | .rawBlock _ | .printBlock _ | .includeBlock .. => 0
  | .ifBlock _ t none => t.forBlocks
  | .ifBlock _ t (some e) => t.forBlocks + e.forBlocks
  | .forBlock _ _ _ b none => b.forBlocks + 1
  | .forBlock _ _ _ b (some e) => b.forBlocks + e.forBlocks + 1
where
  forBlocksList : List AST → Nat
    | [] => 0
    | s :: l => s.forBlocks + forBlocksList l

/-- The occurrences in a tree in the order of the text; `n` is the number of its first for
block. -/
def occurrences (n : Nat) (Ls : List Loop) : AST → List Occurrence
  | .statements l => occurrencesList n Ls l
  | .rawBlock _ | .includeBlock .. => []
  | .printBlock e => e.occurrences Ls
  | .ifBlock c t none => c.occurrences Ls ++ t.occurrences n Ls
  | .ifBlock c t (some e) =>
    c.occurrences Ls ++ t.occurrences n Ls ++ e.occurrences (n + t.forBlocks) Ls
  | .forBlock k v i b none => i.occurrences Ls ++ b.occurrences (n + 1) (⟨n, k, v⟩ :: Ls)
  | .forBlock k v i b (some e) =>
    i.occurrences Ls ++ b.occurrences (n + 1) (⟨n, k, v⟩ :: Ls) ++
      e.occurrences (n + 1 + b.forBlocks) Ls
where
  occurrencesList (n : Nat) (Ls : List Loop) : List AST → List Occurrence
    | [] => []
    | s :: l => s.occurrences n Ls ++ occurrencesList (n + s.forBlocks) Ls l

end AST

/-- One for block more around an occurrence. -/
theorem Occurrence.binding_cons (x : Text) (L : Loop) (Ls : List Loop) :
    (⟨x, L :: Ls⟩ : Occurrence).binding = (L.binding x).or (⟨x, Ls⟩ : Occurrence).binding := by
  unfold binding
  rw [List.findSome?_cons]
  cases L.binding x <;> rfl

end B2
