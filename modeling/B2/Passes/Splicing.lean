import B2.Memory.LinkedList
import B2.Passes.ResolveIncludes

/-!
# The splice loop

The loop of `ASTPass::statements` with its iterator, on a `Memory.LinkedList`.
It does what `spliceStatements` says (`splice_eq`) unless the first statement of
the list becomes a list without statements: then there is no cell before the one
that `erase` returns, and `--it` is not valid.
-/

namespace B2

open Memory (LinkedList Iterator)

/-- How the loop ends without a list. -/
inductive LoopFailure where
  /-- an operation on an iterator that is not valid for it -/
  | invalidIterator
  | thrown (failure : Failure)
  | outOfFuel
  deriving DecidableEq

/-- The result of an operation on an iterator. -/
def valid {α : Type} : Option α → Except LoopFailure α
  | some a => .ok a
  | none => .error .invalidIterator

def rethrow {α : Type} : Run α → Except LoopFailure α
  | .ok a => .ok a
  | .error failure => .error (.thrown failure)

/-- The loop over `childStatements`. -/
def insertStatements (l : LinkedList AST) (it : Iterator) :
    List AST → Except LoopFailure (LinkedList AST × Iterator)
  | [] => .ok (l, it)
  | childStatement :: childStatements => do
    let (l, it) ← valid (l.insert it childStatement)
    let it ← valid (l.next it)
    insertStatements l it childStatements

/-- The statements of a child in its place. -/
def mergeChild (l : LinkedList AST) (statementToRemove : Iterator) (childStatements : List AST) :
    Except LoopFailure (LinkedList AST × Iterator) := do
  let (l, _) ← insertStatements l statementToRemove childStatements
  let (l, it) ← valid (l.erase statementToRemove)
  let it ← valid (l.prev it)
  return (l, it)

/-- A statement that became a list is merged with its parent. -/
def mergeStatement (l : LinkedList AST) (it : Iterator) :
    AST → Except LoopFailure (LinkedList AST × Iterator)
  | .statements childStatements => mergeChild l it childStatements
  | _ => .ok (l, it)

/-- The body of the loop; `process` is the walk of a statement. -/
def visitStatement (process : AST → Run AST) (l : LinkedList AST) (it : Iterator) :
    Except LoopFailure (LinkedList AST × Iterator) := do
  let old_statement ← valid (l.get it)
  let new_statement ← rethrow (process old_statement)
  let l ← valid (l.set it new_statement)
  mergeStatement l it new_statement

def spliceLoop (process : AST → Run AST) :
    Nat → LinkedList AST → Iterator → Except LoopFailure (List AST)
  | 0, _, _ => .error .outOfFuel
  | fuel + 1, l, it =>
    if it = none then .ok l.values
    else do
      let (l, it) ← visitStatement process l it
      let it ← valid (l.next it)
      spliceLoop process fuel l it

/-- The loop visits every statement once. -/
def splice (process : AST → Run AST) (l : LinkedList AST) : Except LoopFailure (List AST) :=
  spliceLoop process (l.cells.length + 1) l l.begin

/-- The first statement becomes a list without statements. -/
def EmptiesFirst (process : AST → Run AST) : List AST → Prop
  | [] => False
  | statement :: _ => process statement = .ok (.statements [])

section

variable {process : AST → Run AST} {l : LinkedList AST} {done todo after : List (Nat × AST)}
  {i : Nat} {statement new_statement : AST}

/-- After the children are inserted the iterator is where it was, behind them. -/
theorem insertStatements_at (children : List AST) (h : l.At done i statement after) :
    ∃ l' cells, insertStatements l (some i) children = .ok (l', some i) ∧
      cells.map Prod.snd = children ∧ l'.At (done ++ cells) i statement after := by
  induction children generalizing l done with
  | nil => exact ⟨l, [], rfl, rfl, by rwa [List.append_nil]⟩
  | cons child children ih =>
    obtain ⟨l₁, j, hinsert, hbefore, hat⟩ := h.insert child
    obtain ⟨l₂, cells, hrest, hvalues, hat'⟩ := ih hat
    refine ⟨l₂, (j, child) :: cells, ?_, by rw [List.map_cons, hvalues], ?_⟩
    · rw [insertStatements, hinsert]
      simp only [valid, bind, Except.bind, hbefore.next]
      exact hrest
    · rwa [List.append_assoc] at hat'

/-- Merging a child leaves the iterator at the cell before the next one, if there is one. -/
theorem mergeChild_at (children : List AST) (h : l.At done i statement after) :
    ∃ l' cells, cells.map Prod.snd = children ∧ l'.cells = done ++ cells ++ after ∧
      mergeChild l (some i) children =
        (valid (LinkedList.last (done ++ cells))).map fun it => (l', it) := by
  obtain ⟨l₁, cells, hinsert, hvalues, hat⟩ := insertStatements_at children h
  obtain ⟨l₂, herase, hcells⟩ := hat.erase
  refine ⟨l₂, cells, hvalues, hcells, ?_⟩
  rw [mergeChild, hinsert]
  simp only [valid, bind, Except.bind, herase, LinkedList.prev_first hcells]
  cases LinkedList.last (done ++ cells) <;> rfl

theorem last_of_ne_nil {cells : List (Nat × AST)} (h : cells ≠ []) :
    ∃ before c, cells = before ++ [c] ∧ LinkedList.last cells = some (some c.1) := by
  obtain ⟨before, c, rfl⟩ := (List.eq_nil_or_concat' cells).resolve_left h
  exact ⟨before, c, rfl, by simp [LinkedList.last]⟩

theorem visitStatement_eq (h : l.At done i statement after)
    (hnew : process statement = .ok new_statement) :
    ∃ l', l'.At done i new_statement after ∧
      visitStatement process l (some i) = mergeStatement l' (some i) new_statement := by
  obtain ⟨l', hset, hat⟩ := h.set new_statement
  refine ⟨l', hat, ?_⟩
  unfold visitStatement
  simp only [h.get, valid, bind, Except.bind, hnew, rethrow, hset]

/-- The iterator behind a statement that was merged. -/
theorem mergeStatement_next (h : l.At done i new_statement after)
    (hfirst : done ≠ [] ∨ new_statement ≠ .statements []) :
    ∃ l' it done', mergeStatement l (some i) new_statement = .ok (l', it) ∧
      l'.next it = some (LinkedList.first after) ∧ l'.cells = done' ++ after ∧ done' ≠ [] ∧
        done'.map Prod.snd = done.map Prod.snd ++ new_statement.asStatements := by
  have hkept : (∀ children, new_statement ≠ .statements children) →
      mergeStatement l (some i) new_statement = .ok (l, some i) ∧
        new_statement.asStatements = [new_statement] := by
    intro hne
    cases new_statement with
    | statements children => exact absurd rfl (hne children)
    | _ => exact ⟨rfl, rfl⟩
  by_cases hlist : ∃ children, new_statement = .statements children
  · obtain ⟨children, rfl⟩ := hlist
    obtain ⟨l₁, cells, hvalues, hcells, hmerge⟩ := mergeChild_at children h
    have hne : done ++ cells ≠ [] := by
      intro hnil
      obtain ⟨rfl, rfl⟩ := List.append_eq_nil_iff.1 hnil
      obtain rfl : children = [] := hvalues.symm
      exact hfirst.elim (fun hd => hd rfl) fun hs => hs rfl
    obtain ⟨before, c, hsplit, hlast⟩ := last_of_ne_nil hne
    have hat : l₁.At before c.1 c.2 after := by
      refine LinkedList.at_first ?_
      rw [hcells, hsplit, List.append_assoc]
      rfl
    refine ⟨l₁, some c.1, done ++ cells, ?_, hat.next, hcells, hne, ?_⟩
    · show mergeChild l (some i) children = _
      rw [hmerge, hlast]
      rfl
    · rw [List.map_append, hvalues]
      rfl
  · obtain ⟨hmerge, has⟩ := hkept fun children heq => hlist ⟨children, heq⟩
    refine ⟨l, some i, done ++ [(i, new_statement)], hmerge, h.next, ?_, by simp, ?_⟩
    · rw [h.cells]
      simp
    · rw [List.map_append, has]
      rfl

/-- The rest of the loop, by induction on the cells that are left. -/
theorem spliceLoop_eq (fuel : Nat) : ∀ {l : LinkedList AST} {done todo : List (Nat × AST)},
    l.cells = done ++ todo → todo.length < fuel →
      (done = [] → ¬EmptiesFirst process (todo.map Prod.snd)) →
        spliceLoop process fuel l (LinkedList.first todo) =
          (rethrow (spliceStatements process (todo.map Prod.snd))).map
            fun statements => done.map Prod.snd ++ statements := by
  induction fuel with
  | zero => exact fun _ hlt => absurd hlt (Nat.not_lt_zero _)
  | succ fuel ih =>
    intro l done todo hcells hlt hfirst
    cases todo with
    | nil =>
      rw [spliceLoop]
      show Except.ok l.values = Except.ok (done.map Prod.snd ++ [])
      rw [LinkedList.values, hcells, List.append_nil, List.append_nil]
    | cons c todo =>
      obtain ⟨i, statement⟩ := c
      have hat : l.At done i statement todo := LinkedList.at_first hcells
      rw [spliceLoop, if_neg (by simp [LinkedList.first]), List.map_cons, spliceStatements]
      show (visitStatement process l (some i) >>= _) = _
      cases hnew : process statement with
      | error failure =>
        unfold visitStatement
        simp only [hat.get, valid, bind, Except.bind, hnew, rethrow, Except.map]
      | ok new_statement =>
        obtain ⟨l₁, hat₁, hvisit⟩ := visitStatement_eq hat hnew
        have hne : done ≠ [] ∨ new_statement ≠ .statements [] := by
          by_cases hdone : done = []
          · exact .inr fun heq => hfirst hdone (hnew.trans (congrArg _ heq))
          · exact .inl hdone
        obtain ⟨l₂, it, done', hmerge, hnext, hcells', hdone', hvalues⟩ :=
          mergeStatement_next hat₁ hne
        have hrest := ih hcells' (Nat.lt_of_succ_lt_succ hlt) fun hnil => absurd hnil hdone'
        rw [hvisit, hmerge]
        simp only [bind, Except.bind, hnext, valid, hrest, hvalues]
        cases spliceStatements process (todo.map Prod.snd) with
        | error failure => rfl
        | ok statements =>
          exact congrArg Except.ok (List.append_assoc _ _ _)

/-- The loop is `spliceStatements` where every operation on its iterator is valid. -/
theorem splice_eq (h : ¬EmptiesFirst process l.values) :
    splice process l = rethrow (spliceStatements process l.values) := by
  unfold splice LinkedList.begin
  have hcells : l.cells = [] ++ l.cells := rfl
  rw [spliceLoop_eq _ hcells (Nat.lt_succ_self _) fun _ => h]
  show (rethrow (spliceStatements process l.values)).map (fun statements => statements) = _
  cases rethrow (spliceStatements process l.values) <;> rfl

/-- The step back from the first cell. -/
theorem splice_of_emptiesFirst (h : EmptiesFirst process l.values) :
    splice process l = .error .invalidIterator := by
  unfold LinkedList.values at h
  unfold splice LinkedList.begin
  cases hcells : l.cells with
  | nil =>
    rw [hcells] at h
    exact h.elim
  | cons c todo =>
    rw [hcells] at h
    obtain ⟨i, statement⟩ := c
    have hnew : process statement = .ok (.statements []) := h
    have hat : l.At [] i statement todo := ⟨hcells⟩
    obtain ⟨l₁, hat₁, hvisit⟩ := visitStatement_eq hat hnew
    obtain ⟨l₂, cells, hvalues, -, hmerge⟩ := mergeChild_at [] hat₁
    obtain rfl := List.map_eq_nil_iff.1 hvalues
    have hmerged : mergeStatement l₁ (some i) (.statements []) = .error .invalidIterator := hmerge
    rw [List.length_cons, spliceLoop, if_neg (by simp [LinkedList.first])]
    show (visitStatement process l (some i) >>= _) = _
    rw [hvisit, hmerged]
    rfl

theorem splice_ne_invalidIterator_iff :
    splice process l ≠ .error .invalidIterator ↔ ¬EmptiesFirst process l.values := by
  constructor
  · exact fun h hempties => h (splice_of_emptiesFirst hempties)
  · intro h
    rw [splice_eq h]
    cases spliceStatements process l.values <;> simp [rethrow]

end

/-! ## Walks -/

/-- The nodes on which the walker dispatches again if a pass changed their class. -/
def hasBodies : AST → Bool
  | .statements _ | .ifBlock .. | .forBlock .. => true
  | _ => false

def sameClass : AST → AST → Bool
  | .statements _, .statements _ | .ifBlock .., .ifBlock .. | .forBlock .., .forBlock .. => true
  | _, _ => false

/-- The bodies that the walker goes into, in their order. -/
def bodies : AST → List AST
  | .ifBlock _ t e => t :: e.toList
  | .forBlock _ _ _ b e => b :: e.toList
  | _ => []

/-- `RunsLoop p n a m l`: a walk of `a` runs the loop on a list with the values `l`, and walks its
statements with the bound `m`. -/
inductive RunsLoop (p : ASTPass) : Nat → AST → Nat → List AST → Prop
  | here {n l₀ l} (h : p.processNode (p.process n) (.statements l₀) = .ok (.statements l)) :
      RunsLoop p (n + 1) (.statements l₀) n l
  | statement {n l₀ before s after m l}
      (h : p.processNode (p.process n) (.statements l₀) = .ok (.statements (before ++ s :: after)))
      (hbefore : ∀ s' ∈ before, ∃ r, p.process n s' = .ok r) (hs : RunsLoop p n s m l) :
      RunsLoop p (n + 1) (.statements l₀) m l
  | body {n a new_ast before b after m l} (h : p.processNode (p.process n) a = .ok new_ast)
      (hclass : sameClass a new_ast = true) (hb : bodies new_ast = before ++ b :: after)
      (hbefore : ∀ b' ∈ before, ∃ r, p.process n b' = .ok r) (hrun : RunsLoop p n b m l) :
      RunsLoop p (n + 1) a m l
  | again {n a new_ast m l} (h : p.processNode (p.process n) a = .ok new_ast)
      (ha : hasBodies a = true) (hclass : sameClass a new_ast = false)
      (hrun : RunsLoop p n new_ast m l) : RunsLoop p (n + 1) a m l

/-- In a walk of a tree every operation on the iterator of a loop is valid. -/
def IteratorsValid (p : ASTPass) (a : AST) : Prop :=
  ∀ n m l, RunsLoop p n a m l → ∀ cells : LinkedList AST, cells.values = l →
    splice (p.process m) cells ≠ .error .invalidIterator

/-- The iterators of a walk are valid exactly if no list that it comes to begins with a statement
that the pass makes a list without statements. -/
theorem iteratorsValid_iff (p : ASTPass) (a : AST) :
    IteratorsValid p a ↔ ∀ n m l, RunsLoop p n a m l → ¬EmptiesFirst (p.process m) l := by
  constructor
  · intro hvalid n m l hrun
    have hsplice := hvalid n m l hrun (.ofList l) (LinkedList.values_ofList l)
    rw [splice_ne_invalidIterator_iff, LinkedList.values_ofList] at hsplice
    exact hsplice
  · intro h n m l hrun cells hvalues
    rw [splice_ne_invalidIterator_iff, hvalues]
    exact h n m l hrun

/-- Every file is empty. -/
def emptyFiles : IncludeContext := ⟨[], fun _ => .ok (.statements [])⟩

/-- `{% include "a" %}b` -/
def includeFirst : AST := .statements [.includeBlock ['a'] none .empty, .rawBlock ['b']]

/-- The tree of the empty file is merged with the list that it comes first in. -/
theorem not_iteratorsValid_includeFirst :
    ¬IteratorsValid emptyFiles.resolveIncludesPass includeFirst := by
  intro hvalid
  have hrun : RunsLoop emptyFiles.resolveIncludesPass 3 includeFirst 2
      [.includeBlock ['a'] none .empty, .rawBlock ['b']] := .here rfl
  have hempties : EmptiesFirst (emptyFiles.resolveIncludesPass.process 2)
      [.includeBlock ['a'] none .empty, .rawBlock ['b']] := rfl
  refine hvalid 3 2 _ hrun (.ofList _) (LinkedList.values_ofList _) (splice_of_emptiesFirst ?_)
  rwa [LinkedList.values_ofList]

end B2
