import B2.Passes.NormalForm
import B2.Passes.Nodes

/-!
# Who releases an included tree

Every node of a file is released once or is part of the result (`Accounted.balance`),
as long as `replaceVariableReferences` finds what it looks for. Where it does not, the
`PassManager` deletes the tree that `includeAST` owns as well (`Accounted.twice`).
That a root is replaced in the second walk, after which both would delete the old one
too, never happens: the first walk has merged the tree already.
-/

namespace B2

open Effect (Traced)
open Effect.Traced (Sat)

def Event.ids : Event → List Nat
  | .released ids => ids
  | .replaces .. => []

def released (l : List Event) : List Nat := l.flatMap Event.ids

/-- There is a replacement for every reference. -/
def Event.Covered : Event → Prop
  | .released _ => True
  | .replaces references replacements => ∀ x ∈ references, replacements.find x ≠ none

def Covered (l : List Event) : Prop := ∀ e ∈ l, e.Covered

namespace Node

def idsOption : Option Node → List Nat
  | none => []
  | some t => t.ids

end Node

namespace Walked

/-- The nodes that are neither released nor lost. -/
def held : Walked → List Nat
  | .returned left t => Node.idsOption left ++ t.ids
  | .thrown t _ => t.ids

def IsThrown : Walked → Prop
  | .returned .. => False
  | .thrown .. => True

/-- The nodes of the tree that is returned. -/
def result : Walked → List Nat
  | .returned _ t => t.ids
  | .thrown .. => []

def Normal : Walked → Prop
  | .returned _ t => t.erase.Normal
  | .thrown .. => True

end Walked

namespace WalkedList

def held : WalkedList → List Nat
  | .returned l | .thrown l _ => Node.idsList l

def IsThrown : WalkedList → Prop
  | .returned .. => False
  | .thrown .. => True

def Normal : WalkedList → Prop
  | .returned l => AST.NormalList (Node.eraseList l)
  | .thrown .. => True

end WalkedList

/-- The new nodes from `first` on are released at most once, and once if they are not part of the
result. -/
structure ReleasedOnce (first next : Nat) (l : List Event) (w : Walked) : Prop where
  atMost : ∀ id, first ≤ id → id < next → (released l).count id ≤ 1
  exactly : ∀ id, first ≤ id → id < next → id ∉ w.result → (released l).count id = 1

/-! ## The balance of a run -/

/-- How often a node is new in a run. -/
def fresh (s s' id : Nat) : Nat := if s ≤ id ∧ id < s' then 1 else 0

/-- What happens to nodes and to the new ones in a run: `held` remain. -/
structure Accounted (ids : List Nat) (s : Nat) (l : List Event) (s' : Nat) (held : List Nat)
    (isThrown : Prop) : Prop where
  le : s ≤ s'
  balance : Covered l → ∀ id,
    (released l).count id + held.count id = ids.count id + fresh s s' id
  twice : ¬Covered l → isThrown ∧ ∃ id, s ≤ id ∧ id < s' ∧ 2 ≤ (released l).count id

section

variable {ids ids' mid held held' : List Nat} {s s' s'' : Nat} {l l' : List Event}
  {isThrown isThrown' : Prop}

theorem fresh_add (h : s ≤ s') (h' : s' ≤ s'') (id : Nat) :
    fresh s s' id + fresh s' s'' id = fresh s s'' id := by
  unfold fresh
  split_ifs <;> omega

theorem fresh_self (id : Nat) : fresh s s id = 0 := if_neg (by omega)

theorem released_append : released (l ++ l') = released l ++ released l' := List.flatMap_append

theorem covered_append : Covered (l ++ l') ↔ Covered l ∧ Covered l' := List.forall_mem_append

theorem covered_nil : Covered [] := nofun

theorem Accounted.refl : Accounted ids s [] s ids isThrown where
  le := le_rfl
  balance _ id := by simp [released, fresh_self]
  twice h := absurd covered_nil h

theorem Accounted.congr (h : Accounted ids s l s' held isThrown)
    (hids : ∀ id, ids.count id = ids'.count id) (hheld : ∀ id, held.count id = held'.count id) :
    Accounted ids' s l s' held' isThrown where
  le := h.le
  balance hl id := by rw [← hids, ← hheld, h.balance hl id]
  twice := h.twice

theorem Accounted.weaken (h : Accounted ids s l s' held isThrown) (hthrown : isThrown → isThrown') :
    Accounted ids s l s' held isThrown' where
  le := h.le
  balance := h.balance
  twice hl := (h.twice hl).imp_left hthrown

/-- Other nodes do not matter. -/
theorem Accounted.frame (h : Accounted ids s l s' held isThrown) (others : List Nat) :
    Accounted (ids ++ others) s l s' (held ++ others) isThrown where
  le := h.le
  balance hl id := by
    have hid := h.balance hl id
    simp only [List.count_append]
    omega
  twice := h.twice

theorem Accounted.covered (h : Accounted ids s l s' held False) : Covered l := by
  by_contra hl
  exact (h.twice hl).1

/-- One run after another that returned. -/
theorem Accounted.andThen (h : Accounted ids s l s' mid False)
    (h' : Accounted mid s' l' s'' held isThrown) :
    Accounted ids s (l ++ l') s'' held isThrown where
  le := h.le.trans h'.le
  balance hl id := by
    have h₁ := h.balance h.covered id
    have h₂ := h'.balance (covered_append.1 hl).2 id
    have hadd := fresh_add h.le h'.le id
    rw [released_append, List.count_append]
    omega
  twice hl := by
    have hl' : ¬Covered l' := fun hl' => hl (covered_append.2 ⟨h.covered, hl'⟩)
    obtain ⟨hthrown, id, hs, hs', hcount⟩ := h'.twice hl'
    refine ⟨hthrown, id, h.le.trans hs, hs', ?_⟩
    rw [released_append, List.count_append]
    omega

/-- What is released after a run that has failed. -/
theorem Accounted.release_after (h : Accounted ids s l s' (held ++ held') isThrown) :
    Accounted ids s (l ++ [.released held]) s' held' isThrown where
  le := h.le
  balance hl id := by
    have hid := h.balance (covered_append.1 hl).1 id
    simp only [released, List.flatMap_append, List.flatMap_cons, List.flatMap_nil, Event.ids,
      List.append_nil, List.count_append] at hid ⊢
    omega
  twice hl := by
    have hl' : ¬Covered l := fun h => hl (covered_append.2 ⟨h, List.forall_mem_singleton.2 trivial⟩)
    obtain ⟨hthrown, id, hs, hs', hcount⟩ := h.twice hl'
    refine ⟨hthrown, id, hs, hs', ?_⟩
    rw [released_append, List.count_append]
    omega

end

/-! ## Runs -/

/-- What a run from `s` does to nodes. -/
def Accounts {α : Type} (m : Walk α) (ids : List Nat) (held : α → List Nat) (isThrown : α → Prop)
    (P : α → Prop) : Prop :=
  ∀ s, Sat m s (fun l s' a => Accounted ids s l s' (held a) (isThrown a) ∧ P a) fun _ _ _ => True

section

variable {α β : Type} {m : Walk α} {ids : List Nat} {held : α → List Nat} {isThrown P : α → Prop}
  {f : α → Walk β} {held' : β → List Nat} {isThrown' P' : β → Prop}

theorem accounts_pure {a : α} (hheld : ∀ id, ids.count id = (held a).count id) (hP : P a) :
    Accounts (pure a : Walk α) ids held isThrown P := fun _ =>
  ⟨Accounted.refl.congr (fun _ => rfl) hheld, hP⟩

theorem accounts_throw {failure : Failure} :
    Accounts (Traced.throw failure : Walk α) ids held isThrown P := fun _ => trivial

/-- What is left of a part that returns is what the rest has to do with. After one that throws
nothing else is left to do, or to be released. -/
theorem Accounts.bind (h : Accounts m ids held isThrown P)
    (hok : ∀ a, ¬isThrown a → P a → Accounts (f a) (held a) held' isThrown' P')
    (hthrown : ∀ a, isThrown a → ∀ s l s', Accounted ids s l s' (held a) True →
      Sat (f a) s' (fun l' s'' b => Accounted ids s (l ++ l') s'' (held' b) (isThrown' b) ∧ P' b)
        fun _ _ _ => True) :
    Accounts (m >>= f) ids held' isThrown' P' := by
  intro s
  refine (h s).bind (fun l s' a ha => ?_) fun _ _ _ => id
  by_cases ht : isThrown a
  · exact hthrown a ht s l s' (ha.1.weaken fun _ => trivial)
  · refine (hok a ht ha.2 s').mono (fun l' s'' b hb => ?_) fun _ _ _ => id
    exact ⟨(ha.1.weaken ht).andThen hb.1, hb.2⟩

/-- After a part that cannot throw. -/
theorem Accounts.before (h : Accounts m ids held (fun _ => False) P)
    (hf : ∀ a, P a → Accounts (f a) (held a) held' isThrown' P') :
    Accounts (m >>= f) ids held' isThrown' P' :=
  h.bind (fun a _ => hf a) fun _ h => h.elim

theorem Accounts.congr {ids' : List Nat} (h : Accounts m ids held isThrown P)
    (hids : ∀ id, ids.count id = ids'.count id) : Accounts m ids' held isThrown P := fun s =>
  (h s).mono (fun _ _ _ ha => ⟨ha.1.congr hids fun _ => rfl, ha.2⟩) fun _ _ _ => id

theorem Accounts.frame (h : Accounts m ids held isThrown P) (others : List Nat) :
    Accounts m (ids ++ others) (fun a => held a ++ others) isThrown P := fun s =>
  (h s).mono (fun _ _ _ ha => ⟨ha.1.frame others, ha.2⟩) fun _ _ _ => id

theorem accounts_release (t : Node) :
    Accounts (release t) t.ids (fun _ => []) (fun _ => False) fun _ => True := by
  intro s
  have hbefore : Accounted t.ids s [] s (t.ids ++ []) False :=
    Accounted.refl.congr (fun _ => rfl) fun _ => by rw [List.append_nil]
  exact ⟨hbefore.release_after, trivial⟩

theorem accounts_reset (left : Option Node) :
    Accounts (reset left) (Node.idsOption left) (fun _ => []) (fun _ => False) fun _ => True := by
  cases left with
  | none => exact accounts_pure (fun _ => rfl) trivial
  | some t => exact accounts_release t

end

/-! ## Walks -/

section

variable {process : Node → Walk Walked}

theorem Node.count_idsList_append (l l' : List Node) (id : Nat) :
    (Node.idsList (l ++ l')).count id = (Node.idsList l).count id + (Node.idsList l').count id := by
  induction l with
  | nil => simp [Node.idsList]
  | cons t l ih =>
    simp only [List.cons_append, Node.idsList, List.count_append, ih]
    omega

/-- A node that is merged into a list. -/
theorem Node.count_ids_merge (t : Node) (id : Nat) :
    t.ids.count id = (Node.idsOption t.shell).count id + (Node.idsList t.asStatements).count id := by
  cases t <;>
    simp [Node.shell, Node.asStatements, Node.idsOption, Node.ids, Node.idsList, List.count_cons,
      Nat.add_comm]

/-- The walk of a node accounts for its nodes. -/
def WalksAll (process : Node → Walk Walked) : Prop :=
  ∀ t, Accounts (process t) t.ids Walked.held Walked.IsThrown Walked.Normal

/-- An exception that goes on. -/
theorem accounted_thrown {α : Type} {a : α} {held : α → List Nat} {isThrown P : α → Prop}
    {ids mid : List Nat} {s s' : Nat} {l : List Event} (h : Accounted ids s l s' mid True)
    (hheld : ∀ id, mid.count id = (held a).count id) (hthrown : isThrown a) (hP : P a) :
    Sat (pure a : Walk α) s' (fun l' s'' b => Accounted ids s (l ++ l') s'' (held b) (isThrown b) ∧ P b)
      fun _ _ _ => True := by
  refine Effect.Traced.sat_pure.2 ⟨?_, hP⟩
  rw [List.append_nil]
  exact (h.congr (fun _ => rfl) hheld).weaken fun _ => hthrown

theorem walkStatements_accounts (hprocess : WalksAll process) (l : List Node) :
    Accounts (walkStatements process l) (Node.idsList l) WalkedList.held WalkedList.IsThrown
      WalkedList.Normal := by
  induction l with
  | nil => exact accounts_pure (fun _ => rfl) trivial
  | cons statement l ih =>
    refine ((hprocess statement).frame (Node.idsList l)).bind (fun w hw hnormal => ?_)
      fun w hw s lo s' h => ?_
    · cases w with
      | thrown t failure => exact absurd trivial hw
      | returned left t =>
        have hmerge := Node.count_ids_merge t
        have hfirst := (accounts_reset left).frame (t.ids ++ Node.idsList l)
        refine (hfirst.congr fun id => ?_).before fun _ _ => ?_
        · simp only [Walked.held, List.count_append]
          omega
        have hshell := (accounts_reset t.shell).frame (Node.idsList t.asStatements ++ Node.idsList l)
        refine (hshell.congr fun id => ?_).before fun _ _ => ?_
        · simp only [List.count_append, List.count_nil, hmerge]
          omega
        have hrest := ih.frame (Node.idsList t.asStatements)
        refine (hrest.congr fun id => ?_).bind (fun w hw hrest => ?_) fun w hw s lo s' h => ?_
        · simp only [List.count_append, List.count_nil]
          omega
        · cases w with
          | thrown l failure => exact absurd trivial hw
          | returned l =>
            refine accounts_pure (fun id => ?_) ?_
            · simp only [WalkedList.held, List.count_append, Node.count_idsList_append]
              omega
            · show AST.NormalList _
              rw [Node.eraseList_append, Node.eraseList_asStatements]
              exact AST.normalList_append.2 ⟨AST.normalList_asStatements hnormal, hrest⟩
        · cases w with
          | returned l => exact hw.elim
          | thrown l failure =>
            refine accounted_thrown h (fun id => ?_) trivial trivial
            simp only [WalkedList.held, List.count_append, Node.count_idsList_append]
            omega
    · cases w with
      | returned left t => exact hw.elim
      | thrown t failure =>
        exact accounted_thrown h (fun id => rfl) trivial trivial

theorem walkBodies_accounts (hprocess : WalksAll process) {node : Node → Option Node → Node}
    {own : List Nat}
    (hids : ∀ b e id, (node b e).ids.count id =
      own.count id + (b.ids.count id + (Node.idsOption e).count id))
    (hnormal : ∀ b e, b.erase.Normal → (∀ e', e = some e' → e'.erase.Normal) →
      (node b e).erase.Normal) (body : Node) (elseBody : Option Node) :
    Accounts (walkBodies process node body elseBody) (node body elseBody).ids Walked.held
      Walked.IsThrown Walked.Normal := by
  have hbody := (hprocess body).frame (own ++ Node.idsOption elseBody)
  refine (hbody.congr fun id => ?_).bind (fun w hw hb => ?_) fun w hw s lo s' h => ?_
  · simp only [List.count_append, hids]
    omega
  · cases w with
    | thrown t failure => exact absurd trivial hw
    | returned left body =>
      have hreset := (accounts_reset left).frame (body.ids ++ (own ++ Node.idsOption elseBody))
      refine (hreset.congr fun id => ?_).before fun _ _ => ?_
      · simp only [Walked.held, List.count_append]
        omega
      cases elseBody with
      | none =>
        refine accounts_pure (fun id => ?_) (hnormal body none hb nofun)
        simp only [Walked.held, Node.idsOption, List.count_append, List.count_nil, hids]
        omega
      | some elseBody =>
        have helse := (hprocess elseBody).frame (own ++ body.ids)
        refine (helse.congr fun id => ?_).bind (fun w hw he => ?_) fun w hw s lo s' h => ?_
        · simp only [Node.idsOption, List.count_append, List.count_nil]
          omega
        · cases w with
          | thrown t failure => exact absurd trivial hw
          | returned left elseBody =>
            have hreset := (accounts_reset left).frame (elseBody.ids ++ (own ++ body.ids))
            refine (hreset.congr fun id => ?_).before fun _ _ => ?_
            · simp only [Walked.held, List.count_append]
              omega
            refine accounts_pure (fun id => ?_) (hnormal body (some elseBody) hb ?_)
            · simp only [Walked.held, Node.idsOption, List.count_append, List.count_nil, hids]
              omega
            · intro e' he'
              cases he'
              exact he
        · cases w with
          | returned left t => exact hw.elim
          | thrown elseBody failure =>
            refine accounted_thrown h (fun id => ?_) trivial trivial
            simp only [Walked.held, Node.idsOption, List.count_append, hids]
            omega
  · cases w with
    | returned left t => exact hw.elim
    | thrown body failure =>
      refine accounted_thrown h (fun id => ?_) trivial trivial
      simp only [Walked.held, List.count_append, hids]
      omega

theorem raise_accounts (t : Node) (failure : Failure) :
    Accounts (raise t failure) t.ids Walked.held Walked.IsThrown Walked.Normal := by
  unfold raise
  split_ifs
  · exact accounts_pure (fun _ => rfl) trivial
  · exact accounts_throw

/-- A pass accounts for the nodes of a tree if it does for those of include blocks. -/
theorem NodePass.process_accounts {p : NodePass}
    (hinclude : ∀ process, WalksAll process → ∀ id name scope M,
      Accounts (p.includeBlock process id name scope M) [id] Walked.held Walked.IsThrown
        Walked.Normal) : ∀ n, WalksAll (p.process n)
  | 0, t => accounts_throw
  | n + 1, .rawBlock id t => accounts_pure (fun _ => rfl) trivial
  | n + 1, .includeBlock id name scope M =>
    hinclude _ (process_accounts hinclude n) id name scope M
  | n + 1, .printBlock id e => by
    unfold process
    cases p.expression e with
    | error failure => exact raise_accounts _ failure
    | ok e => exact accounts_pure (fun _ => rfl) trivial
  | n + 1, .statements id l => by
    have hl := (walkStatements_accounts (process_accounts hinclude n) l).frame [id]
    unfold process
    refine (hl.congr fun i => ?_).bind (fun w hw hl => ?_) fun w hw s lo s' h => ?_
    · simp only [Node.ids, List.count_append, List.count_cons, List.count_nil]
      omega
    · cases w with
      | thrown l failure => exact absurd trivial hw
      | returned l =>
        have hnormal := AST.normal_fromStatementsArray (show AST.NormalList _ from hl)
        match l with
        | [] | _ :: _ :: _ =>
          refine accounts_pure (fun i => ?_) hnormal
          simp only [WalkedList.held, Walked.held, Node.idsOption, Node.ids, List.count_append,
            List.count_cons, List.count_nil]
          omega
        | [t] =>
          refine accounts_pure (fun i => ?_) hnormal
          simp only [WalkedList.held, Walked.held, Node.idsOption, Node.ids, Node.idsList,
            List.count_append, List.count_cons, List.count_nil]
          omega
    · cases w with
      | returned l => exact hw.elim
      | thrown l failure =>
        refine accounted_thrown h (fun i => ?_) trivial trivial
        simp only [WalkedList.held, Walked.held, Node.ids, List.count_append, List.count_cons,
          List.count_nil]
        omega
  | n + 1, .ifBlock id c t e => by
    unfold process
    cases p.expression c with
    | error failure => exact raise_accounts _ failure
    | ok c' =>
      have hids : ∀ (c : Expression) b e i, (Node.ifBlock id c b e).ids.count i =
          [id].count i + (b.ids.count i + (Node.idsOption e).count i) := by
        intro c b e i
        cases e <;> simp [Node.ids, Node.idsOption, List.count_cons, Nat.add_comm]
      refine Accounts.congr (walkBodies_accounts (process_accounts hinclude n) (hids c') ?_ t e)
        fun i => by rw [hids, hids]
      intro b e hb he
      cases e with
      | none => exact hb
      | some e => exact ⟨hb, he e rfl⟩
  | n + 1, .forBlock id k v i b e => by
    unfold process
    cases p.expression i with
    | error failure => exact raise_accounts _ failure
    | ok i' =>
      have hids : ∀ (i : Expression) b e j, (Node.forBlock id k v i b e).ids.count j =
          [id].count j + (b.ids.count j + (Node.idsOption e).count j) := by
        intro i b e j
        cases e <;> simp [Node.ids, Node.idsOption, List.count_cons, Nat.add_comm]
      refine Accounts.congr (walkBodies_accounts (process_accounts hinclude n) (hids i') ?_ b e)
        fun j => by rw [hids, hids]
      intro b e hb he
      cases e with
      | none => exact hb
      | some e => exact ⟨hb, he e rfl⟩

end

/-! ## The second walk -/

/-- A run over the names that finds all of them, or throws because of one that it does not find. -/
structure Answers {α : Type} (x : Run α) (names : List Text) (ok : Text → Prop) : Prop where
  found : ∀ a, x = .ok a → ∀ name ∈ names, ok name
  missing : ∀ failure, x = .error failure → failure.isException = true → ∃ name ∈ names, ¬ok name

section

variable {α β : Type} {x : Run α} {f : α → Run β} {names names' : List Text} {ok : Text → Prop}

theorem answers_ok {a : α} : Answers (.ok a) [] ok := ⟨nofun, nofun⟩

theorem answers_undefined {behaviour : Undefined} :
    Answers (.error (.undefined behaviour) : Run α) names ok :=
  ⟨nofun, fun _ h hexception => by cases h; cases hexception⟩

theorem Answers.bind (h : Answers x names ok) (hf : ∀ a, Answers (f a) names' ok) :
    Answers (x >>= f) (names ++ names') ok := by
  constructor
  · intro b hb
    obtain ⟨a, ha, hb⟩ := bind_eq_ok.1 hb
    exact List.forall_mem_append.2 ⟨h.found a ha, (hf a).found b hb⟩
  · intro failure hfailure hexception
    rcases bind_eq_error.1 hfailure with hx | ⟨a, -, ha⟩
    · obtain ⟨name, hname, hmissing⟩ := h.missing failure hx hexception
      exact ⟨name, List.mem_append_left _ hname, hmissing⟩
    · obtain ⟨name, hname, hmissing⟩ := (hf a).missing failure ha hexception
      exact ⟨name, List.mem_append_right _ hname, hmissing⟩

theorem Answers.map (h : Answers x names ok) (g : α → β) :
    Answers (do return g (← x)) names ok := by
  have := h.bind (f := fun a => Except.ok (g a)) fun a => answers_ok
  rwa [List.append_nil] at this

mutual

theorem answers_clone : ∀ e : Expression, Answers e.clone [] ok
  | .variableReference _ | .doubleLiteral _ | .integerLiteral _ | .booleanLiteral _
  | .stringLiteral _ => answers_ok
  | .getAttribute v _ => (answers_clone v).map _
  | .methodCall _ args => (answers_cloneArguments args).map _
  | .unaryOperation e _ => (answers_clone e).map _
  | .binaryOperation l r _ | .comparison l r _ =>
    (answers_clone l).bind fun _ => (answers_clone r).map _

theorem answers_cloneArguments : ∀ args : List (Option Expression),
    Answers (Expr.cloneArguments args) [] ok
  | [] => answers_ok
  | none :: _ => answers_undefined
  | some e :: args => (answers_clone e).bind fun _ => (answers_cloneArguments args).map _

end

mutual

theorem answers_substitute {g : Text → Run Expression} (hg : ∀ x, Answers (g x) [x] ok) :
    ∀ e : Expression, Answers (e.substitute g) e.references ok
  | .variableReference x => hg x
  | .doubleLiteral _ | .integerLiteral _ | .booleanLiteral _ | .stringLiteral _ => answers_ok
  | .getAttribute v _ => (answers_substitute hg v).map _
  | .methodCall _ args => (answers_substituteArguments hg args).map _
  | .unaryOperation e _ => (answers_substitute hg e).map _
  | .binaryOperation l r _ | .comparison l r _ =>
    (answers_substitute hg l).bind fun _ => (answers_substitute hg r).map _

theorem answers_substituteArguments {g : Text → Run Expression} (hg : ∀ x, Answers (g x) [x] ok) :
    ∀ args : List (Option Expression),
      Answers (Expr.substituteArguments g args) (Expr.argumentReferences args) ok
  | [] => answers_ok
  | none :: _ => answers_undefined
  | some e :: args =>
    (answers_substitute hg e).bind fun _ => (answers_substituteArguments hg args).map _

end

/-- What a variable reference of the file finds. -/
def Found (scope : Option Expression) (M : StringExpressionMap) (x : Text) : Prop :=
  scope = none → M.find x ≠ none

theorem answers_insertionPass (name : Text) (scope : Option Expression) (M : StringExpressionMap)
    (e : Expression) :
    Answers ((IncludeContext.insertionPass name scope M).run e) e.references (Found scope M) := by
  cases scope with
  | some scope =>
    rw [IncludeContext.insertionPass, IncludeContext.prependScopePass,
      ExpressionPass.run_variablePass]
    refine answers_substitute (fun x => ?_) e
    have hclone : Answers scope.clone [] (Found (some scope) M) := answers_clone scope
    exact ⟨fun _ _ => List.forall_mem_singleton.2 nofun, fun failure h hexception =>
      absurd ((hclone.map _).missing failure h hexception) (by simp)⟩
  | none =>
    rw [IncludeContext.insertionPass, IncludeContext.replaceVariableReferencesPass,
      ExpressionPass.run_variablePass]
    refine answers_substitute (fun x => ?_) e
    cases hx : M.find x with
    | none =>
      refine ⟨nofun, fun _ _ _ => ⟨x, List.mem_singleton_self x, fun h => ?_⟩⟩
      exact h rfl hx
    | some e =>
      have hclone : Answers e.clone [] (Found none M) := answers_clone e
      refine ⟨fun _ _ => List.forall_mem_singleton.2 fun _ => by rw [hx]; exact nofun, ?_⟩
      intro failure h hexception
      exact absurd (hclone.missing failure h hexception) (by simp)

end

/-- A run that releases nothing and makes no nodes. -/
def Silent {α : Type} (m : Walk α) (P : α → Prop) : Prop :=
  ∀ s, Sat m s (fun l s' a => l = [] ∧ s' = s ∧ P a) fun _ _ _ => True

theorem silent_pure {α : Type} {a : α} {P : α → Prop} (h : P a) : Silent (pure a : Walk α) P :=
  fun _ => ⟨rfl, rfl, h⟩

theorem Silent.bind {α β : Type} {m : Walk α} {f : α → Walk β} {P : α → Prop} {Q : β → Prop}
    (h : Silent m P) (hf : ∀ a, P a → Silent (f a) Q) : Silent (m >>= f) Q := fun s =>
  (h s).bind (fun l s' a ⟨hl, hs', ha⟩ => (hf a ha s').mono
    (fun l' s'' b ⟨hl', hs'', hb⟩ => ⟨by rw [hl, hl']; rfl, hs''.trans hs', hb⟩) fun _ _ _ => id)
    fun _ _ _ => id

/-- A walk of a merged tree ends with the same node: it is returned where everything is found, and
otherwise thrown. -/
inductive Leaves (t : Node) (ok : Text → Prop) : Walked → Prop
  | returned {t' : Node} (ids : t'.ids = t.ids) (normal : t'.erase.Normal)
      (kind : t'.erase.isStatements = t.erase.isStatements)
      (found : ∀ x ∈ t.references, ok x) : Leaves t ok (.returned none t')
  | thrown {t' : Node} {failure : Failure} (ids : t'.ids = t.ids)
      (missing : ∃ x ∈ t.references, ¬ok x) : Leaves t ok (.thrown t' failure)

inductive LeavesList (l : List Node) (ok : Text → Prop) : WalkedList → Prop
  | returned {l' : List Node} (ids : Node.idsList l' = Node.idsList l)
      (length : l'.length = l.length) (normal : AST.NormalList (Node.eraseList l'))
      (found : ∀ x ∈ Node.referencesList l, ok x) : LeavesList l ok (.returned l')
  | thrown {l' : List Node} {failure : Failure} (ids : Node.idsList l' = Node.idsList l)
      (missing : ∃ x ∈ Node.referencesList l, ¬ok x) : LeavesList l ok (.thrown l' failure)

section

variable {process : Node → Walk Walked} {ok : Text → Prop}

theorem Node.kept_of_kind {t : Node} (h : t.erase.isStatements = false) :
    t.shell = none ∧ t.asStatements = [t] := by
  cases t with
  | statements id l => cases h
  | _ => exact ⟨rfl, rfl⟩

theorem walkStatements_silent (hprocess : ∀ t, t.erase.Normal → Silent (process t) (Leaves t ok)) :
    ∀ l : List Node, AST.NormalList (Node.eraseList l) →
      Silent (walkStatements process l) (LeavesList l ok)
  | [], _ => silent_pure (.returned rfl rfl trivial nofun)
  | statement :: l, ⟨hkind, hnormal, hl⟩ => by
    refine (hprocess statement hnormal).bind fun w hw => ?_
    cases hw with
    | thrown ids missing =>
      obtain ⟨x, hx, hmissing⟩ := missing
      refine silent_pure (.thrown ?_ ⟨x, List.mem_append_left _ hx, hmissing⟩)
      rw [Node.idsList, Node.idsList, ids]
    | @returned t ids normal kind found =>
      have hkept := Node.kept_of_kind (kind.trans hkind)
      refine (silent_pure (P := fun _ => True) trivial).bind fun _ _ => ?_
      rw [hkept.1, hkept.2]
      refine (silent_pure (P := fun _ => True) trivial).bind fun _ _ => ?_
      refine (walkStatements_silent hprocess l hl).bind fun w hw => ?_
      cases hw with
      | thrown ids' missing =>
        obtain ⟨x, hx, hmissing⟩ := missing
        refine silent_pure (.thrown ?_ ⟨x, List.mem_append_right _ hx, hmissing⟩)
        exact congrArg₂ (· ++ ·) ids ids'
      | returned ids' length normal' found' =>
        refine silent_pure (.returned ?_ (congrArg (· + 1) length)
          ⟨kind.trans hkind, normal, normal'⟩ (List.forall_mem_append.2 ⟨found, found'⟩))
        exact congrArg₂ (· ++ ·) ids ids'

/-- The bodies of a block, after `before` was found. -/
theorem walkBodies_silent (hprocess : ∀ t, t.erase.Normal → Silent (process t) (Leaves t ok))
    {node : Node → Option Node → Node} {t : Node} {own : List Nat} {before : List Text}
    {body : Node} {elseBody : Option Node}
    (hids : ∀ b e, (node b e).ids = own ++ (b.ids ++ Node.idsOption e))
    (hself : t.ids = own ++ (body.ids ++ Node.idsOption elseBody))
    (hnormal : ∀ b e, b.erase.Normal → (∀ e', e = some e' → e'.erase.Normal) →
      (node b e).erase.Normal)
    (hkind : ∀ b e, (node b e).erase.isStatements = t.erase.isStatements)
    (hreferences : t.references = before ++ (body.references ++
      elseBody.toList.flatMap Node.references))
    (hbody : body.erase.Normal) (helse : ∀ e, elseBody = some e → e.erase.Normal)
    (hbefore : ∀ x ∈ before, ok x) : Silent (walkBodies process node body elseBody) (Leaves t ok) := by
  refine (hprocess body hbody).bind fun w hw => ?_
  cases hw with
  | thrown ids missing =>
    obtain ⟨x, hx, hmissing⟩ := missing
    refine silent_pure (.thrown (by rw [hids, hself, ids]) ⟨x, ?_, hmissing⟩)
    rw [hreferences]
    exact List.mem_append_right _ (List.mem_append_left _ hx)
  | @returned body' ids normal kind found =>
    refine (silent_pure (P := fun _ => True) trivial).bind fun _ _ => ?_
    cases elseBody with
    | none =>
      refine silent_pure (.returned (by rw [hids, hself, ids]) (hnormal _ _ normal nofun)
        (hkind _ _) ?_)
      rw [hreferences]
      exact List.forall_mem_append.2 ⟨hbefore, by simpa using found⟩
    | some e =>
      refine (hprocess e (helse e rfl)).bind fun w hw => ?_
      cases hw with
      | thrown ids' missing =>
        obtain ⟨x, hx, hmissing⟩ := missing
        refine silent_pure (.thrown (by simp only [hids, hself, ids, Node.idsOption, ids'])
          ⟨x, ?_, hmissing⟩)
        rw [hreferences]
        exact List.mem_append_right _ (List.mem_append_right _ (by simpa using hx))
      | @returned e' ids' normal' kind' found' =>
        refine (silent_pure (P := fun _ => True) trivial).bind fun _ _ => ?_
        refine silent_pure (.returned (by simp only [hids, hself, ids, Node.idsOption, ids'])
          (hnormal _ _ normal ?_) (hkind _ _) ?_)
        · intro e'' he
          cases he
          exact normal'
        · rw [hreferences]
          simp only [List.forall_mem_append]
          exact ⟨hbefore, found, by simpa using found'⟩

theorem raise_silent {t t' : Node} {failure : Failure} (hids : t'.ids = t.ids)
    (h : failure.isException = true → ∃ x ∈ t.references, ¬ok x) :
    Silent (raise t' failure) (Leaves t ok) := by
  unfold raise
  split_ifs with hexception
  · exact silent_pure (.thrown hids (h hexception))
  · exact fun _ => trivial

theorem answers_mapEntries {f : Expression → Run Expression}
    (hf : ∀ e, Answers (f e) e.references ok) : ∀ l : List (Text × Expression),
      Answers (StringExpressionMap.mapEntries f l) (l.flatMap fun p => p.2.references) ok
  | [] => answers_ok
  | (_, e) :: l => (hf e).bind fun _ => (answers_mapEntries hf l).map _

theorem answers_scope {f : Expression → Run Expression}
    (hf : ∀ e, Answers (f e) e.references ok) (scope : Option Expression) :
    Answers (scope.mapM f) (scope.toList.flatMap Expr.references) ok := by
  cases scope with
  | none => exact answers_ok
  | some e =>
    rw [Option.mapM_some, map_eq_pure_bind]
    have := (hf e).map some
    simpa using this

/-- The walk that rewrites the expressions of a merged tree. -/
theorem nodeWrapper_silent {f : Expression → Run Expression}
    (hf : ∀ e, Answers (f e) e.references ok) : ∀ (n : Nat) (t : Node), t.erase.Normal →
      Silent ((nodeWrapper f).process n t) (Leaves t ok)
  | 0, t, _ => fun _ => trivial
  | n + 1, .rawBlock id t, h => silent_pure (.returned rfl trivial rfl (by rintro _ ⟨⟩))
  | n + 1, .printBlock id e, h => by
    rw [NodePass.process, show (nodeWrapper f).expression e = f e from rfl]
    cases he : f e with
    | error failure => exact raise_silent rfl ((hf e).missing failure he)
    | ok e' => exact silent_pure (.returned rfl trivial rfl ((hf e).found e' he))
  | n + 1, .statements id l, h => by
    refine (walkStatements_silent (nodeWrapper_silent hf n) l h.2).bind fun w hw => ?_
    have hlength : ∀ l : List Node, (Node.eraseList l).length = l.length := by
      intro l
      induction l with
      | nil => rfl
      | cons t l ih => exact congrArg (· + 1) ih
    cases hw with
    | thrown ids missing => exact silent_pure (.thrown (congrArg (id :: ·) ids) missing)
    | @returned l' ids length normal found =>
      have hl : l'.length ≠ 1 := by
        rw [length, ← hlength]
        exact h.1
      have hleaves : Leaves (.statements id l) ok (.returned none (.statements id l')) :=
        .returned (congrArg (id :: ·) ids) ⟨by rwa [hlength], normal⟩ rfl found
      rcases l' with _ | ⟨s, _ | ⟨s', l'⟩⟩
      · exact silent_pure hleaves
      · exact absurd rfl hl
      · exact silent_pure hleaves
  | n + 1, .ifBlock id c t e, h => by
    rw [NodePass.process, show (nodeWrapper f).expression c = f c from rfl]
    have hids : ∀ c b e, (Node.ifBlock id c b e).ids = [id] ++ (b.ids ++ Node.idsOption e) := by
      intro c b e
      cases e <;> simp [Node.ids, Node.idsOption]
    have hreferences : (Node.ifBlock id c t e).references =
        c.references ++ (t.references ++ e.toList.flatMap Node.references) := by
      cases e <;> simp [Node.references]
    have hnormal : t.erase.Normal ∧ ∀ e', e = some e' → e'.erase.Normal := by
      cases e with
      | none => exact ⟨h, by rintro _ ⟨⟩⟩
      | some e => exact ⟨h.1, fun e' he => by cases he; exact h.2⟩
    cases hc : f c with
    | error failure =>
      refine raise_silent rfl fun hexception => ?_
      obtain ⟨x, hx, hmissing⟩ := (hf c).missing failure hc hexception
      exact ⟨x, by rw [hreferences]; exact List.mem_append_left _ hx, hmissing⟩
    | ok c' =>
      refine walkBodies_silent (nodeWrapper_silent hf n) (hids c') (hids c t e) ?_ ?_ hreferences
        hnormal.1 hnormal.2 ((hf c).found c' hc)
      · intro b e hb he
        cases e with
        | none => exact hb
        | some e => exact ⟨hb, he e rfl⟩
      · intro b e'
        cases e <;> cases e' <;> rfl
  | n + 1, .forBlock id k v i b e, h => by
    rw [NodePass.process, show (nodeWrapper f).expression i = f i from rfl]
    have hids : ∀ i b e,
        (Node.forBlock id k v i b e).ids = [id] ++ (b.ids ++ Node.idsOption e) := by
      intro i b e
      cases e <;> simp [Node.ids, Node.idsOption]
    have hreferences : (Node.forBlock id k v i b e).references =
        i.references ++ (b.references ++ e.toList.flatMap Node.references) := by
      cases e <;> simp [Node.references]
    have hnormal : b.erase.Normal ∧ ∀ e', e = some e' → e'.erase.Normal := by
      cases e with
      | none => exact ⟨h, by rintro _ ⟨⟩⟩
      | some e => exact ⟨h.1, fun e' he => by cases he; exact h.2⟩
    cases hi : f i with
    | error failure =>
      refine raise_silent rfl fun hexception => ?_
      obtain ⟨x, hx, hmissing⟩ := (hf i).missing failure hi hexception
      exact ⟨x, by rw [hreferences]; exact List.mem_append_left _ hx, hmissing⟩
    | ok i' =>
      refine walkBodies_silent (nodeWrapper_silent hf n) (hids i') (hids i b e) ?_ ?_ hreferences
        hnormal.1 hnormal.2 ((hf i).found i' hi)
      · intro b e hb he
        cases e with
        | none => exact hb
        | some e => exact ⟨hb, he e rfl⟩
      · intro b e'
        cases e <;> cases e' <;> rfl
  | n + 1, .includeBlock id name scope M, h => by
    simp only [NodePass.process, nodeWrapper]
    have hscope := answers_scope hf scope
    have hM : Answers (M.mapValues f) (M.entries.flatMap fun p => p.2.references) ok :=
      (answers_mapEntries hf M.entries).map _
    cases hs : scope.mapM f with
    | error failure =>
      refine raise_silent rfl fun hexception => ?_
      obtain ⟨x, hx, hmissing⟩ := hscope.missing failure hs hexception
      exact ⟨x, List.mem_append_left _ hx, hmissing⟩
    | ok scope' =>
      cases hm : M.mapValues f with
      | error failure =>
        refine raise_silent rfl fun hexception => ?_
        obtain ⟨x, hx, hmissing⟩ := hM.missing failure hm hexception
        exact ⟨x, List.mem_append_right _ hx, hmissing⟩
      | ok M' =>
        exact silent_pure (.returned rfl trivial rfl
          (List.forall_mem_append.2 ⟨hscope.found scope' hs, hM.found M' hm⟩))

end

/-! ## Include blocks -/

namespace AST

theorem fresh_one (n id : Nat) : fresh n (n + 1) id = [n].count id := by
  by_cases h : n = id
  · subst h
    simp [fresh]
  · rw [fresh, if_neg (by omega), List.count_eq_zero_of_not_mem (by simpa using Ne.symm h)]

/-- The nodes of a new tree are those that it takes. -/
theorem allocate_spec (a : AST) : ∀ n, n < (a.allocate n).2 ∧
    ∀ id, (a.allocate n).1.ids.count id = fresh n (a.allocate n).2 id := by
  have hone : ∀ n, n < n + 1 ∧ ∀ id, [n].count id = fresh n (n + 1) id :=
    fun n => ⟨n.lt_succ_self, fun id => (fresh_one n id).symm⟩
  have hnode : ∀ n m (ids : List Nat), n + 1 ≤ m → (∀ id, ids.count id = fresh (n + 1) m id) →
      n < m ∧ ∀ id, (n :: ids).count id = fresh n m id := by
    intro n m ids hm hids
    refine ⟨hm, fun id => ?_⟩
    rw [← fresh_add (Nat.le_succ n) hm, fresh_one, ← hids, ← List.count_append]
    rfl
  induction a with
  | statements l ih =>
    have hlist : ∀ n, n ≤ (allocateList l n).2 ∧
        ∀ id, (Node.idsList (allocateList l n).1).count id = fresh n (allocateList l n).2 id := by
      induction l with
      | nil => exact fun n => ⟨le_rfl, fun id => (fresh_self id).symm⟩
      | cons s l ihl =>
        intro n
        obtain ⟨hs, hsids⟩ := ih s List.mem_cons_self n
        obtain ⟨hl, hlids⟩ := ihl (fun s hs => ih s (List.mem_cons_of_mem _ hs)) (s.allocate n).2
        refine ⟨hs.le.trans hl, fun id => ?_⟩
        show (_ ++ _ : List Nat).count id = _
        rw [List.count_append, hsids, hlids]
        exact fresh_add hs.le hl id
    intro n
    obtain ⟨hm, hids⟩ := hlist (n + 1)
    exact hnode n _ _ hm hids
  | rawBlock t | printBlock e | includeBlock name scope M => exact hone
  | ifBlock c t e iht ihe =>
    intro n
    obtain ⟨ht, htids⟩ := iht (n + 1)
    cases e with
    | none => exact hnode n _ _ ht.le htids
    | some e =>
      obtain ⟨he, heids⟩ := ihe e rfl (t.allocate (n + 1)).2
      refine hnode n _ _ (ht.le.trans he.le) fun id => ?_
      show (_ ++ _ : List Nat).count id = _
      rw [List.count_append, htids, heids]
      exact fresh_add ht.le he.le id
  | forBlock k v i b e ihb ihe =>
    intro n
    obtain ⟨hb, hbids⟩ := ihb (n + 1)
    cases e with
    | none => exact hnode n _ _ hb.le hbids
    | some e =>
      obtain ⟨he, heids⟩ := ihe e rfl (b.allocate (n + 1)).2
      refine hnode n _ _ (hb.le.trans he.le) fun id => ?_
      show (_ ++ _ : List Nat).count id = _
      rw [List.count_append, hbids, heids]
      exact fresh_add hb.le he.le id

end AST

theorem Node.ids_ne_nil (t : Node) : t.ids ≠ [] := by
  cases t with
  | ifBlock id c t e => cases e <;> exact List.cons_ne_nil _ _
  | forBlock id k v i b e => cases e <;> exact List.cons_ne_nil _ _
  | _ => exact List.cons_ne_nil _ _

namespace IncludeContext

variable (ctx : IncludeContext) {id : Nat} {name file : Text} {scope : Option Expression}
  {M : StringExpressionMap} {t : Node}

theorem noteReplacement_spec (t : Node) (scope : Option Expression) (M : StringExpressionMap)
    (s : Nat) : Sat (noteReplacement t scope M) s
      (fun l s' _ => s' = s ∧ released l = [] ∧
        (Covered l ↔ ∀ x ∈ t.references, Found scope M x)) fun _ _ _ => True := by
  cases scope with
  | some scope => exact ⟨rfl, rfl, iff_of_true covered_nil fun _ _ => nofun⟩
  | none =>
    refine ⟨rfl, rfl, ?_⟩
    show (∀ e ∈ [Event.replaces t.references M], e.Covered) ↔ _
    rw [List.forall_mem_singleton]
    exact forall₂_congr fun x _ => ⟨fun h _ => h, fun h => h rfl⟩

/-- After an included tree was released twice. -/
theorem twice_of_thrown {s s₁ id : Nat} {l l' : List Event} {t t' : Node}
    (h : Accounted [id] s l s₁ (t.ids ++ [id]) False) (hids : t'.ids = t.ids) :
    ∃ id', s ≤ id' ∧ id' < s₁ ∧
      2 ≤ (released (l ++ (l' ++ ([.released t'.ids] ++ [.released t'.ids])))).count id' := by
  obtain ⟨id', hid'⟩ := List.exists_mem_of_ne_nil _ t.ids_ne_nil
  have hpos := List.count_pos_iff.2 hid'
  have hbalance := h.balance h.covered id'
  rw [List.count_append] at hbalance
  have hfresh : 0 < fresh s s₁ id' := by omega
  have hrange : s ≤ id' ∧ id' < s₁ := by
    by_contra hnot
    rw [fresh, if_neg hnot] at hfresh
    exact absurd hfresh (Nat.lt_irrefl 0)
  refine ⟨id', hrange.1, hrange.2, ?_⟩
  simp only [released_append, List.count_append]
  have hreleased : (released [.released t'.ids]).count id' = t.ids.count id' := by
    simp [released, Event.ids, hids]
  rw [hreleased]
  omega

/-- The `PassManager` deletes the tree if the second walk throws. -/
theorem runManager_leaves {process : Node → Walk Walked} {ok : Text → Prop}
    (h : Silent (process t) (Leaves t ok)) (s : Nat) :
    Sat (runManager process t) s (fun l s' w => s' = s ∧ Leaves t ok w ∧
      (∀ left t', w = .returned left t' → l = []) ∧
        ∀ t' failure, w = .thrown t' failure → l = [.released t'.ids]) fun _ _ _ => True := by
  refine (h s).bind (fun l s' w hw => ?_) fun _ _ _ _ => trivial
  obtain ⟨rfl, rfl, hleaves⟩ := hw
  cases hleaves with
  | returned ids normal kind found =>
    exact ⟨rfl, .returned ids normal kind found, fun _ _ _ => rfl, nofun⟩
  | thrown ids missing =>
    refine ⟨rfl, .thrown ids missing, nofun, fun t' failure ht' => ?_⟩
    cases ht'
    rfl

/-- From the second walk on. Where it throws, the tree is released twice. -/
theorem insert_accounts {s s₁ : Nat} {l : List Event} (ht : t.erase.Normal)
    (h : Accounted [id] s l s₁ (t.ids ++ [id]) False) :
    Sat (insertIncluded (.includeBlock id name scope M) file scope M t) s₁
      (fun l' s'' w => Accounted [id] s (l ++ l') s'' w.held w.IsThrown ∧ w.Normal)
      fun _ _ _ => True := by
  refine (noteReplacement_spec t scope M s₁).bind (fun l₁ s' _ hnote => ?_) fun _ _ _ _ => trivial
  obtain ⟨rfl, hl₁, hcovered⟩ := hnote
  have hwalk := nodeWrapper_silent (answers_insertionPass file scope M) t.erase.depth t ht
  refine (runManager_leaves hwalk s').bind (fun l₂ s'' w hw => ?_) fun _ _ _ _ => trivial
  obtain ⟨rfl, hleaves, hreturned, hthrown⟩ := hw
  cases hleaves with
  | @returned t' ids normal kind found =>
    obtain rfl := hreturned none t' rfl
    refine ⟨?_, normal⟩
    have hnote : Accounted (t.ids ++ [id]) s'' l₁ s'' ([id] ++ t'.ids) False := by
      refine ⟨le_rfl, fun _ i => ?_, fun hnot => absurd (hcovered.2 found) hnot⟩
      rw [hl₁, fresh_self, ids]
      simp only [List.count_append, List.count_nil]
      omega
    show Accounted [id] s (l ++ (l₁ ++ ([] ++ ([] ++ [])))) s'' ([id] ++ t'.ids) False
    simpa using h.andThen hnote
  | @thrown t' failure ids missing =>
    obtain rfl := hthrown t' failure rfl
    refine ⟨⟨h.le, fun hl => ?_, fun _ => ⟨trivial, ?_⟩⟩, trivial⟩
    · obtain ⟨x, hx, hmissing⟩ := missing
      have hl₁ := (covered_append.1 (covered_append.1 hl).2).1
      exact absurd (hcovered.1 hl₁ x hx) hmissing
    · exact twice_of_thrown h ids

/-- Include resolution accounts for all nodes. -/
theorem processInclude_accounts {process : Node → Walk Walked} (hprocess : WalksAll process)
    (id : Nat) (name : Text) (scope : Option Expression) (M : StringExpressionMap) :
    Accounts (ctx.processInclude process id name scope M) [id] Walked.held Walked.IsThrown
      Walked.Normal := by
  cases hparse : ctx.parse (ctx.resolvePath name) with
  | error failure =>
    simp only [processInclude, hparse]
    exact raise_accounts (.includeBlock id name scope M) failure
  | ok a =>
    simp only [processInclude, hparse]
    intro s
    obtain ⟨hlt, hids⟩ := a.allocate_spec s
    have hnew : Accounted [id] s [] (a.allocate s).2 ((a.allocate s).1.ids ++ [id]) False := by
      refine ⟨hlt.le, fun _ i => ?_, fun hnot => absurd covered_nil hnot⟩
      simp only [released, List.flatMap_nil, List.count_append, List.count_nil, hids]
      omega
    have hwalk := (hprocess (a.allocate s).1).frame [id] (a.allocate s).2
    refine Effect.Traced.sat_bind.2 (Effect.Traced.sat_get.2 (Effect.Traced.sat_bind.2
      (Effect.Traced.sat_modify.2 (hwalk.bind (fun l s' w hw => ?_) fun _ _ _ _ => trivial))))
    obtain ⟨haccounted, hnormal⟩ := hw
    have hall := hnew.andThen haccounted
    cases w with
    | thrown t failure =>
      have hreleased : Accounted [id] s (([] ++ l) ++ [.released t.ids]) s' [id] True :=
        hall.release_after
      show Accounted [id] s ([] ++ ([] ++ (l ++ ([.released t.ids] ++ [])))) s' [id] True ∧ True
      simpa using hreleased
    | returned left t =>
      have hreset := (accounts_reset left).frame (t.ids ++ [id]) s'
      refine hreset.bind (fun l₁ s₁ _ hleft => ?_) fun _ _ _ _ => trivial
      have hbefore : Accounted [id] s (([] ++ l) ++ l₁) s₁ ([] ++ (t.ids ++ [id])) False := by
        have hassoc : ∀ i, ((Node.idsOption left ++ t.ids) ++ [id]).count i =
            (Node.idsOption left ++ (t.ids ++ [id])).count i := fun i => by rw [List.append_assoc]
        exact (hall.congr (fun _ => rfl) hassoc).andThen hleft.1
      refine (insert_accounts hnormal hbefore).mono (fun l₂ s₂ w hw => ?_) fun _ _ _ _ => trivial
      show Accounted [id] s ([] ++ ([] ++ (l ++ (l₁ ++ l₂)))) s₂ w.held w.IsThrown ∧ w.Normal
      simpa using hw

/-- What is left of a run that fails has been released by the `PassManager`. -/
theorem runManager_accounts {process : Node → Walk Walked} (hprocess : WalksAll process) (t : Node) :
    Accounts (runManager process t) t.ids Walked.result Walked.IsThrown fun _ => True := by
  refine (hprocess t).bind (fun w hw _ => ?_) fun w hw s l s' h => ?_
  · cases w with
    | thrown t failure => exact absurd trivial hw
    | returned left t =>
      have hreset := (accounts_reset left).frame t.ids
      exact hreset.before fun _ _ => accounts_pure (fun _ => rfl) trivial
  · cases w with
    | returned left t => exact hw.elim
    | thrown t failure =>
      have hreleased := (h.congr (fun _ => rfl) fun i => by
        show t.ids.count i = (t.ids ++ []).count i
        rw [List.append_nil]).release_after
      exact ⟨hreleased, trivial⟩

theorem resolve_accounts (n : Nat) (a : AST) (s : Nat) :
    Sat (ctx.resolve n a) s (fun l s' w => Accounted (a.allocate 0).1.ids (a.allocate 0).2 l s'
      w.result w.IsThrown) fun _ _ _ => True := by
  have hwalks : WalksAll (ctx.includePass.process n) :=
    NodePass.process_accounts (fun _ h => ctx.processInclude_accounts h) n
  refine Effect.Traced.sat_bind.2 (Effect.Traced.sat_modify.2 ?_)
  exact (runManager_accounts hwalks _ _).mono (fun _ _ _ h => h.1) fun _ _ _ => id

variable {ctx}

/-- The nodes of the included files are released once or are part of the result if and only if all
replacements are found. -/
theorem releasedOnce_iff {n s s' : Nat} {a : AST} {l : List Event} {w : Walked}
    (hrun : ctx.resolve n a s = ⟨l, s', .ok w⟩) :
    ReleasedOnce (a.allocate 0).2 s' l w ↔
      ∀ references replacements, .replaces references replacements ∈ l →
        ∀ x ∈ references, replacements.find x ≠ none := by
  have h := Effect.Traced.Returns.sat hrun (ctx.resolve_accounts n a s)
  have hcovered : Covered l ↔ ∀ references replacements, .replaces references replacements ∈ l →
      ∀ x ∈ references, replacements.find x ≠ none := by
    constructor
    · exact fun hl references replacements he => hl _ he
    · intro hl e he
      cases e with
      | released ids => trivial
      | replaces references replacements => exact hl _ _ he
  rw [← hcovered]
  constructor
  · intro honce
    by_contra hl
    obtain ⟨-, id, hfirst, hnext, htwice⟩ := h.twice hl
    have := honce.atMost id hfirst hnext
    omega
  · intro hl
    have hroot : ∀ id, (a.allocate 0).2 ≤ id → (a.allocate 0).1.ids.count id = 0 := by
      intro id hid
      rw [(a.allocate_spec 0).2, fresh, if_neg (by omega)]
    have hnew : ∀ id, (a.allocate 0).2 ≤ id → id < s' →
        (released l).count id + w.result.count id = 1 := by
      intro id hfirst hnext
      rw [h.balance hl, hroot id hfirst, fresh, if_pos ⟨hfirst, hnext⟩]
    refine ⟨fun id hfirst hnext => ?_, fun id hfirst hnext hid => ?_⟩
    · have := hnew id hfirst hnext
      omega
    · have := hnew id hfirst hnext
      rw [List.count_eq_zero_of_not_mem hid] at this
      omega

/-- Every file is `{{ x }}`. -/
def printsX : IncludeContext where
  includeBasePath := []
  parse _ := .ok (.statements [.printBlock (.variableReference ['x'])])

/-- `{% include 'b' with x = 1 %}` -/
theorem releasedOnce_found :
    ReleasedOnce 1 3 [.released [1], .replaces [['x']] (.insert .empty ['x'] (.integerLiteral 1)),
        .released [0]]
      (.returned (some (.includeBlock 0 ['b'] none (.insert .empty ['x'] (.integerLiteral 1))))
        (.printBlock 2 (.integerLiteral 1))) ∧
      ∀ x ∈ [['x']], (StringExpressionMap.insert .empty ['x'] (.integerLiteral 1)).find x ≠ none :=
  have hrun : printsX.resolve 3
      (.includeBlock ['b'] none (.insert .empty ['x'] (.integerLiteral 1))) 0 = ⟨_, 3, .ok _⟩ := rfl
  have hfound : ∀ x ∈ [['x']],
      (StringExpressionMap.insert .empty ['x'] (.integerLiteral 1)).find x ≠ none := by decide
  ⟨(releasedOnce_iff hrun).2 fun | _, _, .tail _ (.head _) => hfound, hfound⟩

/-- `{% include 'b' %}`: the node of `{{ x }}` is released twice. -/
theorem not_releasedOnce_missing : ∃ l s' w,
    printsX.resolve 3 (.includeBlock ['b'] none .empty) 0 = ⟨l, s', .ok w⟩ ∧
      ¬ReleasedOnce 1 s' l w := by
  refine ⟨_, _, _, rfl, fun h => ?_⟩
  have := h.atMost 2 (by decide) (by decide)
  exact absurd this (by decide)

end IncludeContext

end B2
