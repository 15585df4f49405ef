import B2.Ecma.Token

/-!
# Expressions of ECMAScript

How tokens group to an expression: operands with what follows them, and binary
operators by precedence climbing, all of them left-associative (`Parses`).
Assignments, `?:`, `??` and `**` are left out. What is read is unique
(`Parses.unique`), and a tree is read from its own tokens exactly if the operands
of all its operators bind tightly enough (`parses_flatten_iff`).
-/

namespace Ecma

inductive Tree (α : Type) where
  | word (w : α)
  /-- `object[key]` -/
  | element (object key : Tree α)
  | call (function : Tree α) (arguments : List (Tree α))
  | unary (op : List Char) (e : Tree α)
  /-- `++e` or `--e` -/
  | update (op : List Char) (e : Tree α)
  | postfixUpdate (e : Tree α) (op : List Char)
  | binary (op : List Char) (left right : Tree α)

def unaryOperators : List (List Char) := [['+'], ['-'], ['!'], ['~']]

def updateOperators : List (List Char) := [['+', '+'], ['-', '-']]

/-- The precedence of a binary operator. -/
def binaryLevel : List Char → Option Nat
  | ['|', '|'] => some 1
  | ['&', '&'] => some 2
  | ['|'] => some 3
  | ['^'] => some 4
  | ['&'] => some 5
  | ['=', '='] | ['!', '='] | ['=', '=', '='] | ['!', '=', '='] => some 6
  | ['<'] | ['>'] | ['<', '='] | ['>', '='] => some 7
  | ['<', '<'] | ['>', '>'] | ['>', '>', '>'] => some 8
  | ['+'] | ['-'] => some 9
  | ['*'] | ['/'] | ['%'] => some 10
  | _ => none

/-- The precedence of unary operators, and of everything that is no operation. -/
abbrev unaryLevel : Nat := 11
abbrev operandLevel : Nat := 12

section

variable {α : Type}

/-- The precedence of the binary operator that comes next, 0 if none does. -/
def headLevel : List (Token α) → Nat
  | .punctuator op :: _ => (binaryLevel op).getD 0
  | _ => 0

/-- The next token belongs to the operand before it. -/
def opensSuffix : List (Token α) → Bool
  | .punctuator t :: _ => t ∈ [['['], ['('], ['.'], ['?', '.'], ['+', '+'], ['-', '-']]
  | _ => false

/-- What is to be read. -/
inductive Goal (α : Type) where
  /-- an expression with operators from a precedence on -/
  | expression (min : Nat)
  | operand
  /-- what belongs to an operand -/
  | suffix (e : Tree α)
  /-- binary operators and their right operands -/
  | climb (min : Nat) (left : Tree α)
  /-- the arguments of a call after some, its closing parenthesis and its suffix -/
  | arguments (function : Tree α) (before : List (Tree α))

/-- The tokens begin with a tree that is to be read, and the rest comes after it. -/
inductive Parses : Goal α → List (Token α) → Tree α → List (Token α) → Prop
  | expression {min ts e ts' e' rest} (h : Parses .operand ts e ts')
      (h' : Parses (.climb min e) ts' e' rest) : Parses (.expression min) ts e' rest
  | word {w ts e rest} (h : Parses (.suffix (.word w)) ts e rest) :
      Parses .operand (.word w :: ts) e rest
  | group {ts e ts' e' rest} (h : Parses (.expression 1) ts e (.punctuator [')'] :: ts'))
      (h' : Parses (.suffix e) ts' e' rest) : Parses .operand (.punctuator ['('] :: ts) e' rest
  | unary {op ts e rest} (hop : op ∈ unaryOperators) (h : Parses .operand ts e rest) :
      Parses .operand (.punctuator op :: ts) (.unary op e) rest
  | update {op ts e rest} (hop : op ∈ updateOperators) (h : Parses .operand ts e rest) :
      Parses .operand (.punctuator op :: ts) (.update op e) rest
  | noSuffix {e ts} (h : opensSuffix ts = false) : Parses (.suffix e) ts e ts
  | element {e ts k ts' e' rest} (h : Parses (.expression 1) ts k (.punctuator [']'] :: ts'))
      (h' : Parses (.suffix (.element e k)) ts' e' rest) :
      Parses (.suffix e) (.punctuator ['['] :: ts) e' rest
  | call {e ts e' rest} (h : Parses (.arguments e []) ts e' rest) :
      Parses (.suffix e) (.punctuator ['('] :: ts) e' rest
  | postfixUpdate {e op ts} (hop : op ∈ updateOperators) :
      Parses (.suffix e) (.punctuator op :: ts) (.postfixUpdate e op) ts
  | close {f es ts e rest} (h : Parses (.suffix (.call f es)) ts e rest) :
      Parses (.arguments f es) (.punctuator [')'] :: ts) e rest
  | lastArgument {f es ts e ts' e' rest}
      (h : Parses (.expression 1) ts e (.punctuator [')'] :: ts'))
      (h' : Parses (.suffix (.call f (es ++ [e]))) ts' e' rest) :
      Parses (.arguments f es) ts e' rest
  | argument {f es ts e ts' e' rest} (h : Parses (.expression 1) ts e (.punctuator [','] :: ts'))
      (h' : Parses (.arguments f (es ++ [e])) ts' e' rest) : Parses (.arguments f es) ts e' rest
  | noOperator {min e ts} (h : headLevel ts < min) : Parses (.climb min e) ts e ts
  | operator {min e op k ts r ts' e' rest} (hop : binaryLevel op = some k) (hk : min ≤ k)
      (h : Parses (.expression (k + 1)) ts r ts')
      (h' : Parses (.climb min (.binary op e r)) ts' e' rest) :
      Parses (.climb min e) (.punctuator op :: ts) e' rest

/-- No operand begins with a closing parenthesis. -/
theorem not_parses_close {ts rest : List (Token α)} {min : Nat} {e : Tree α} :
    ¬Parses (.expression min) (.punctuator [')'] :: ts) e rest := by
  intro h
  cases h with
  | expression h _ =>
    cases h with
    | unary hop _ | update hop _ =>
      revert hop
      decide

/-- There is at most one reading. -/
theorem Parses.unique {g : Goal α} {ts rest rest' : List (Token α)} {e e' : Tree α}
    (h : Parses g ts e rest) (h' : Parses g ts e' rest') : e = e' ∧ rest = rest' := by
  induction h generalizing e' rest' with
  | expression _ _ ih ih' =>
    cases h' with
    | expression h h' =>
      obtain ⟨rfl, rfl⟩ := ih h
      exact ih' h'
  | word _ ih =>
    cases h' with
    | word h => exact ih h
  | group _ _ ih ih' =>
    cases h' with
    | group h h' =>
      obtain ⟨rfl, heq⟩ := ih h
      cases heq
      exact ih' h'
    | unary hop _ | update hop _ => exact absurd hop (by decide)
  | unary hop _ ih =>
    cases h' with
    | group => exact absurd hop (by decide)
    | unary _ h =>
      obtain ⟨rfl, rfl⟩ := ih h
      exact ⟨rfl, rfl⟩
    | update hop' _ =>
      have hdisjoint : ∀ op ∈ unaryOperators, op ∉ updateOperators := by decide
      exact absurd hop' (hdisjoint _ hop)
  | update hop _ ih =>
    cases h' with
    | group => exact absurd hop (by decide)
    | unary hop' _ =>
      have hdisjoint : ∀ op ∈ unaryOperators, op ∉ updateOperators := by decide
      exact absurd hop (hdisjoint _ hop')
    | update _ h =>
      obtain ⟨rfl, rfl⟩ := ih h
      exact ⟨rfl, rfl⟩
  | noSuffix h =>
    cases h' with
    | noSuffix => exact ⟨rfl, rfl⟩
    | element | call => cases h
    | postfixUpdate hop =>
      have hopens : ∀ op ∈ updateOperators,
          op ∈ [['['], ['('], ['.'], ['?', '.'], ['+', '+'], ['-', '-']] := by decide
      simp [opensSuffix, hopens _ hop] at h
  | element _ _ ih ih' =>
    cases h' with
    | noSuffix h => cases h
    | element h h' =>
      obtain ⟨rfl, heq⟩ := ih h
      cases heq
      exact ih' h'
    | postfixUpdate hop => exact absurd hop (by decide)
  | call _ ih =>
    cases h' with
    | noSuffix h => cases h
    | call h => exact ih h
    | postfixUpdate hop => exact absurd hop (by decide)
  | postfixUpdate hop =>
    cases h' with
    | noSuffix h =>
      have hopens : ∀ op ∈ updateOperators,
          op ∈ [['['], ['('], ['.'], ['?', '.'], ['+', '+'], ['-', '-']] := by decide
      simp [opensSuffix, hopens _ hop] at h
    | element | call => exact absurd hop (by decide)
    | postfixUpdate => exact ⟨rfl, rfl⟩
  | close _ ih =>
    cases h' with
    | close h => exact ih h
    | lastArgument h _ | argument h _ => exact absurd h not_parses_close
  | lastArgument h _ ih ih' =>
    cases h' with
    | close => exact absurd h not_parses_close
    | lastArgument h h' =>
      obtain ⟨rfl, heq⟩ := ih h
      cases heq
      exact ih' h'
    | argument h _ =>
      obtain ⟨-, heq⟩ := ih h
      cases heq
  | argument h _ ih ih' =>
    cases h' with
    | close => exact absurd h not_parses_close
    | lastArgument h _ =>
      obtain ⟨-, heq⟩ := ih h
      cases heq
    | argument h h' =>
      obtain ⟨rfl, heq⟩ := ih h
      cases heq
      exact ih' h'
  | noOperator h =>
    cases h' with
    | noOperator => exact ⟨rfl, rfl⟩
    | operator hop hk _ _ =>
      simp only [headLevel, hop, Option.getD_some] at h
      omega
  | operator hop hk _ _ ih ih' =>
    cases h' with
    | noOperator h =>
      simp only [headLevel, hop, Option.getD_some] at h
      omega
    | operator hop' _ h h' =>
      cases hop.symm.trans hop'
      obtain ⟨rfl, rfl⟩ := ih h
      exact ih' h'

/-! ## Trees and their tokens -/

namespace Tree

/-- Structural induction; the arguments of a call are met one by one. -/
@[elab_as_elim, induction_eliminator]
theorem ind {motive : Tree α → Prop} (word : ∀ w, motive (.word w))
    (element : ∀ e k, motive e → motive k → motive (.element e k))
    (call : ∀ f es, motive f → (∀ e ∈ es, motive e) → motive (.call f es))
    (unary : ∀ op e, motive e → motive (.unary op e))
    (update : ∀ op e, motive e → motive (.update op e))
    (postfixUpdate : ∀ e op, motive e → motive (.postfixUpdate e op))
    (binary : ∀ op l r, motive l → motive r → motive (.binary op l r)) : ∀ e, motive e := by
  intro e
  refine Tree.rec (motive_1 := motive) (motive_2 := fun es => ∀ e ∈ es, motive e) word element
    call unary update postfixUpdate binary ?_ ?_ e
  · intro e h
    cases h
  · intro e es he hes e' h
    rcases List.mem_cons.1 h with rfl | h
    · exact he
    · exact hes e' h

/-- The precedence of the outermost operator. -/
def level : Tree α → Nat
  | .binary op _ _ => (binaryLevel op).getD 0
  | .unary .. | .update .. | .postfixUpdate .. => unaryLevel
  | _ => operandLevel

mutual

/-- The operands of every operator bind tightly enough to stand without parentheses. -/
def Fits : Tree α → Prop
  | .word _ => True
  | .element e k => e.Fits ∧ e.level = operandLevel ∧ k.Fits
  | .call f es => f.Fits ∧ f.level = operandLevel ∧ FitsAll es
  | .unary _ e | .update _ e => e.Fits ∧ unaryLevel ≤ e.level
  | .postfixUpdate e _ => e.Fits ∧ e.level = operandLevel
  | .binary op l r => l.Fits ∧ r.Fits ∧ (binaryLevel op).getD 0 ≤ l.level ∧
    (binaryLevel op).getD 0 < r.level

def FitsAll : List (Tree α) → Prop
  | [] => True
  | e :: es => e.Fits ∧ FitsAll es

end

mutual

/-- The operators are operators of their kind. -/
def Spelled : Tree α → Prop
  | .word _ => True
  | .element e k => e.Spelled ∧ k.Spelled
  | .call f es => f.Spelled ∧ SpelledAll es
  | .unary op e => op ∈ unaryOperators ∧ e.Spelled
  | .update op e | .postfixUpdate e op => op ∈ updateOperators ∧ e.Spelled
  | .binary op l r => (∃ k, binaryLevel op = some k) ∧ l.Spelled ∧ r.Spelled

def SpelledAll : List (Tree α) → Prop
  | [] => True
  | e :: es => e.Spelled ∧ SpelledAll es

end

mutual

/-- The tokens of a tree, without parentheses around operands. -/
def flatten : Tree α → List (Token α)
  | .word w => [.word w]
  | .element e k => e.flatten ++ .punctuator ['['] :: (k.flatten ++ [.punctuator [']']])
  | .call f es => f.flatten ++ .punctuator ['('] :: (flattenAll es ++ [.punctuator [')']])
  | .unary op e | .update op e => .punctuator op :: e.flatten
  | .postfixUpdate e op => e.flatten ++ [.punctuator op]
  | .binary op l r => l.flatten ++ .punctuator op :: r.flatten

def flattenAll : List (Tree α) → List (Token α)
  | [] => []
  | [e] => e.flatten
  | e :: es => e.flatten ++ .punctuator [','] :: flattenAll es

end

mutual

def calls : Tree α → Nat
  | .word _ => 0
  | .element e k => e.calls + k.calls
  | .call f es => f.calls + callsAll es + 1
  | .unary _ e | .update _ e | .postfixUpdate e _ => e.calls
  | .binary _ l r => l.calls + r.calls

def callsAll : List (Tree α) → Nat
  | [] => 0
  | e :: es => e.calls + callsAll es

end

mutual

def updates : Tree α → Nat
  | .word _ => 0
  | .element e k => e.updates + k.updates
  | .call f es => f.updates + updatesAll es
  | .unary _ e => e.updates
  | .update _ e | .postfixUpdate e _ => e.updates + 1
  | .binary _ l r => l.updates + r.updates

def updatesAll : List (Tree α) → Nat
  | [] => 0
  | e :: es => e.updates + updatesAll es

end

theorem flattenAll_cons {e : Tree α} {es : List (Tree α)} : flattenAll (e :: es) =
    e.flatten ++ es.flatMap fun e => .punctuator [','] :: e.flatten := by
  induction es generalizing e with
  | nil => exact (List.append_nil _).symm
  | cons e' es ih =>
    rw [flattenAll, ih]
    · rfl
    · exact List.cons_ne_nil _ _

theorem callsAll_append {es es' : List (Tree α)} :
    callsAll (es ++ es') = callsAll es + callsAll es' := by
  induction es with
  | nil => exact (Nat.zero_add _).symm
  | cons e es ih =>
    rw [List.cons_append, callsAll, ih, callsAll, Nat.add_assoc]

theorem updatesAll_append {es es' : List (Tree α)} :
    updatesAll (es ++ es') = updatesAll es + updatesAll es' := by
  induction es with
  | nil => exact (Nat.zero_add _).symm
  | cons e es ih =>
    rw [List.cons_append, updatesAll, ih, updatesAll, Nat.add_assoc]

theorem fitsAll_append {es es' : List (Tree α)} :
    FitsAll (es ++ es') ↔ FitsAll es ∧ FitsAll es' := by
  induction es with
  | nil => simp [FitsAll]
  | cons e es ih => simp [FitsAll, ih, and_assoc]

end Tree

/-- Tokens that are opening parentheses. -/
def Token.parentheses : Token α → Nat
  | .punctuator t => if t = ['('] then 1 else 0
  | .word _ => 0

def Token.updates : Token α → Nat
  | .punctuator t => if t ∈ updateOperators then 1 else 0
  | .word _ => 0

def parentheses (ts : List (Token α)) : Nat := (ts.map Token.parentheses).sum

def updates (ts : List (Token α)) : Nat := (ts.map Token.updates).sum

@[simp] theorem parentheses_nil : parentheses ([] : List (Token α)) = 0 := rfl

@[simp] theorem parentheses_cons (t : Token α) (ts : List (Token α)) :
    parentheses (t :: ts) = t.parentheses + parentheses ts := rfl

@[simp] theorem parentheses_append (ts ts' : List (Token α)) :
    parentheses (ts ++ ts') = parentheses ts + parentheses ts' := by
  unfold parentheses
  rw [List.map_append, List.sum_append]

@[simp] theorem updates_nil : updates ([] : List (Token α)) = 0 := rfl

@[simp] theorem updates_cons (t : Token α) (ts : List (Token α)) :
    updates (t :: ts) = t.updates + updates ts := rfl

@[simp] theorem updates_append (ts ts' : List (Token α)) :
    updates (ts ++ ts') = updates ts + updates ts' := by
  unfold updates
  rw [List.map_append, List.sum_append]

/-- The binary operators, with their precedences. -/
def binaryOperators : List (List Char × Nat) :=
  [(['|', '|'], 1), (['&', '&'], 2), (['|'], 3), (['^'], 4), (['&'], 5), (['=', '='], 6),
   (['!', '='], 6), (['=', '=', '='], 6), (['!', '=', '='], 6), (['<'], 7), (['>'], 7),
   (['<', '='], 7), (['>', '='], 7), (['<', '<'], 8), (['>', '>'], 8), (['>', '>', '>'], 8),
   (['+'], 9), (['-'], 9), (['*'], 10), (['/'], 10), (['%'], 10)]

theorem mem_binaryOperators {op : List Char} {k : Nat} (h : binaryLevel op = some k) :
    (op, k) ∈ binaryOperators := by
  unfold binaryLevel at h
  split at h <;> cases h <;> decide

theorem binaryLevel_pos {op : List Char} {k : Nat} (h : binaryLevel op = some k) :
    1 ≤ k ∧ k < unaryLevel := by
  have hall : ∀ p ∈ binaryOperators, 1 ≤ p.2 ∧ p.2 < unaryLevel := by decide
  exact hall _ (mem_binaryOperators h)

theorem token_of_binaryLevel {op : List Char} {k : Nat} (h : binaryLevel op = some k) :
    (Token.punctuator op : Token α).parentheses = 0 ∧
      (Token.punctuator op : Token α).updates = 0 := by
  have hall : ∀ p ∈ binaryOperators, p.1 ≠ ['('] ∧ p.1 ∉ updateOperators := by decide
  obtain ⟨hopen, hupdate⟩ := hall _ (mem_binaryOperators h)
  exact ⟨if_neg hopen, if_neg hupdate⟩

theorem opensSuffix_of_binaryLevel {op : List Char} {k : Nat} (h : binaryLevel op = some k)
    {ts : List (Token α)} : opensSuffix (.punctuator op :: ts) = false := by
  have hall : ∀ p ∈ binaryOperators,
      p.1 ∉ [['['], ['('], ['.'], ['?', '.'], ['+', '+'], ['-', '-']] := by decide
  exact decide_eq_false (hall _ (mem_binaryOperators h))

theorem token_of_unary {op : List Char} (h : op ∈ unaryOperators) :
    (Token.punctuator op : Token α).parentheses = 0 ∧
      (Token.punctuator op : Token α).updates = 0 := by
  have hall : ∀ op ∈ unaryOperators, op ≠ ['('] ∧ op ∉ updateOperators := by decide
  exact ⟨if_neg (hall op h).1, if_neg (hall op h).2⟩

theorem token_of_update {op : List Char} (h : op ∈ updateOperators) :
    (Token.punctuator op : Token α).parentheses = 0 ∧
      (Token.punctuator op : Token α).updates = 1 := by
  have hall : ∀ op ∈ updateOperators, op ≠ ['('] := by decide
  exact ⟨if_neg (hall op h), if_pos h⟩

/-- What has been read before. -/
def Goal.calls : Goal α → Nat
  | .expression _ | .operand => 0
  | .suffix e | .climb _ e => e.calls
  | .arguments f es => f.calls + Tree.callsAll es + 1

def Goal.updates : Goal α → Nat
  | .expression _ | .operand => 0
  | .suffix e | .climb _ e => e.updates
  | .arguments f es => f.updates + Tree.updatesAll es

variable {g : Goal α} {ts rest : List (Token α)} {e : Tree α}

/-- Every call has an opening parenthesis. -/
theorem Parses.calls_le (h : Parses g ts e rest) :
    e.calls + parentheses rest ≤ parentheses ts + g.calls := by
  induction h with
  | unary hop _ ih =>
    have hop := (token_of_unary (α := α) hop).1
    simp only [parentheses_cons, Goal.calls, Tree.calls] at ih ⊢
    omega
  | update hop _ ih =>
    have hop := (token_of_update (α := α) hop).1
    simp only [parentheses_cons, Goal.calls, Tree.calls] at ih ⊢
    omega
  | postfixUpdate hop =>
    have hop := (token_of_update (α := α) hop).1
    simp only [parentheses_cons, Goal.calls, Tree.calls]
    omega
  | operator hop _ _ _ ih ih' =>
    have hop := (token_of_binaryLevel (α := α) hop).1
    simp only [parentheses_cons, Goal.calls, Tree.calls] at ih ih' ⊢
    omega
  | lastArgument _ _ ih ih' | argument _ _ ih ih' =>
    simp only [parentheses_cons, Goal.calls, Tree.calls, Tree.callsAll_append, Tree.callsAll] at ih ih' ⊢
    omega
  | group _ _ ih ih' | element _ _ ih ih' =>
    simp [Token.parentheses, Goal.calls, Tree.calls] at ih ih' ⊢
    omega
  | expression _ _ ih ih' =>
    simp only [Goal.calls] at ih ih' ⊢
    omega
  | word _ ih | call _ ih | close _ ih =>
    simp [Token.parentheses, Goal.calls, Tree.calls, Tree.callsAll] at ih ⊢
    omega
  | noSuffix | noOperator => exact (Nat.add_comm _ _).le

/-- Every `++` and every `--` is read as such. -/
theorem Parses.updates_eq (h : Parses g ts e rest) :
    e.updates + updates rest = updates ts + g.updates := by
  induction h with
  | unary hop _ ih =>
    have hop := (token_of_unary (α := α) hop).2
    simp only [updates_cons, Goal.updates, Tree.updates] at ih ⊢
    omega
  | update hop _ ih =>
    have hop := (token_of_update (α := α) hop).2
    simp only [updates_cons, Goal.updates, Tree.updates] at ih ⊢
    omega
  | postfixUpdate hop =>
    have hop := (token_of_update (α := α) hop).2
    simp only [updates_cons, Goal.updates, Tree.updates]
    omega
  | operator hop _ _ _ ih ih' =>
    have hop := (token_of_binaryLevel (α := α) hop).2
    simp only [updates_cons, Goal.updates, Tree.updates] at ih ih' ⊢
    omega
  | group _ _ ih ih' | element _ _ ih ih' =>
    simp [Token.updates, updateOperators, Goal.updates, Tree.updates] at ih ih' ⊢
    omega
  | lastArgument _ _ ih ih' | argument _ _ ih ih' =>
    simp [Token.updates, updateOperators, Goal.updates, Tree.updates, Tree.updatesAll_append,
      Tree.updatesAll] at ih ih' ⊢
    omega
  | expression _ _ ih ih' =>
    simp only [Goal.updates] at ih ih' ⊢
    omega
  | word _ ih | call _ ih | close _ ih =>
    simp [Token.updates, updateOperators, Goal.updates, Tree.updates, Tree.updatesAll] at ih ⊢
    omega
  | noSuffix | noOperator => exact Nat.add_comm _ _

/-! ## Reading a tree from its tokens -/

theorem headLevel_lt (ts : List (Token α)) : headLevel ts < unaryLevel := by
  match ts with
  | [] | .word _ :: _ => exact Nat.zero_lt_succ 10
  | .punctuator op :: _ =>
    show (binaryLevel op).getD 0 < unaryLevel
    cases h : binaryLevel op with
    | none => exact Nat.zero_lt_succ 10
    | some k => exact (binaryLevel_pos h).2

/-- What is known of the tokens when something is to be read. -/
def Goal.Ready : Goal α → List (Token α) → Prop
  | .expression min, _ => min ≤ unaryLevel
  | .operand, _ => True
  | .suffix e, _ => e.Fits ∧ e.level = operandLevel
  | .climb min e, ts => e.Fits ∧ min ≤ e.level ∧ headLevel ts ≤ e.level
  | .arguments f es, _ => f.Fits ∧ f.level = operandLevel ∧ Tree.FitsAll es

/-- What is known of a tree that was read without parentheses around operands. -/
def Goal.Done : Goal α → Tree α → List (Token α) → Prop
  | .expression min, e, rest | .climb min _, e, rest =>
    e.Fits ∧ min ≤ e.level ∧ headLevel rest < min
  | _, e, _ => e.Fits ∧ unaryLevel ≤ e.level

/-- If every parenthesis belongs to a call, none stands around an operand. -/
theorem Parses.done (h : Parses g ts e rest) : g.Ready ts →
    parentheses ts + g.calls ≤ e.calls + parentheses rest → g.Done e rest := by
  induction h with
  | expression h h' ih ih' =>
    intro hready hcalls
    have h₁ := h.calls_le
    have h₂ := h'.calls_le
    simp only [Goal.calls] at hcalls h₁ h₂ ih ih'
    obtain ⟨hfits, hlevel⟩ := ih trivial (by omega)
    exact ih' ⟨hfits, hready.trans hlevel, (headLevel_lt _).le.trans hlevel⟩ (by omega)
  | word h ih =>
    intro _ hcalls
    exact ih ⟨trivial, rfl⟩ (by simpa [Token.parentheses, Goal.calls, Tree.calls] using hcalls)
  | group h h' =>
    intro _ hcalls
    have h₁ := h.calls_le
    have h₂ := h'.calls_le
    simp [Token.parentheses, Goal.calls] at hcalls h₁ h₂
    omega
  | unary hop h ih =>
    intro _ hcalls
    have hop := (token_of_unary (α := α) hop).1
    refine ⟨ih trivial ?_, le_rfl⟩
    simp only [parentheses_cons, Goal.calls, Tree.calls] at hcalls ⊢
    omega
  | update hop h ih =>
    intro _ hcalls
    have hop := (token_of_update (α := α) hop).1
    refine ⟨ih trivial ?_, le_rfl⟩
    simp only [parentheses_cons, Goal.calls, Tree.calls] at hcalls ⊢
    omega
  | noSuffix h => exact fun hready _ => ⟨hready.1, hready.2 ▸ Nat.le_succ _⟩
  | element h h' ih ih' =>
    intro hready hcalls
    have h₁ := h.calls_le
    have h₂ := h'.calls_le
    simp [Token.parentheses, Goal.calls, Tree.calls] at hcalls h₁ h₂ ih ih'
    have hk := ih (Nat.one_le_iff_ne_zero.2 (Nat.succ_ne_zero _)) (by omega)
    exact ih' ⟨⟨hready.1, hready.2, hk.1⟩, rfl⟩ (by omega)
  | call h ih =>
    intro hready hcalls
    refine ih ⟨hready.1, hready.2, trivial⟩ ?_
    simp [Token.parentheses, Goal.calls, Tree.callsAll] at hcalls ⊢
    omega
  | postfixUpdate hop => exact fun hready _ => ⟨hready, le_rfl⟩
  | close h ih =>
    intro hready hcalls
    refine ih ⟨hready, rfl⟩ ?_
    simp [Token.parentheses, Goal.calls, Tree.calls] at hcalls ⊢
    omega
  | lastArgument h h' ih ih' =>
    intro hready hcalls
    have h₁ := h.calls_le
    have h₂ := h'.calls_le
    simp [Token.parentheses, Goal.calls, Tree.calls, Tree.callsAll_append, Tree.callsAll]
      at hcalls h₁ h₂ ih ih'
    have hk := ih (Nat.one_le_iff_ne_zero.2 (Nat.succ_ne_zero _)) (by omega)
    refine ih' ⟨⟨hready.1, hready.2.1, ?_⟩, rfl⟩ (by omega)
    exact Tree.fitsAll_append.2 ⟨hready.2.2, hk.1, trivial⟩
  | argument h h' ih ih' =>
    intro hready hcalls
    have h₁ := h.calls_le
    have h₂ := h'.calls_le
    simp [Token.parentheses, Goal.calls, Tree.callsAll_append, Tree.callsAll]
      at hcalls h₁ h₂ ih ih'
    have hk := ih (Nat.one_le_iff_ne_zero.2 (Nat.succ_ne_zero _)) (by omega)
    refine ih' ⟨hready.1, hready.2.1, ?_⟩ (by omega)
    exact Tree.fitsAll_append.2 ⟨hready.2.2, hk.1, trivial⟩
  | noOperator h => exact fun hready _ => ⟨hready.1, hready.2.1, h⟩
  | @operator min e op k _ r _ _ _ hop hk h h' ih ih' =>
    rintro ⟨hfits, hlevel, hhead⟩ hcalls
    have h₁ := h.calls_le
    have h₂ := h'.calls_le
    have hparen := (token_of_binaryLevel (α := α) hop).1
    simp only [parentheses_cons, Goal.calls, Tree.calls] at hcalls h₁ h₂ ih ih'
    obtain ⟨hr, hrlevel, hrest⟩ := ih (binaryLevel_pos hop).2 (by omega)
    have hlevel' : (Tree.binary op e r).level = k := by
      simp [Tree.level, hop]
    have hhead : k ≤ e.level := by simpa [headLevel, hop] using hhead
    refine ih' ⟨⟨hfits, hr, ?_, ?_⟩, ?_, ?_⟩ (by omega)
    · simpa [hop] using hhead
    · simpa [hop] using hrlevel
    · rwa [hlevel']
    · rw [hlevel']
      exact Nat.lt_succ_iff.1 hrest

/-- How a tree is read from its tokens with others after them. -/
structure Tree.ReadsBack (e : Tree α) : Prop where
  /-- then what belongs to it is read -/
  operand : e.level = operandLevel → ∀ {ts e' rest}, Parses (.suffix e) ts e' rest →
    Parses .operand (e.flatten ++ ts) e' rest
  unary : unaryLevel ≤ e.level → ∀ {ts}, opensSuffix ts = false →
    Parses .operand (e.flatten ++ ts) e ts
  /-- then binary operators are read -/
  expression : ∀ {min ts e' rest}, min ≤ e.level → opensSuffix ts = false →
    headLevel ts ≤ e.level → Parses (.climb min e) ts e' rest →
    Parses (.expression min) (e.flatten ++ ts) e' rest

theorem Tree.readsBack_operand (h : ∀ {ts e' rest}, Parses (.suffix e) ts e' rest →
    Parses .operand (e.flatten ++ ts) e' rest) : e.ReadsBack where
  operand _ := h
  unary _ _ hsuffix := h (.noSuffix hsuffix)
  expression _ hsuffix _ hclimb := .expression (h (.noSuffix hsuffix)) hclimb

theorem Tree.readsBack_unary (hlevel : e.level = unaryLevel)
    (h : ∀ {ts}, opensSuffix ts = false → Parses .operand (e.flatten ++ ts) e ts) :
    e.ReadsBack where
  operand heq := by
    rw [hlevel] at heq
    cases heq
  unary _ _ hsuffix := h hsuffix
  expression _ hsuffix _ hclimb := .expression (h hsuffix) hclimb

/-- A tree up to a token that cannot belong to it. -/
theorem Tree.ReadsBack.closed {min : Nat} (h : e.ReadsBack) (hlevel : min ≤ e.level)
    (hsuffix : opensSuffix ts = false) (hhead : headLevel ts < min) :
    Parses (.expression min) (e.flatten ++ ts) e ts :=
  h.expression hlevel hsuffix (hhead.le.trans hlevel) (.noOperator hhead)

theorem Tree.level_pos (h : e.Spelled) : 1 ≤ e.level := by
  cases e with
  | binary op l r =>
    obtain ⟨⟨k, hk⟩, -⟩ := h
    simpa [level, hk] using (binaryLevel_pos hk).1
  | _ => simp [level]

theorem parses_arguments {f : Tree α} : ∀ {es before : List (Tree α)} {ts : List (Token α)}
    {e : Tree α} {rest : List (Token α)}, (∀ e ∈ es, e.Spelled ∧ e.ReadsBack) →
    Parses (.suffix (.call f (before ++ es))) ts e rest →
    Parses (.arguments f before) (Tree.flattenAll es ++ .punctuator [')'] :: ts) e rest
  | [], before, ts, e, rest, _, h => by
    rw [List.append_nil] at h
    exact .close h
  | [e₁], before, ts, e, rest, hes, h => by
    obtain ⟨hspelled, hreads⟩ := hes e₁ List.mem_cons_self
    have h₁ : Parses (.expression 1) (e₁.flatten ++ .punctuator [')'] :: ts) e₁
        (.punctuator [')'] :: ts) := hreads.closed (Tree.level_pos hspelled) rfl Nat.one_pos
    exact .lastArgument h₁ h
  | e₁ :: e₂ :: es, before, ts, e, rest, hes, h => by
    obtain ⟨hspelled, hreads⟩ := hes e₁ List.mem_cons_self
    have h₂ : Parses (.arguments f (before ++ [e₁]))
        (Tree.flattenAll (e₂ :: es) ++ .punctuator [')'] :: ts) e rest :=
      parses_arguments (fun e he => hes e (List.mem_cons_of_mem _ he)) (by simpa using h)
    have h₁ : ∀ ts', Parses (.expression 1) (e₁.flatten ++ .punctuator [','] :: ts') e₁
        (.punctuator [','] :: ts') :=
      fun _ => hreads.closed (Tree.level_pos hspelled) rfl Nat.one_pos
    have hparses := Parses.argument (h₁ _) h₂
    simpa [Tree.flattenAll] using hparses

theorem Tree.spelledAll_iff {es : List (Tree α)} : SpelledAll es ↔ ∀ e ∈ es, e.Spelled := by
  induction es with
  | nil => simp [SpelledAll]
  | cons e es ih => simp [SpelledAll, ih]

theorem Tree.fitsAll_iff {es : List (Tree α)} : FitsAll es ↔ ∀ e ∈ es, e.Fits := by
  induction es with
  | nil => simp [FitsAll]
  | cons e es ih => simp [FitsAll, ih]

theorem Tree.readsBack (e : Tree α) : e.Spelled → e.Fits → e.ReadsBack := by
  induction e with
  | word w => exact fun _ _ => readsBack_operand .word
  | element e k ihe ihk =>
    rintro ⟨hse, hsk⟩ ⟨hfe, hlevel, hfk⟩
    refine readsBack_operand fun {ts e' rest} h => ?_
    have hk : Parses (.expression 1) (k.flatten ++ .punctuator [']'] :: ts) k
        (.punctuator [']'] :: ts) := (ihk hsk hfk).closed (level_pos hsk) rfl Nat.one_pos
    have hparses := (ihe hse hfe).operand hlevel (.element hk h)
    simpa [flatten] using hparses
  | call f es ihf ihes =>
    rintro ⟨hsf, hses⟩ ⟨hff, hlevel, hfes⟩
    rw [spelledAll_iff] at hses
    rw [fitsAll_iff] at hfes
    refine readsBack_operand fun {ts e' rest} h => ?_
    have hes : Parses (.arguments f []) (flattenAll es ++ .punctuator [')'] :: ts) e' rest :=
      parses_arguments (fun e he => ⟨hses e he, ihes e he (hses e he) (hfes e he)⟩) h
    have hparses := (ihf hsf hff).operand hlevel (.call hes)
    simpa [flatten] using hparses
  | unary op e ih =>
    rintro ⟨hop, hs⟩ ⟨hf, hlevel⟩
    exact readsBack_unary rfl fun hsuffix => .unary hop ((ih hs hf).unary hlevel hsuffix)
  | update op e ih =>
    rintro ⟨hop, hs⟩ ⟨hf, hlevel⟩
    exact readsBack_unary rfl fun hsuffix => .update hop ((ih hs hf).unary hlevel hsuffix)
  | postfixUpdate e op ih =>
    rintro ⟨hop, hs⟩ ⟨hf, hlevel⟩
    refine readsBack_unary rfl fun {ts} hsuffix => ?_
    have hparses : Parses .operand (e.flatten ++ .punctuator op :: ts) (postfixUpdate e op) ts :=
      (ih hs hf).operand hlevel (.postfixUpdate hop)
    simpa [flatten] using hparses
  | binary op l r ihl ihr =>
    rintro ⟨⟨k, hk⟩, hsl, hsr⟩ ⟨hfl, hfr, hl, hr⟩
    have hlevel : (binary op l r).level = k := by
      simp [level, hk]
    rw [hk, Option.getD_some] at hl hr
    have hpos := binaryLevel_pos hk
    refine ⟨fun h => ?_, fun h => ?_, fun {min ts e' rest} hmin hsuffix hhead hclimb => ?_⟩
    · rw [hlevel] at h
      rw [h] at hpos
      exact absurd hpos.2 (by decide)
    · rw [hlevel] at h
      exact absurd hpos.2 (Nat.not_lt.2 h)
    · rw [hlevel] at hmin hhead
      -- the operators after the tree do not bind its right operand
      have hright := (ihr hsr hfr).closed hr hsuffix (Nat.lt_succ_of_le hhead)
      have hparses := (ihl hsl hfl).expression (hmin.trans hl) (opensSuffix_of_binaryLevel hk)
        (by simpa [headLevel, hk] using hl) (.operator hk hmin hright hclimb)
      simpa [flatten] using hparses

/-- The parentheses and the updates among the tokens of a tree are its own. -/
theorem Tree.count_flatten (e : Tree α) : e.Spelled →
    parentheses e.flatten = e.calls ∧ Ecma.updates e.flatten = e.updates := by
  induction e with
  | word w => exact fun _ => ⟨rfl, rfl⟩
  | element e k ihe ihk =>
    rintro ⟨hse, hsk⟩
    obtain ⟨h₁, h₂⟩ := ihe hse
    obtain ⟨h₃, h₄⟩ := ihk hsk
    simp [flatten, calls, Tree.updates, h₁, h₂, h₃, h₄, Token.parentheses, Token.updates,
      updateOperators]
  | call f es ihf ihes =>
    rintro ⟨hsf, hses⟩
    obtain ⟨h₁, h₂⟩ := ihf hsf
    have hall : ∀ es : List (Tree α), (∀ e ∈ es, e.Spelled → parentheses e.flatten = e.calls ∧
        Ecma.updates e.flatten = e.updates) → SpelledAll es →
        parentheses (flattenAll es) = callsAll es ∧
          Ecma.updates (flattenAll es) = updatesAll es := by
      intro es
      induction es with
      | nil => exact fun _ _ => ⟨rfl, rfl⟩
      | cons e es ih =>
        rintro h ⟨hs, hses⟩
        obtain ⟨h₁, h₂⟩ := h e List.mem_cons_self hs
        obtain ⟨h₃, h₄⟩ := ih (fun e he => h e (List.mem_cons_of_mem _ he)) hses
        cases es with
        | nil => exact ⟨h₁, h₂⟩
        | cons e' es =>
          simp [flattenAll, callsAll, updatesAll, h₁, h₂, h₃, h₄, Token.parentheses,
            Token.updates, updateOperators]
    obtain ⟨h₃, h₄⟩ := hall es ihes hses
    simp [flatten, calls, Tree.updates, h₁, h₂, h₃, h₄, Token.parentheses, Token.updates,
      updateOperators]
    omega
  | unary op e ih =>
    rintro ⟨hop, hs⟩
    obtain ⟨h₁, h₂⟩ := ih hs
    simp [flatten, calls, Tree.updates, h₁, h₂, token_of_unary hop]
  | update op e ih =>
    rintro ⟨hop, hs⟩
    obtain ⟨h₁, h₂⟩ := ih hs
    simp [flatten, calls, Tree.updates, h₁, h₂, token_of_update hop]
    omega
  | postfixUpdate e op ih =>
    rintro ⟨hop, hs⟩
    obtain ⟨h₁, h₂⟩ := ih hs
    simp [flatten, calls, Tree.updates, h₁, h₂, token_of_update hop]
  | binary op l r ihl ihr =>
    rintro ⟨⟨k, hk⟩, hsl, hsr⟩
    obtain ⟨h₁, h₂⟩ := ihl hsl
    obtain ⟨h₃, h₄⟩ := ihr hsr
    simp [flatten, calls, Tree.updates, h₁, h₂, h₃, h₄, token_of_binaryLevel hk]

/-- A tree is read from its tokens exactly if it needs no parentheses. -/
theorem parses_flatten_iff (h : e.Spelled) :
    Parses (.expression 1) e.flatten e [] ↔ e.Fits := by
  constructor
  · intro hparses
    refine (hparses.done ?_ ?_).1
    · exact Nat.succ_le_succ (Nat.zero_le 10)
    · rw [(e.count_flatten h).1]
      exact le_rfl
  · intro hfits
    have hparses : Parses (.expression 1) (e.flatten ++ []) e [] :=
      (e.readsBack h hfits).closed (Tree.level_pos h) rfl Nat.one_pos
    rwa [List.append_nil] at hparses

end

/-! ## A word behind an expression -/

section

variable {α : Type} {g : Goal α} {ts rest : List (Token α)} {e : Tree α}

/-- The precedence from which on operators belong to what is read. -/
def Goal.least : Goal α → Nat
  | .expression min | .climb min _ => min
  | .operand | .suffix _ | .arguments .. => unaryLevel

/-- `|| w` behind what is read is no part of it, unless operators of every precedence are. -/
theorem Parses.extend_or (w : α) (h : Parses g ts e rest) :
    (rest ≠ [] ∨ 1 < g.least →
      Parses g (ts ++ [.punctuator ['|', '|'], .word w]) e
        (rest ++ [.punctuator ['|', '|'], .word w])) ∧
    (rest = [] → g.least ≤ 1 →
      Parses g (ts ++ [.punctuator ['|', '|'], .word w])
        (.binary ['|', '|'] e (.word w)) []) := by
  have hunary : ¬unaryLevel ≤ 1 := by decide
  have hclosed : 1 < unaryLevel := by decide
  induction h with
  | @expression min ts e ts' e' rest h h' ih ih' =>
    have hoperand := ih.1 (.inr hclosed)
    exact ⟨fun hrest => .expression hoperand (ih'.1 hrest),
      fun hrest hmin => .expression hoperand (ih'.2 hrest hmin)⟩
  | word _ ih => exact ⟨fun _ => .word (ih.1 (.inr hclosed)), fun _ h => absurd h hunary⟩
  | group _ _ ih ih' =>
    exact ⟨fun _ => .group (ih.1 (.inl (List.cons_ne_nil _ _))) (ih'.1 (.inr hclosed)),
      fun _ h => absurd h hunary⟩
  | unary hop _ ih =>
    exact ⟨fun _ => .unary hop (ih.1 (.inr hclosed)), fun _ h => absurd h hunary⟩
  | update hop _ ih =>
    exact ⟨fun _ => .update hop (ih.1 (.inr hclosed)), fun _ h => absurd h hunary⟩
  | @noSuffix e ts h =>
    refine ⟨fun _ => .noSuffix ?_, fun _ h => absurd h hunary⟩
    cases ts with
    | nil => rfl
    | cons t ts => cases t <;> exact h
  | element _ _ ih ih' =>
    exact ⟨fun _ => .element (ih.1 (.inl (List.cons_ne_nil _ _))) (ih'.1 (.inr hclosed)),
      fun _ h => absurd h hunary⟩
  | call _ ih => exact ⟨fun _ => .call (ih.1 (.inr hclosed)), fun _ h => absurd h hunary⟩
  | postfixUpdate hop => exact ⟨fun _ => .postfixUpdate hop, fun _ h => absurd h hunary⟩
  | close _ ih => exact ⟨fun _ => .close (ih.1 (.inr hclosed)), fun _ h => absurd h hunary⟩
  | lastArgument _ _ ih ih' =>
    exact ⟨fun _ => .lastArgument (ih.1 (.inl (List.cons_ne_nil _ _))) (ih'.1 (.inr hclosed)),
      fun _ h => absurd h hunary⟩
  | argument _ _ ih ih' =>
    exact ⟨fun _ => .argument (ih.1 (.inl (List.cons_ne_nil _ _))) (ih'.1 (.inr hclosed)),
      fun _ h => absurd h hunary⟩
  | @noOperator min e ts h =>
    cases ts with
    | cons t ts =>
      refine ⟨fun _ => .noOperator ?_, nofun⟩
      cases t <;> exact h
    | nil =>
      refine ⟨fun hmin => .noOperator ?_, fun _ hmin => ?_⟩
      · exact hmin.resolve_left fun h => h rfl
      · have hword : Parses (.expression 2) [.word w] (.word w) [] :=
          .expression (.word (.noSuffix rfl)) (.noOperator Nat.two_pos)
        exact .operator (k := 1) rfl hmin hword (.noOperator h)
  | operator hop hk _ _ ih ih' =>
    have hright := ih.1 (.inr (Nat.lt_succ_of_le (binaryLevel_pos hop).1))
    exact ⟨fun h => .operator hop hk hright (ih'.1 h),
      fun h hmin => .operator hop hk hright (ih'.2 h hmin)⟩

/-- What is read before `|| w` is its left operand. -/
theorem Parses.or_word (w : α) (h : Parses (.expression 1) ts e []) :
    Parses (.expression 1) (ts ++ [.punctuator ['|', '|'], .word w])
      (.binary ['|', '|'] e (.word w)) [] :=
  (h.extend_or w).2 rfl le_rfl

end

end Ecma
