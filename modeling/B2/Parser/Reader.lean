import B2.Parser.Resolution

/-!
# Reading tokens

A reader of the grammar of `syntax.y` that goes by the next tokens: `readRoot` finds the
derivation of a list of tokens that the generated parser builds, if there is one. Every
reader gives what it has read and the tokens after it; `n` bounds the depth of its calls.
-/

namespace B2

/-- The operator that a token is between two operands. -/
def Token.connective : Token → Option Connective
  | .plus => some (.binary .addition)
  | .minus => some (.binary .subtraction)
  | .mul => some (.binary .multiplication)
  | .div => some (.binary .division)
  | .mod => some (.binary .modulus)
  | .eq => some (.comparison .equal)
  | .neq => some (.comparison .notEqual)
  | .gt => some (.comparison .greaterThan)
  | .ge => some (.comparison .greaterOrEqual)
  | .lt => some (.comparison .lessThan)
  | .le => some (.comparison .lessOrEqual)
  | .or => some (.comparison .or)
  | .and => some (.comparison .and)
  | _ => none

theorem Connective.connective_token (op : Connective) : op.token.connective = some op := by
  rcases op with op | op <;> cases op <;> rfl

theorem Connective.token_of_connective {t : Token} {op : Connective}
    (h : t.connective = some op) : op.token = t := by
  cases t <;> cases h <;> rfl

def expect (t : Token) : List Token → Option (List Token)
  | [] => none
  | t' :: l => if t' = t then some l else none

/-! ## Expressions -/

def readAttributes (v : VarRefTree) : List Token → VarRefTree × List Token
  | .attributeSeparator :: .identifier a :: l => readAttributes (.getAttribute v a) l
  | l => (v, l)

def readVarRef : List Token → Option (VarRefTree × List Token)
  | .identifier x :: l => some (readAttributes (.identifier x) l)
  | _ => none

mutual

/-- An operand with its prefix operators. -/
def readOperand : Nat → List Token → Option (ExpressionTree × List Token)
  | 0, _ => none
  | n + 1, .minus :: l => do
    let (e, l) ← readOperand n l
    return (.minus e, l)
  | n + 1, .plus :: l => do
    let (e, l) ← readOperand n l
    return (.plus e, l)
  | n + 1, .not :: l => do
    let (e, l) ← readOperand n l
    return (.not e, l)
  | n + 1, .openParen :: l => do
    let (e, l) ← readExpression n l
    let l ← expect .closeParen l
    return (.parentheses e, l)
  | n + 1, .identifier m :: .openParen :: l => do
    let (args, l) ← readArguments n l
    let l ← expect .closeParen l
    return (.methodCall m args, l)
  | _ + 1, .identifier x :: l =>
    let p := readAttributes (.identifier x) l
    some (.varRef p.1, p.2)
  | _ + 1, .stringLiteral v :: l => some (.stringLiteral v, l)
  | _ + 1, .doubleLiteral v :: l => some (.doubleLiteral v, l)
  | _ + 1, .integerLiteral v :: l => some (.integerLiteral v, l)
  | _ + 1, .booleanLiteral v :: l => some (.booleanLiteral v, l)
  | _ + 1, _ => none

/-- Operators, each with its right operand. -/
def readOperations : Nat → List Token → Option (List (Connective × ExpressionTree) × List Token)
  | 0, _ => none
  | _ + 1, [] => some ([], [])
  | n + 1, t :: l =>
    match t.connective with
    | some op => do
      let (e, l) ← readOperand n l
      let (s, l) ← readOperations n l
      return ((op, e) :: s, l)
    | none => some ([], t :: l)

def readExpression : Nat → List Token → Option (ExpressionTree × List Token)
  | 0, _ => none
  | n + 1, l => do
    let (e, l) ← readOperand n l
    let (s, l) ← readOperations n l
    return (.assemble (e, s), l)

def readArguments : Nat → List Token → Option (ArgumentsTree × List Token)
  | 0, _ => none
  | n + 1, l => do
    let (e, l) ← readExpression n l
    readMoreArguments n (.one e) l

/-- The arguments after `args`. -/
def readMoreArguments : Nat → ArgumentsTree → List Token → Option (ArgumentsTree × List Token)
  | 0, _, _ => none
  | n + 1, args, .comma :: l => do
    let (e, l) ← readExpression n l
    readMoreArguments n (.snoc args e) l
  | _ + 1, args, l => some (args, l)

end

/-! ## Tags -/

/-- A variable of an include tag, and the expression given for it if it is not the variable. -/
def readEntry (n : Nat) : List Token → Option ((Text × Option ExpressionTree) × List Token)
  | .identifier key :: .assign :: l => do
    let (e, l) ← readExpression n l
    return ((key, some e), l)
  | .identifier val :: l => some ((val, none), l)
  | _ => none

namespace MappingTree

def ofEntry : Text × Option ExpressionTree → MappingTree
  | (val, none) => .identifier val
  | (key, some e) => .assign key e

def addEntry (mapping : MappingTree) : Text × Option ExpressionTree → MappingTree
  | (val, none) => .snocIdentifier mapping val
  | (key, some e) => .snocAssign mapping key e

end MappingTree

/-- The entries after `mapping`. -/
def readMoreEntries : Nat → MappingTree → List Token → Option (MappingTree × List Token)
  | 0, _, _ => none
  | n + 1, mapping, .comma :: l => do
    let (entry, l) ← readEntry n l
    readMoreEntries n (mapping.addEntry entry) l
  | _ + 1, mapping, l => some (mapping, l)

/-- An include tag from the name of the template on. -/
def readIncludeBlock (n : Nat) : List Token → Option (IncludeBlockTree × List Token)
  | .stringLiteral name :: .blockEnd :: l => some (.plain name, l)
  | .stringLiteral name :: .kwUsing :: l => do
    let (scope, l) ← readExpression n l
    let l ← expect .blockEnd l
    return (.usingScope name scope, l)
  | .stringLiteral name :: .kwWith :: l => do
    let (entry, l) ← readEntry n l
    let (mapping, l) ← readMoreEntries n (.ofEntry entry) l
    let l ← expect .blockEnd l
    return (.withMapping name mapping, l)
  | _ => none

/-- The variables of a for tag. -/
def readTargets (l : List Token) : Option ((Option VarRefTree × VarRefTree) × List Token) := do
  let (v, l) ← readVarRef l
  match l with
  | .comma :: l => do
    let (value, l) ← readVarRef l
    return ((some v, value), l)
  | l => some ((none, v), l)

def readRaw (blocks : RawBlocksTree) : List Token → RawBlocksTree × List Token
  | .raw text :: l => readRaw (.snoc blocks text) l
  | l => (blocks, l)

/-! ## Statements -/

/-- The tokens go on with a statement. -/
def startsStatement : List Token → Bool
  | .raw _ :: _ | .variableStart :: _ | .blockStart :: .kwIf :: _ | .blockStart :: .kwFor :: _
  | .blockStart :: .kwInclude :: _ => true
  | _ => false

mutual

def readStatement : Nat → List Token → Option (StatementTree × List Token)
  | 0, _ => none
  | _ + 1, .raw text :: l =>
    let p := readRaw (.one text) l
    some (.rawBlocks p.1, p.2)
  | n + 1, .variableStart :: l => do
    let (e, l) ← readExpression n l
    let l ← expect .variableEnd l
    return (.printBlock e, l)
  | n + 1, .blockStart :: .kwIf :: l => do
    let (cond, l) ← readExpression n l
    let l ← expect .blockEnd l
    let (then_body, l) ← readStatements n l
    let l ← expect .blockStart l
    let (elif_blocks, l) ← readElseifBlocks n .empty l
    let (else_body, l) ← readElseBlock n l
    let l ← expect .kwEndif l
    let l ← expect .blockEnd l
    return (.ifBlock cond then_body elif_blocks else_body, l)
  | n + 1, .blockStart :: .kwFor :: l => do
    let ((key, value), l) ← readTargets l
    let l ← expect .kwIn l
    let (iterable, l) ← readVarRef l
    let l ← expect .blockEnd l
    let (body, l) ← readStatements n l
    let l ← expect .blockStart l
    let (elseBody, l) ← readElseBlock n l
    let l ← expect .kwEndfor l
    let l ← expect .blockEnd l
    return (.forStatement key value iterable body elseBody, l)
  | n + 1, .blockStart :: .kwInclude :: l => do
    let (block, l) ← readIncludeBlock n l
    return (.includeBlock block, l)
  | _ + 1, _ => none

def readStatements : Nat → List Token → Option (StatementsTree × List Token)
  | 0, _ => none
  | n + 1, l => do
    let (s, l) ← readStatement n l
    readMoreStatements n (.one s) l

/-- The statements after `before`. -/
def readMoreStatements : Nat → StatementsTree → List Token → Option (StatementsTree × List Token)
  | 0, _, _ => none
  | n + 1, before, l =>
    if startsStatement l then do
      let (s, l) ← readStatement n l
      readMoreStatements n (.snoc before s) l
    else some (before, l)

/-- The elseif branches after `prev_elif`. -/
def readElseifBlocks : Nat → ElseifBlocksTree → List Token → Option (ElseifBlocksTree × List Token)
  | 0, _, _ => none
  | n + 1, prev_elif, .kwElseif :: l => do
    let (cond, l) ← readExpression n l
    let l ← expect .blockEnd l
    let (body, l) ← readStatements n l
    let l ← expect .blockStart l
    readElseifBlocks n (.snoc prev_elif cond body) l
  | _ + 1, prev_elif, l => some (prev_elif, l)

def readElseBlock : Nat → List Token → Option (ElseBlockTree × List Token)
  | 0, _ => none
  | n + 1, .kwElse :: l => do
    let l ← expect .blockEnd l
    let (body, l) ← readStatements n l
    let l ← expect .blockStart l
    return (.body body, l)
  | _ + 1, l => some (.empty, l)

end

/-- The derivation of the tokens of a template. -/
def readRoot : List Token → Option RootTree
  | [] => some .empty
  | l =>
    match readStatements (2 * l.length + 2) l with
    | some (statements, []) => some (.statements statements)
    | _ => none

/-! ## What a reader gives -/

section

variable {α β : Type} {t : Token} {l l' : List Token}

theorem exists_of_bind_eq_some {o : Option (α × List Token)} {f : α × List Token → Option β} {b : β}
    (h : (o >>= f) = some b) : ∃ a l, o = some (a, l) ∧ f (a, l) = some b := by
  obtain ⟨⟨a, l⟩, ho, hf⟩ := Option.bind_eq_some_iff.1 h
  exact ⟨a, l, ho, hf⟩

theorem expect_eq_some_iff : expect t l = some l' ↔ l = t :: l' := by
  cases l with
  | nil => simp [expect]
  | cons t' l =>
    by_cases h : t' = t
    · simp [expect, h]
    · simp [expect, h]

theorem of_expect_bind {f : List Token → Option β} {b : β} (h : (expect t l >>= f) = some b) :
    ∃ l', l = t :: l' ∧ f l' = some b := by
  obtain ⟨l', hl, hf⟩ := Option.bind_eq_some_iff.1 h
  exact ⟨l', expect_eq_some_iff.1 hl, hf⟩

end

theorem tokens_readAttributes (v : VarRefTree) (l : List Token) :
    (readAttributes v l).1.tokens ++ (readAttributes v l).2 = v.tokens ++ l := by
  fun_induction readAttributes v l with
  | case1 v a l ih => rw [ih, VarRefTree.tokens, List.append_assoc]; rfl
  | case2 v l => rfl

theorem tokens_readVarRef {l l' : List Token} {v : VarRefTree} (h : readVarRef l = some (v, l')) :
    l = v.tokens ++ l' := by
  unfold readVarRef at h
  split at h
  · rename_i x l
    have htokens := tokens_readAttributes (.identifier x) l
    rw [Option.some.inj h] at htokens
    exact htokens.symm
  · cases h

namespace ExpressionTree

/-- The readers of expressions give resolved trees of the tokens they take. -/
structure Reads (n : Nat) : Prop where
  operand : ∀ {l l' e}, readOperand n l = some (e, l') →
    l = e.tokens ++ l' ∧ e.IsOperand ∧ e.Resolved
  operations : ∀ {l l' s}, readOperations n l = some (s, l') →
    l = restTokens s ++ l' ∧ ∀ y ∈ s, y.2.IsOperand ∧ y.2.Resolved
  expression : ∀ {l l' e}, readExpression n l = some (e, l') → l = e.tokens ++ l' ∧ e.Resolved
  arguments : ∀ {l l' args}, readArguments n l = some (args, l') →
    l = args.tokens ++ l' ∧ ArgumentsResolved args
  moreArguments : ∀ {l l' before args}, readMoreArguments n before l = some (args, l') →
    ArgumentsResolved before → before.tokens ++ l = args.tokens ++ l' ∧ ArgumentsResolved args

namespace Reads

variable {n : Nat} {l l' : List Token}

theorem operand_succ (ih : Reads n) {e : ExpressionTree}
    (h : readOperand (n + 1) l = some (e, l')) :
    l = e.tokens ++ l' ∧ e.IsOperand ∧ e.Resolved := by
  generalize hn : n + 1 = m at h
  fun_cases readOperand m l with
  | case1 => cases hn
  | case2 _ l | case3 _ l | case4 _ l =>
    cases hn
    rw [readOperand] at h
    obtain ⟨e₁, l₁, he, hend⟩ := exists_of_bind_eq_some h
    obtain ⟨rfl, hoperand, hresolved⟩ := ih.operand he
    cases hend
    exact ⟨rfl, hoperand, hoperand.goesOn _, hresolved⟩
  | case5 _ l =>
    cases hn
    rw [readOperand] at h
    obtain ⟨e₁, l₁, he, hrest⟩ := exists_of_bind_eq_some h
    obtain ⟨l₂, rfl, hend⟩ := of_expect_bind hrest
    obtain ⟨rfl, hresolved⟩ := ih.expression he
    cases hend
    exact ⟨by simp [tokens], trivial, hresolved⟩
  | case6 _ m l =>
    cases hn
    rw [readOperand] at h
    obtain ⟨args, l₁, hargs, hrest⟩ := exists_of_bind_eq_some h
    obtain ⟨l₂, rfl, hend⟩ := of_expect_bind hrest
    obtain ⟨rfl, hresolved⟩ := ih.arguments hargs
    cases hend
    exact ⟨by simp [tokens], trivial, hresolved⟩
  | case7 _ x l hparen =>
    cases hn
    rw [readOperand] at h
    · cases h
      exact ⟨(tokens_readAttributes (.identifier x) l).symm, trivial, trivial⟩
    · exact hparen
  | case8 | case9 | case10 | case11 =>
    cases hn
    rw [readOperand] at h
    cases h
    exact ⟨rfl, trivial, trivial⟩
  | case12 =>
    cases hn
    rw [readOperand] at h
    · cases h
    all_goals assumption

theorem operations_succ (ih : Reads n) {s : List (Connective × ExpressionTree)}
    (h : readOperations (n + 1) l = some (s, l')) :
    l = restTokens s ++ l' ∧ ∀ y ∈ s, y.2.IsOperand ∧ y.2.Resolved := by
  cases l with
  | nil =>
    rw [readOperations] at h
    cases h
    exact ⟨rfl, fun y hy => absurd hy List.not_mem_nil⟩
  | cons t l =>
    rw [readOperations] at h
    cases hop : t.connective with
    | none =>
      rw [hop] at h
      cases h
      exact ⟨rfl, fun y hy => absurd hy List.not_mem_nil⟩
    | some op =>
      rw [hop] at h
      obtain ⟨e₁, l₁, he, hmore⟩ := exists_of_bind_eq_some h
      obtain ⟨s₁, l₂, hs, hend⟩ := exists_of_bind_eq_some hmore
      obtain ⟨rfl, hresolved⟩ := ih.operand he
      obtain ⟨rfl, hrest⟩ := ih.operations hs
      cases hend
      refine ⟨?_, List.forall_mem_cons.2 ⟨hresolved, hrest⟩⟩
      simp [restTokens, Connective.token_of_connective hop]

theorem expression_succ (ih : Reads n) {e : ExpressionTree}
    (h : readExpression (n + 1) l = some (e, l')) : l = e.tokens ++ l' ∧ e.Resolved := by
  obtain ⟨e₁, l₁, he, hmore⟩ := exists_of_bind_eq_some h
  obtain ⟨s₁, l₂, hs, hend⟩ := exists_of_bind_eq_some hmore
  obtain ⟨rfl, hresolved⟩ := ih.operand he
  obtain ⟨rfl, hrest⟩ := ih.operations hs
  cases hend
  refine ⟨?_, resolved_assemble ⟨hresolved, hrest⟩⟩
  rw [tokens_assemble, List.append_assoc]

theorem arguments_succ (ih : Reads n) {args : ArgumentsTree}
    (h : readArguments (n + 1) l = some (args, l')) :
    l = args.tokens ++ l' ∧ ArgumentsResolved args := by
  obtain ⟨e₁, l₁, he, hmore⟩ := exists_of_bind_eq_some h
  obtain ⟨rfl, hresolved⟩ := ih.expression he
  exact ih.moreArguments hmore hresolved

theorem moreArguments_succ (ih : Reads n) {before args : ArgumentsTree}
    (h : readMoreArguments (n + 1) before l = some (args, l'))
    (hbefore : ArgumentsResolved before) :
    before.tokens ++ l = args.tokens ++ l' ∧ ArgumentsResolved args := by
  generalize hn : n + 1 = m at h
  fun_cases readMoreArguments m before l with
  | case1 => cases hn
  | case2 _ _ l =>
    cases hn
    rw [readMoreArguments] at h
    obtain ⟨e₁, l₁, he, hmore⟩ := exists_of_bind_eq_some h
    obtain ⟨rfl, hresolved⟩ := ih.expression he
    obtain ⟨htokens, hargs⟩ := ih.moreArguments hmore ⟨hbefore, hresolved⟩
    refine ⟨?_, hargs⟩
    rw [← htokens, ArgumentsTree.tokens]
    simp
  | case3 _ _ l hcomma =>
    cases hn
    rw [readMoreArguments] at h
    · cases h
      exact ⟨rfl, hbefore⟩
    · exact hcomma

end Reads

theorem reads (n : Nat) : Reads n := by
  induction n with
  | zero =>
    constructor
    · rintro _ _ _ ⟨⟩
    · rintro _ _ _ ⟨⟩
    · rintro _ _ _ ⟨⟩
    · rintro _ _ _ ⟨⟩
    · rintro _ _ _ _ ⟨⟩
  | succ n ih =>
    exact ⟨ih.operand_succ, ih.operations_succ, ih.expression_succ, ih.arguments_succ,
      ih.moreArguments_succ⟩

end ExpressionTree

/-! ### Tags -/

namespace MappingTree

variable {mapping : MappingTree} {entry : Text × Option ExpressionTree}

theorem tokens_addEntry :
    (mapping.addEntry entry).tokens = mapping.tokens ++ .comma :: (ofEntry entry).tokens := by
  obtain ⟨x, _ | e⟩ := entry <;> rfl

theorem resolved_addEntry :
    (mapping.addEntry entry).Resolved ↔ mapping.Resolved ∧ (ofEntry entry).Resolved := by
  obtain ⟨x, _ | e⟩ := entry
  · exact (and_iff_left trivial).symm
  · rfl

end MappingTree

section

variable {n : Nat} {l l' : List Token}

theorem readEntry_sound {entry : Text × Option ExpressionTree}
    (h : readEntry n l = some (entry, l')) :
    l = (MappingTree.ofEntry entry).tokens ++ l' ∧ (MappingTree.ofEntry entry).Resolved := by
  fun_cases readEntry n l with
  | case1 key l =>
    rw [readEntry] at h
    obtain ⟨e, l₁, he, hend⟩ := exists_of_bind_eq_some h
    obtain ⟨rfl, hresolved⟩ := (ExpressionTree.reads n).expression he
    cases hend
    exact ⟨rfl, hresolved⟩
  | case2 val l hassign =>
    rw [readEntry] at h
    · cases h
      exact ⟨rfl, trivial⟩
    · exact hassign
  | case3 l =>
    rw [readEntry] at h
    · cases h
    all_goals assumption

theorem readMoreEntries_sound {before mapping : MappingTree}
    (h : readMoreEntries n before l = some (mapping, l')) (hbefore : before.Resolved) :
    before.tokens ++ l = mapping.tokens ++ l' ∧ mapping.Resolved := by
  fun_induction readMoreEntries n before l with
  | case1 => cases h
  | case2 before n l ih =>
    obtain ⟨entry, l₁, hentry, hmore⟩ := exists_of_bind_eq_some h
    obtain ⟨rfl, hresolved⟩ := readEntry_sound hentry
    have hadded := MappingTree.resolved_addEntry.2 ⟨hbefore, hresolved⟩
    obtain ⟨htokens, hmapping⟩ := ih _ _ hmore hadded
    refine ⟨?_, hmapping⟩
    rw [← htokens, MappingTree.tokens_addEntry, List.append_assoc]
    rfl
  | case3 before n l =>
    cases h
    exact ⟨rfl, hbefore⟩

theorem readIncludeBlock_sound {block : IncludeBlockTree}
    (h : readIncludeBlock n l = some (block, l')) :
    .blockStart :: .kwInclude :: l = block.tokens ++ l' ∧ block.Resolved := by
  fun_cases readIncludeBlock n l with
  | case1 name l =>
    cases h
    exact ⟨rfl, trivial⟩
  | case2 name l =>
    rw [readIncludeBlock] at h
    obtain ⟨scope, l₁, hscope, hmore⟩ := exists_of_bind_eq_some h
    obtain ⟨l₂, rfl, hend⟩ := of_expect_bind hmore
    obtain ⟨rfl, hresolved⟩ := (ExpressionTree.reads n).expression hscope
    cases hend
    exact ⟨by simp [IncludeBlockTree.tokens], hresolved⟩
  | case3 name l =>
    rw [readIncludeBlock] at h
    obtain ⟨entry, l₁, hentry, hmore⟩ := exists_of_bind_eq_some h
    obtain ⟨mapping, l₂, hmapping, hclose⟩ := exists_of_bind_eq_some hmore
    obtain ⟨l₃, rfl, hend⟩ := of_expect_bind hclose
    obtain ⟨rfl, hfirst⟩ := readEntry_sound hentry
    obtain ⟨htokens, hresolved⟩ := readMoreEntries_sound hmapping hfirst
    cases hend
    refine ⟨?_, hresolved⟩
    rw [htokens]
    simp [IncludeBlockTree.tokens]
  | case4 l =>
    rw [readIncludeBlock] at h
    · cases h
    all_goals assumption

theorem readTargets_sound {key : Option VarRefTree} {value : VarRefTree}
    (h : readTargets l = some ((key, value), l')) : l = targetTokens key value ++ l' := by
  obtain ⟨v, l₁, hv, hmore⟩ := exists_of_bind_eq_some h
  have htokens := tokens_readVarRef hv
  dsimp only at hmore
  split at hmore
  · obtain ⟨value', l₂, hvalue, hend⟩ := exists_of_bind_eq_some hmore
    have hvalue := tokens_readVarRef hvalue
    cases hend
    rw [htokens, hvalue, targetTokens, List.append_assoc]
    rfl
  · cases hmore
    exact htokens

end

/-! ### Statements -/

/-- The tokens go on with raw text. -/
def StartsRaw (l : List Token) : Prop := ∃ text l', l = .raw text :: l'

theorem tokens_readRaw (blocks : RawBlocksTree) (l : List Token) :
    (readRaw blocks l).1.tokens ++ (readRaw blocks l).2 = blocks.tokens ++ l := by
  fun_induction readRaw blocks l with
  | case1 blocks text l ih => rw [ih, RawBlocksTree.tokens, List.append_assoc]; rfl
  | case2 blocks l => rfl

theorem not_startsRaw_readRaw (blocks : RawBlocksTree) (l : List Token) :
    ¬StartsRaw (readRaw blocks l).2 := by
  fun_induction readRaw blocks l with
  | case1 blocks text l ih => exact ih
  | case2 blocks l hraw =>
    rintro ⟨text, l', rfl⟩
    exact hraw text l' rfl

theorem RawBlocksTree.startsRaw (blocks : RawBlocksTree) (l : List Token) :
    StartsRaw (blocks.tokens ++ l) := by
  induction blocks generalizing l with
  | one text => exact ⟨text, l, rfl⟩
  | snoc blocks text ih =>
    rw [tokens, List.append_assoc]
    exact ih _

theorem StatementTree.IsRaw.startsRaw {s : StatementTree} (h : s.IsRaw) (l : List Token) :
    StartsRaw (s.tokens ++ l) := by
  cases s with
  | rawBlocks blocks => exact blocks.startsRaw l
  | _ => exact h.elim

namespace StatementTree

/-- The readers of statements give resolved trees of the tokens they take. -/
structure Reads (n : Nat) : Prop where
  statement : ∀ {l l' s}, readStatement n l = some (s, l') →
    l = s.tokens ++ l' ∧ s.Resolved ∧ (s.IsRaw → ¬StartsRaw l')
  statements : ∀ {l l' r}, readStatements n l = some (r, l') → l = r.tokens ++ l' ∧ r.Resolved
  moreStatements : ∀ {before r : StatementsTree} {l l'},
    readMoreStatements n before l = some (r, l') → before.Resolved →
    (before.last.IsRaw → ¬StartsRaw l) → before.tokens ++ l = r.tokens ++ l' ∧ r.Resolved
  elseifBlocks : ∀ {prev_elif t : ElseifBlocksTree} {l l'},
    readElseifBlocks n prev_elif l = some (t, l') → prev_elif.Resolved →
    prev_elif.tokens ++ l = t.tokens ++ l' ∧ t.Resolved
  elseBlock : ∀ {t : ElseBlockTree} {l l'}, readElseBlock n l = some (t, l') →
    l = t.tokens ++ l' ∧ t.Resolved

namespace Reads

variable {n : Nat} {l l' : List Token}

theorem statement_succ (ih : Reads n) {s : StatementTree}
    (h : readStatement (n + 1) l = some (s, l')) :
    l = s.tokens ++ l' ∧ s.Resolved ∧ (s.IsRaw → ¬StartsRaw l') := by
  generalize hn : n + 1 = m at h
  fun_cases readStatement m l with
  | case1 => cases hn
  | case2 _ text l =>
    rw [readStatement] at h
    cases h
    exact ⟨(tokens_readRaw (.one text) l).symm, trivial, fun _ => not_startsRaw_readRaw _ l⟩
  | case3 _ l =>
    cases hn
    rw [readStatement] at h
    obtain ⟨e, l₁, he, hmore⟩ := exists_of_bind_eq_some h
    obtain ⟨l₂, rfl, hend⟩ := of_expect_bind hmore
    obtain ⟨rfl, hresolved⟩ := (ExpressionTree.reads n).expression he
    cases hend
    exact ⟨by simp [tokens], hresolved, fun hraw => hraw.elim⟩
  | case4 _ l =>
    cases hn
    rw [readStatement] at h
    obtain ⟨cond, l₁, hreadCond, h₁⟩ := exists_of_bind_eq_some h
    obtain ⟨l₂, rfl, h₂⟩ := of_expect_bind h₁
    obtain ⟨then_body, l₃, hreadThen, h₃⟩ := exists_of_bind_eq_some h₂
    obtain ⟨l₄, rfl, h₄⟩ := of_expect_bind h₃
    obtain ⟨elif_blocks, l₅, hreadElif, h₅⟩ := exists_of_bind_eq_some h₄
    obtain ⟨else_body, l₆, hreadElse, h₆⟩ := exists_of_bind_eq_some h₅
    obtain ⟨l₇, rfl, h₇⟩ := of_expect_bind h₆
    obtain ⟨l₈, rfl, hend⟩ := of_expect_bind h₇
    obtain ⟨rfl, hcond⟩ := (ExpressionTree.reads n).expression hreadCond
    obtain ⟨rfl, hthen⟩ := ih.statements hreadThen
    obtain ⟨htokens, helif⟩ := ih.elseifBlocks hreadElif trivial
    obtain ⟨rfl, helse⟩ := ih.elseBlock hreadElse
    cases hend
    refine ⟨?_, ⟨hcond, hthen, helif, helse⟩, fun hraw => hraw.elim⟩
    rw [ElseifBlocksTree.tokens, List.nil_append] at htokens
    rw [htokens]
    simp [tokens]
  | case5 _ l =>
    cases hn
    rw [readStatement] at h
    obtain ⟨⟨key, value⟩, l₁, htargets, h₁⟩ := exists_of_bind_eq_some h
    obtain ⟨l₂, rfl, h₂⟩ := of_expect_bind h₁
    obtain ⟨iterable, l₃, hiterable, h₃⟩ := exists_of_bind_eq_some h₂
    obtain ⟨l₄, rfl, h₄⟩ := of_expect_bind h₃
    obtain ⟨body, l₅, hreadBody, h₅⟩ := exists_of_bind_eq_some h₄
    obtain ⟨l₆, rfl, h₆⟩ := of_expect_bind h₅
    obtain ⟨elseBody, l₇, hreadElse, h₇⟩ := exists_of_bind_eq_some h₆
    obtain ⟨l₈, rfl, h₈⟩ := of_expect_bind h₇
    obtain ⟨l₉, rfl, hend⟩ := of_expect_bind h₈
    obtain rfl := readTargets_sound htargets
    obtain rfl := tokens_readVarRef hiterable
    obtain ⟨rfl, hbody⟩ := ih.statements hreadBody
    obtain ⟨rfl, helse⟩ := ih.elseBlock hreadElse
    cases hend
    exact ⟨by simp [tokens], ⟨hbody, helse⟩, fun hraw => hraw.elim⟩
  | case6 _ l =>
    cases hn
    rw [readStatement] at h
    obtain ⟨block, l₁, hblock, hend⟩ := exists_of_bind_eq_some h
    obtain ⟨htokens, hresolved⟩ := readIncludeBlock_sound hblock
    cases hend
    exact ⟨htokens, hresolved, fun hraw => hraw.elim⟩
  | case7 =>
    cases hn
    rw [readStatement] at h
    · cases h
    all_goals assumption

theorem statements_succ (ih : Reads n) {r : StatementsTree}
    (h : readStatements (n + 1) l = some (r, l')) : l = r.tokens ++ l' ∧ r.Resolved := by
  obtain ⟨s, l₁, hs, hmore⟩ := exists_of_bind_eq_some h
  obtain ⟨rfl, hresolved, hraw⟩ := ih.statement hs
  exact ih.moreStatements hmore hresolved hraw

theorem moreStatements_succ (ih : Reads n) {before r : StatementsTree}
    (h : readMoreStatements (n + 1) before l = some (r, l')) (hbefore : before.Resolved)
    (hlast : before.last.IsRaw → ¬StartsRaw l) :
    before.tokens ++ l = r.tokens ++ l' ∧ r.Resolved := by
  rw [readMoreStatements] at h
  by_cases hstarts : startsStatement l = true
  · rw [if_pos hstarts] at h
    obtain ⟨s, l₁, hs, hmore⟩ := exists_of_bind_eq_some h
    obtain ⟨rfl, hresolved, hraw⟩ := ih.statement hs
    have hadjacent : ¬(before.last.IsRaw ∧ s.IsRaw) := by
      rintro ⟨hbefore, hs⟩
      exact hlast hbefore (hs.startsRaw l₁)
    obtain ⟨htokens, hr⟩ := ih.moreStatements hmore ⟨hadjacent, hbefore, hresolved⟩ hraw
    refine ⟨?_, hr⟩
    rw [← htokens, StatementsTree.tokens, List.append_assoc]
  · rw [if_neg hstarts] at h
    cases h
    exact ⟨rfl, hbefore⟩

theorem elseifBlocks_succ (ih : Reads n) {prev_elif t : ElseifBlocksTree}
    (h : readElseifBlocks (n + 1) prev_elif l = some (t, l')) (hprev : prev_elif.Resolved) :
    prev_elif.tokens ++ l = t.tokens ++ l' ∧ t.Resolved := by
  generalize hn : n + 1 = m at h
  fun_cases readElseifBlocks m prev_elif l with
  | case1 => cases hn
  | case2 _ _ l =>
    cases hn
    rw [readElseifBlocks] at h
    obtain ⟨cond, l₁, hreadCond, h₁⟩ := exists_of_bind_eq_some h
    obtain ⟨l₂, rfl, h₂⟩ := of_expect_bind h₁
    obtain ⟨body, l₃, hreadBody, h₃⟩ := exists_of_bind_eq_some h₂
    obtain ⟨l₄, rfl, hmore⟩ := of_expect_bind h₃
    obtain ⟨rfl, hcond⟩ := (ExpressionTree.reads n).expression hreadCond
    obtain ⟨rfl, hbody⟩ := ih.statements hreadBody
    obtain ⟨htokens, ht⟩ := ih.elseifBlocks hmore ⟨hprev, hcond, hbody⟩
    refine ⟨?_, ht⟩
    rw [← htokens, ElseifBlocksTree.tokens]
    simp
  | case3 _ _ l helseif =>
    cases hn
    rw [readElseifBlocks] at h
    · cases h
      exact ⟨rfl, hprev⟩
    · exact helseif

theorem elseBlock_succ (ih : Reads n) {t : ElseBlockTree}
    (h : readElseBlock (n + 1) l = some (t, l')) : l = t.tokens ++ l' ∧ t.Resolved := by
  generalize hn : n + 1 = m at h
  fun_cases readElseBlock m l with
  | case1 => cases hn
  | case2 _ l =>
    cases hn
    rw [readElseBlock] at h
    obtain ⟨l₁, rfl, h₁⟩ := of_expect_bind h
    obtain ⟨body, l₂, hreadBody, h₂⟩ := exists_of_bind_eq_some h₁
    obtain ⟨l₃, rfl, hend⟩ := of_expect_bind h₂
    obtain ⟨rfl, hbody⟩ := ih.statements hreadBody
    cases hend
    exact ⟨by simp [ElseBlockTree.tokens], hbody⟩
  | case3 _ l helse =>
    cases hn
    rw [readElseBlock] at h
    · cases h
      exact ⟨rfl, trivial⟩
    · exact helse

end Reads

theorem reads (n : Nat) : Reads n := by
  induction n with
  | zero =>
    constructor
    · rintro _ _ _ ⟨⟩
    · rintro _ _ _ ⟨⟩
    · rintro _ _ _ _ ⟨⟩
    · rintro _ _ _ _ ⟨⟩
    · rintro _ _ _ ⟨⟩
  | succ n ih =>
    exact ⟨ih.statement_succ, ih.statements_succ, ih.moreStatements_succ, ih.elseifBlocks_succ,
      ih.elseBlock_succ⟩

end StatementTree

end B2
