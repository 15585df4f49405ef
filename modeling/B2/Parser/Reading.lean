import B2.Parser.Reader

/-!
# Reading derivations

The reader finds every tree that the parser builds (`readRoot_eq_some_iff`). So a template
has at most one derivation, and `readRoot` computes it.
-/

namespace B2

/-! ## What may come after -/

/-- The token that comes next does not go on with an operand. -/
def EndsOperand (l : List Token) : Prop :=
  ∀ t ∈ l.head?, t ≠ .attributeSeparator ∧ t ≠ .openParen

/-- The token that comes next does not go on with an expression. -/
def EndsExpression (l : List Token) : Prop :=
  EndsOperand l ∧ ∀ t ∈ l.head?, t.connective = none

section

variable {t : Token} {l : List Token}

@[simp] theorem endsOperand_cons :
    EndsOperand (t :: l) ↔ t ≠ .attributeSeparator ∧ t ≠ .openParen := by
  simp [EndsOperand]

@[simp] theorem endsExpression_cons : EndsExpression (t :: l) ↔
    (t ≠ .attributeSeparator ∧ t ≠ .openParen) ∧ t.connective = none := by
  simp [EndsExpression]

theorem endsOperand_token (op : Connective) (l : List Token) : EndsOperand (op.token :: l) := by
  rw [endsOperand_cons]
  rcases op with op | op <;> cases op <;> exact ⟨by rintro ⟨⟩, by rintro ⟨⟩⟩

@[simp] theorem expect_cons : expect t (t :: l) = some l := if_pos rfl

/-! ## Expressions -/

theorem readAttributes_of_endsOperand (v : VarRefTree) (h : EndsOperand l) :
    readAttributes v l = (v, l) := by
  rw [readAttributes]
  rintro a l' rfl
  exact (endsOperand_cons.1 h).1 rfl

end

theorem VarRefTree.exists_identifier (v : VarRefTree) :
    ∃ x s, v.tokens = .identifier x :: s ∧ (∀ t ∈ s.head?, t = .attributeSeparator) ∧
      ∀ l, readAttributes (.identifier x) (s ++ l) = readAttributes v l := by
  induction v with
  | identifier x => exact ⟨x, [], rfl, by rintro _ ⟨⟩, fun _ => rfl⟩
  | getAttribute v a ih =>
    obtain ⟨x, s, htokens, hhead, hread⟩ := ih
    refine ⟨x, s ++ [.attributeSeparator, .identifier a], ?_, ?_, fun l => ?_⟩
    · rw [tokens, htokens, List.cons_append]
    · cases s with
      | nil =>
        rintro _ ⟨⟩
        rfl
      | cons t s => exact hhead
    · rw [List.append_assoc, hread]
      rfl

theorem readVarRef_tokens (v : VarRefTree) {l : List Token} (h : EndsOperand l) :
    readVarRef (v.tokens ++ l) = some (v, l) := by
  obtain ⟨x, s, htokens, _, hread⟩ := v.exists_identifier
  rw [htokens, List.cons_append, readVarRef, hread, readAttributes_of_endsOperand v h]

namespace ExpressionTree

/-- The readers of expressions find resolved trees, `n` being large enough. -/
structure Found (n : Nat) : Prop where
  operand : ∀ {e l}, e.IsOperand → e.Resolved → EndsOperand l → 2 * e.tokens.length + 1 ≤ n →
    readOperand n (e.tokens ++ l) = some (e, l)
  expression : ∀ {e l}, e.Resolved → EndsExpression l → 2 * e.tokens.length + 2 ≤ n →
    readExpression n (e.tokens ++ l) = some (e, l)

section

variable {n m : Nat} {l : List Token}

theorem readOperations_restTokens (ih : ∀ m < n, Found m)
    {s : List (Connective × ExpressionTree)} (hs : ∀ y ∈ s, y.2.IsOperand ∧ y.2.Resolved)
    (hl : EndsExpression l) (hm : m ≤ n) (hlength : 2 * (restTokens s).length + 1 ≤ m) :
    readOperations m (restTokens s ++ l) = some (s, l) := by
  induction s generalizing m with
  | nil =>
    obtain _ | m := m
    · omega
    · cases l with
      | nil => rfl
      | cons t l =>
        show readOperations (m + 1) (t :: l) = _
        rw [readOperations, (endsExpression_cons.1 hl).2]
  | cons y s ihs =>
    obtain ⟨op, e⟩ := y
    obtain ⟨⟨hoperand, hresolved⟩, hs⟩ := List.forall_mem_cons.1 hs
    have htokens : restTokens ((op, e) :: s) = op.token :: (e.tokens ++ restTokens s) := rfl
    rw [htokens, List.length_cons, List.length_append] at hlength
    obtain _ | m := m
    · omega
    · have hends : EndsOperand (restTokens s ++ l) := by
        cases s with
        | nil => exact hl.1
        | cons y s => exact endsOperand_token y.1 _
      have he := (ih m (by omega)).operand (e := e) hoperand hresolved hends (by omega)
      rw [htokens, List.cons_append, List.append_assoc, readOperations, op.connective_token]
      simp only [he, ihs hs (m := m) (by omega) (by omega), Option.bind_eq_bind, Option.bind_some,
        Option.pure_def]

theorem readArguments_tokens (ih : ∀ m < n, Found m) (hm : m ≤ n) :
    ∀ (args : ArgumentsTree) {l : List Token}, ArgumentsResolved args → EndsExpression l →
      2 * args.tokens.length + 3 ≤ m →
      ∃ k < m, m ≤ k + 1 + 2 * args.tokens.length ∧
        readArguments m (args.tokens ++ l) = readMoreArguments k args l
  | .one e, l, he, hl, hlength => by
    obtain _ | k := m
    · omega
    · rw [ArgumentsTree.tokens] at hlength ⊢
      have hread := (ih k (by omega)).expression he hl (by omega)
      refine ⟨k, by omega, by omega, ?_⟩
      simp only [readArguments, hread, Option.bind_eq_bind, Option.bind_some]
  | .snoc other e, l, ⟨hother, he⟩, hl, hlength => by
    have hcomma : EndsExpression (.comma :: (e.tokens ++ l)) :=
      endsExpression_cons.2 ⟨⟨by rintro ⟨⟩, by rintro ⟨⟩⟩, rfl⟩
    rw [ArgumentsTree.tokens, List.length_append, List.length_cons] at hlength
    obtain ⟨k, hkm, hk, hread⟩ := readArguments_tokens ih hm other hother hcomma (by omega)
    obtain _ | k := k
    · omega
    · have hlast := (ih k (by omega)).expression he hl (by omega)
      refine ⟨k, by omega, ?_, ?_⟩
      · rw [ArgumentsTree.tokens, List.length_append, List.length_cons]
        omega
      · rw [ArgumentsTree.tokens, List.append_assoc, List.cons_append, hread]
        simp only [readMoreArguments, hlast, Option.bind_eq_bind, Option.bind_some]

theorem readOperand_tokens (ih : ∀ m < n, Found m) {e : ExpressionTree} (hoperand : e.IsOperand)
    (he : e.Resolved) (hl : EndsOperand l) (hlength : 2 * e.tokens.length + 1 ≤ n) :
    readOperand n (e.tokens ++ l) = some (e, l) := by
  have hparen : EndsExpression (.closeParen :: l) :=
    endsExpression_cons.2 ⟨⟨by rintro ⟨⟩, by rintro ⟨⟩⟩, rfl⟩
  obtain _ | n := n
  · omega
  · have ihn := ih n n.lt_succ_self
    cases e with
    | varRef v =>
      obtain ⟨x, s, htokens, hhead, hread⟩ := v.exists_identifier
      rw [tokens, htokens, List.cons_append, readOperand]
      · rw [hread, readAttributes_of_endsOperand v hl]
      · intro l' hl'
        cases s with
        | nil =>
          rw [List.nil_append] at hl'
          rw [hl'] at hl
          exact (endsOperand_cons.1 hl).2 rfl
        | cons t s =>
          cases hl'
          cases hhead _ rfl
    | stringLiteral v | doubleLiteral v | integerLiteral v | booleanLiteral v => rfl
    | minus e | plus e | not e =>
      rw [tokens, List.length_cons] at hlength
      have hread := ihn.operand (e := e) hoperand he.2 hl (by omega)
      rw [tokens, List.cons_append, readOperand, hread]
      rfl
    | binaryOperation | comparison => exact hoperand.elim
    | parentheses e =>
      simp only [tokens, List.cons_append, List.length_cons, List.length_append] at hlength
      have hread := ihn.expression (e := e) he hparen (by omega)
      simp only [tokens, List.cons_append, List.append_assoc, List.nil_append, readOperand, hread,
        expect_cons, Option.bind_eq_bind, Option.bind_some, Option.pure_def]
    | methodCall m args =>
      simp only [tokens, List.cons_append, List.length_cons, List.length_append] at hlength
      obtain ⟨k, hkn, hk, hread⟩ := readArguments_tokens ih n.le_succ args he hparen (by omega)
      obtain _ | k := k
      · omega
      · simp only [tokens, List.cons_append, List.append_assoc, List.nil_append, readOperand, hread,
          readMoreArguments, expect_cons, Option.bind_eq_bind, Option.bind_some, Option.pure_def]

theorem readExpression_tokens (ih : ∀ m < n, Found m) {e : ExpressionTree} (he : e.Resolved)
    (hl : EndsExpression l) (hlength : 2 * e.tokens.length + 2 ≤ n) :
    readExpression n (e.tokens ++ l) = some (e, l) := by
  obtain ⟨-, ⟨hoperand, hfirst⟩, hrest⟩ := he.toTree
  have htokens := tokens_assemble (e.toTree.first, e.toTree.rest)
  rw [he.assemble_eq] at htokens
  rw [htokens, List.length_append] at hlength
  obtain _ | n := n
  · omega
  · have hends : EndsOperand (restTokens e.toTree.rest ++ l) := by
      cases e.toTree.rest with
      | nil => exact hl.1
      | cons y s => exact endsOperand_token y.1 _
    have hoperand := (ih n n.lt_succ_self).operand hoperand hfirst hends (by omega)
    have hrest := readOperations_restTokens ih hrest hl n.le_succ (by omega)
    rw [htokens, List.append_assoc, readExpression]
    simp only [hoperand, hrest, Option.bind_eq_bind, Option.bind_some, Option.pure_def,
      he.assemble_eq]

theorem found (n : Nat) : Found n := by
  induction n using Nat.strong_induction_on with
  | _ n ih => exact ⟨readOperand_tokens ih, readExpression_tokens ih⟩

end

end ExpressionTree

/-! ## Tags -/

section

variable {n : Nat} {l : List Token}

theorem readEntry_tokens {entry : Text × Option ExpressionTree}
    (hentry : (MappingTree.ofEntry entry).Resolved) (hl : EndsExpression l)
    (hassign : ∀ l', l ≠ .assign :: l')
    (hlength : 2 * (MappingTree.ofEntry entry).tokens.length ≤ n) :
    readEntry n ((MappingTree.ofEntry entry).tokens ++ l) = some (entry, l) := by
  obtain ⟨x, _ | e⟩ := entry
  · show readEntry n (.identifier x :: l) = _
    rw [readEntry]
    exact hassign
  · simp only [MappingTree.ofEntry, MappingTree.tokens, List.length_cons] at hlength
    have he := (ExpressionTree.found n).expression hentry hl (by omega)
    show readEntry n (.identifier x :: .assign :: (e.tokens ++ l)) = _
    simp only [readEntry, he, Option.bind_eq_bind, Option.bind_some, Option.pure_def]

theorem readMoreEntries_comma {mapping : MappingTree} {entry : Text × Option ExpressionTree}
    (hentry : (MappingTree.ofEntry entry).Resolved) (hl : EndsExpression l)
    (hassign : ∀ l', l ≠ .assign :: l')
    (hlength : 2 * (MappingTree.ofEntry entry).tokens.length ≤ n) :
    readMoreEntries (n + 1) mapping (.comma :: ((MappingTree.ofEntry entry).tokens ++ l)) =
      readMoreEntries n (mapping.addEntry entry) l := by
  simp only [readMoreEntries, readEntry_tokens hentry hl hassign hlength, Option.bind_eq_bind,
    Option.bind_some]

/-- A mapping is an entry, or has one more than another mapping. -/
theorem MappingTree.ind {motive : MappingTree → Prop} (one : ∀ entry, motive (.ofEntry entry))
    (more : ∀ mapping entry, motive mapping → motive (mapping.addEntry entry))
    (mapping : MappingTree) : motive mapping := by
  induction mapping with
  | identifier val => exact one (val, none)
  | assign key val => exact one (key, some val)
  | snocIdentifier mapping val ih => exact more mapping (val, none) ih
  | snocAssign mapping key val ih => exact more mapping (key, some val) ih

theorem readMapping_tokens (mapping : MappingTree) (hmapping : mapping.Resolved)
    (hl : EndsExpression l) (hassign : ∀ l', l ≠ .assign :: l')
    (hlength : 2 * mapping.tokens.length ≤ n) :
    ∃ entry l' k, n ≤ k + 2 * mapping.tokens.length ∧
      readEntry n (mapping.tokens ++ l) = some (entry, l') ∧
      readMoreEntries n (.ofEntry entry) l' = readMoreEntries k mapping l := by
  induction mapping using MappingTree.ind generalizing l with
  | one entry =>
    exact ⟨entry, l, n, by omega, readEntry_tokens hmapping hl hassign hlength, rfl⟩
  | more mapping entry ih =>
    obtain ⟨hmapping, hentry⟩ := MappingTree.resolved_addEntry.1 hmapping
    rw [MappingTree.tokens_addEntry, List.length_append, List.length_cons] at hlength ⊢
    rw [List.append_assoc, List.cons_append]
    obtain ⟨first, l', k, hk, hfirst, hmore⟩ :=
      ih (l := .comma :: ((MappingTree.ofEntry entry).tokens ++ l)) hmapping
        (endsExpression_cons.2 ⟨⟨by rintro ⟨⟩, by rintro ⟨⟩⟩, rfl⟩) (by rintro _ ⟨⟩) (by omega)
    obtain _ | k := k
    · omega
    · refine ⟨first, l', k, by omega, hfirst, ?_⟩
      rw [hmore, readMoreEntries_comma hentry hl hassign (by omega)]

theorem readExpression_blockEnd {e : ExpressionTree} (he : e.Resolved)
    (hlength : 2 * e.tokens.length + 2 ≤ n) (l : List Token) :
    readExpression n (e.tokens ++ .blockEnd :: l) = some (e, .blockEnd :: l) :=
  (ExpressionTree.found n).expression he
    (endsExpression_cons.2 ⟨⟨by rintro ⟨⟩, by rintro ⟨⟩⟩, rfl⟩) hlength

theorem readIncludeBlock_tokens {block : IncludeBlockTree} (h : block.Resolved) (l : List Token)
    (hlength : 2 * block.tokens.length ≤ n + 2) :
    ∃ s, block.tokens = .blockStart :: .kwInclude :: s ∧
      readIncludeBlock n (s ++ l) = some (block, l) := by
  have hend : EndsExpression (.blockEnd :: l) :=
    endsExpression_cons.2 ⟨⟨by rintro ⟨⟩, by rintro ⟨⟩⟩, rfl⟩
  refine ⟨block.tokens.drop 2, ?_, ?_⟩
  · cases block <;> rfl
  cases block with
  | plain name => rfl
  | usingScope name scope =>
    simp only [IncludeBlockTree.tokens, List.cons_append, List.length_cons, List.length_append]
      at hlength
    have hscope := readExpression_blockEnd (n := n) (e := scope) h (by omega) l
    simp only [IncludeBlockTree.tokens, List.cons_append, List.append_assoc, List.nil_append,
      List.drop_succ_cons, List.drop_zero, readIncludeBlock, hscope, expect_cons,
      Option.bind_eq_bind, Option.bind_some, Option.pure_def]
  | withMapping name mapping =>
    simp only [IncludeBlockTree.tokens, List.cons_append, List.length_cons, List.length_append]
      at hlength
    obtain ⟨entry, l', k, hk, hfirst, hmore⟩ :=
      readMapping_tokens (n := n) mapping h hend (by rintro _ ⟨⟩) (by omega)
    obtain _ | k := k
    · omega
    · simp only [IncludeBlockTree.tokens, List.cons_append, List.append_assoc, List.nil_append,
        List.drop_succ_cons, List.drop_zero, readIncludeBlock, hfirst, hmore, readMoreEntries,
        expect_cons, Option.bind_eq_bind, Option.bind_some, Option.pure_def]

theorem readTargets_tokens (key : Option VarRefTree) (value : VarRefTree) (l : List Token) :
    readTargets (targetTokens key value ++ .kwIn :: l) = some ((key, value), .kwIn :: l) := by
  have hin : EndsOperand (.kwIn :: l) := endsOperand_cons.2 ⟨by rintro ⟨⟩, by rintro ⟨⟩⟩
  cases key with
  | none =>
    simp only [targetTokens, readTargets, readVarRef_tokens value hin, Option.bind_eq_bind,
      Option.bind_some]
  | some key =>
    have hcomma : EndsOperand (.comma :: (value.tokens ++ .kwIn :: l)) :=
      endsOperand_cons.2 ⟨by rintro ⟨⟩, by rintro ⟨⟩⟩
    simp only [targetTokens, readTargets, List.append_assoc, List.cons_append,
      readVarRef_tokens key hcomma, readVarRef_tokens value hin, Option.bind_eq_bind,
      Option.bind_some, Option.pure_def]

end

/-! ## Statements -/

theorem RawBlocksTree.exists_raw (blocks : RawBlocksTree) :
    ∃ text s, blocks.tokens = .raw text :: s ∧
      ∀ l, readRaw (.one text) (s ++ l) = readRaw blocks l := by
  induction blocks with
  | one text => exact ⟨text, [], rfl, fun _ => rfl⟩
  | snoc blocks text ih =>
    obtain ⟨first, s, htokens, hread⟩ := ih
    refine ⟨first, s ++ [.raw text], ?_, fun l => ?_⟩
    · rw [tokens, htokens, List.cons_append]
    · rw [List.append_assoc, hread]
      rfl

theorem readRaw_of_not_startsRaw (blocks : RawBlocksTree) {l : List Token} (h : ¬StartsRaw l) :
    readRaw blocks l = (blocks, l) := by
  rw [readRaw]
  rintro text l' rfl
  exact h ⟨text, l', rfl⟩

namespace StatementTree

theorem startsRaw_iff (s : StatementTree) (l : List Token) :
    StartsRaw (s.tokens ++ l) ↔ s.IsRaw := by
  refine ⟨fun h => ?_, fun h => h.startsRaw l⟩
  obtain ⟨text, l', hl⟩ := h
  cases s with
  | rawBlocks blocks => trivial
  | includeBlock block => cases block <;> cases hl
  | printBlock | ifBlock | forStatement => cases hl

theorem startsStatement (s : StatementTree) (l : List Token) :
    startsStatement (s.tokens ++ l) = true := by
  cases s with
  | rawBlocks blocks =>
    obtain ⟨text, l', hl⟩ := blocks.startsRaw l
    rw [tokens, hl]
    rfl
  | includeBlock block => cases block <;> rfl
  | printBlock | ifBlock | forStatement => rfl

theorem tokens_length_pos (s : StatementTree) : 0 < s.tokens.length := by
  have h := s.startsStatement []
  cases htokens : s.tokens with
  | nil =>
    rw [htokens] at h
    cases h
  | cons t l => exact l.length.succ_pos

end StatementTree

/-- The tokens after `{%` end a list of statements. -/
def EndsStatements (l : List Token) : Prop := startsStatement (.blockStart :: l) = false

theorem ElseBlockTree.endsStatements (t : ElseBlockTree) {l : List Token} (h : EndsStatements l) :
    EndsStatements (t.tokens ++ l) := by
  cases t with
  | empty => exact h
  | body body => rfl

theorem ElseifBlocksTree.endsStatements : ∀ (t : ElseifBlocksTree) {l : List Token},
    EndsStatements l → EndsStatements (t.tokens ++ l)
  | .empty, _, h => h
  | .snoc prev_elif cond body, l, h => by
    rw [ElseifBlocksTree.tokens, List.append_assoc, List.append_assoc, List.append_assoc]
    exact prev_elif.endsStatements rfl

section

variable {n m : Nat} {l : List Token}

theorem readMoreStatements_end {r : StatementsTree} (h : startsStatement l = false) (hn : 0 < n) :
    readMoreStatements n r l = some (r, l) := by
  obtain _ | n := n
  · omega
  · rw [readMoreStatements, h]
    rfl

/-- All the statements up to the tag that ends them. -/
theorem readStatements_end {r : StatementsTree} (hl : EndsStatements l)
    (hlength : 2 * r.tokens.length + 2 ≤ n)
    (h : ∃ m, n ≤ m + 2 * r.tokens.length ∧
      readStatements n (r.tokens ++ .blockStart :: l) = readMoreStatements m r (.blockStart :: l)) :
    readStatements n (r.tokens ++ .blockStart :: l) = some (r, .blockStart :: l) := by
  obtain ⟨m, hm, hread⟩ := h
  rw [hread, readMoreStatements_end hl (by omega)]

theorem readElseifBlocks_end {t : ElseifBlocksTree} (hl : ∀ l', l ≠ .kwElseif :: l')
    (hlength : 2 * t.tokens.length + 1 ≤ n)
    (h : ∃ m, n ≤ m + 2 * t.tokens.length ∧
      readElseifBlocks n .empty (t.tokens ++ l) = readElseifBlocks m t l) :
    readElseifBlocks n .empty (t.tokens ++ l) = some (t, l) := by
  obtain ⟨m, hm, hread⟩ := h
  obtain _ | m := m
  · omega
  · rw [hread, readElseifBlocks]
    exact hl

mutual

theorem StatementTree.read_tokens : ∀ (s : StatementTree) {n : Nat} {l : List Token}, s.Resolved →
    (s.IsRaw → ¬StartsRaw l) → 2 * s.tokens.length ≤ n →
    readStatement n (s.tokens ++ l) = some (s, l)
  | .rawBlocks blocks, n, l, _, hraw, hlength => by
    obtain ⟨text, s, htokens, hread⟩ := blocks.exists_raw
    rw [StatementTree.tokens, htokens] at hlength ⊢
    obtain _ | n := n
    · simp at hlength
    · rw [List.cons_append, readStatement, hread, readRaw_of_not_startsRaw blocks (hraw trivial)]
  | .printBlock e, n, l, he, _, hlength => by
    have hend : EndsExpression (.variableEnd :: l) :=
      endsExpression_cons.2 ⟨⟨by rintro ⟨⟩, by rintro ⟨⟩⟩, rfl⟩
    simp only [StatementTree.tokens, List.cons_append, List.length_cons, List.length_append]
      at hlength
    obtain _ | n := n
    · omega
    · have hread := (ExpressionTree.found n).expression (e := e) he hend (by omega)
      simp only [StatementTree.tokens, List.cons_append, List.append_assoc, List.nil_append,
        readStatement, hread, expect_cons, Option.bind_eq_bind, Option.bind_some, Option.pure_def]
  | .ifBlock cond then_body elif_blocks else_body, n, l, ⟨hcond, hthen, helif, helse⟩, _,
    hlength => by
    simp only [StatementTree.tokens, List.cons_append, List.length_cons, List.length_append]
      at hlength
    have helsePart : EndsStatements (else_body.tokens ++ .kwEndif :: .blockEnd :: l) :=
      else_body.endsStatements rfl
    have helseif : ∀ l', else_body.tokens ++ .kwEndif :: .blockEnd :: l ≠ .kwElseif :: l' := by
      cases else_body <;> rintro _ ⟨⟩
    obtain _ | n := n
    · omega
    · have hcond := readExpression_blockEnd (n := n) hcond (by omega)
      have hthen := readStatements_end (n := n) (elif_blocks.endsStatements helsePart) (by omega)
        (then_body.read_tokens hthen (by rintro _ ⟨_, _, ⟨⟩⟩) (by omega))
      have helif := readElseifBlocks_end (n := n) helseif (by omega)
        (elif_blocks.read_tokens helif helsePart (by omega))
      have helse := else_body.read_tokens (n := n) helse (l := .kwEndif :: .blockEnd :: l) rfl
        (by rintro _ ⟨⟩) (by omega)
      simp only [StatementTree.tokens, List.cons_append, List.append_assoc, List.nil_append,
        readStatement, hcond, hthen, helif, helse, expect_cons, Option.bind_eq_bind,
        Option.bind_some, Option.pure_def]
  | .forStatement key value iterable body elseBody, n, l, ⟨hbody, helse⟩, _, hlength => by
    have hend : ∀ l, EndsOperand (.blockEnd :: l) := fun l =>
      endsOperand_cons.2 ⟨by rintro ⟨⟩, by rintro ⟨⟩⟩
    simp only [StatementTree.tokens, List.cons_append, List.length_cons, List.length_append]
      at hlength
    obtain _ | n := n
    · omega
    · have hends : EndsStatements (elseBody.tokens ++ .kwEndfor :: .blockEnd :: l) :=
        elseBody.endsStatements rfl
      have hbody := readStatements_end (n := n) hends (by omega)
        (body.read_tokens hbody (by rintro _ ⟨_, _, ⟨⟩⟩) (by omega))
      have helse := elseBody.read_tokens (n := n) helse (l := .kwEndfor :: .blockEnd :: l) rfl
        (by rintro _ ⟨⟩) (by omega)
      simp only [StatementTree.tokens, List.cons_append, List.append_assoc, List.nil_append,
        readStatement, readTargets_tokens, readVarRef_tokens iterable (hend _), hbody, helse,
        expect_cons, Option.bind_eq_bind, Option.bind_some, Option.pure_def]
  | .includeBlock block, n, l, hblock, _, hlength => by
    have hpos := (StatementTree.includeBlock block).tokens_length_pos
    rw [StatementTree.tokens] at hlength hpos ⊢
    obtain _ | n := n
    · omega
    · obtain ⟨s, htokens, hread⟩ := readIncludeBlock_tokens (n := n) hblock l (by omega)
      rw [htokens]
      simp only [List.cons_append, readStatement, hread, Option.bind_eq_bind, Option.bind_some,
        Option.pure_def]

theorem StatementsTree.read_tokens : ∀ (r : StatementsTree) {n : Nat} {l : List Token}, r.Resolved →
    (r.last.IsRaw → ¬StartsRaw l) → 2 * r.tokens.length + 2 ≤ n →
    ∃ m, n ≤ m + 2 * r.tokens.length ∧
      readStatements n (r.tokens ++ l) = readMoreStatements m r l
  | .one s, n, l, hs, hraw, hlength => by
    have hpos := s.tokens_length_pos
    rw [StatementsTree.tokens] at hlength ⊢
    obtain _ | n := n
    · omega
    · refine ⟨n, by omega, ?_⟩
      rw [readStatements, s.read_tokens hs hraw (by omega)]
      rfl
  | .snoc r s, n, l, ⟨hadjacent, hr, hs⟩, hraw, hlength => by
    have hpos := s.tokens_length_pos
    rw [StatementsTree.tokens, List.length_append] at hlength ⊢
    have hlast : r.last.IsRaw → ¬StartsRaw (s.tokens ++ l) := fun hr hstarts =>
      hadjacent ⟨hr, (s.startsRaw_iff l).1 hstarts⟩
    obtain ⟨m, hm, hread⟩ := r.read_tokens (n := n) hr hlast (by omega)
    obtain _ | m := m
    · omega
    · refine ⟨m, by omega, ?_⟩
      rw [List.append_assoc, hread, readMoreStatements, if_pos (s.startsStatement l),
        s.read_tokens hs hraw (by omega)]
      rfl

theorem ElseifBlocksTree.read_tokens : ∀ (t : ElseifBlocksTree) {n : Nat} {l : List Token},
    t.Resolved → EndsStatements l → 2 * t.tokens.length + 1 ≤ n →
    ∃ m, n ≤ m + 2 * t.tokens.length ∧
      readElseifBlocks n .empty (t.tokens ++ l) = readElseifBlocks m t l
  | .empty, n, l, _, _, hlength => ⟨n, by omega, rfl⟩
  | .snoc prev_elif cond body, n, l, ⟨hprev, hcond, hbody⟩, hl, hlength => by
    simp only [ElseifBlocksTree.tokens, List.cons_append, List.append_assoc, List.nil_append,
      List.length_cons, List.length_append] at hlength ⊢
    obtain ⟨m, hm, hread⟩ := prev_elif.read_tokens (n := n) hprev
      (l := .kwElseif :: (cond.tokens ++ .blockEnd :: (body.tokens ++ .blockStart :: l))) rfl
      (by omega)
    obtain _ | m := m
    · omega
    · have hcond := readExpression_blockEnd (n := m) hcond (by omega)
      have hbody := readStatements_end (n := m) hl (by omega)
        (body.read_tokens hbody (by rintro _ ⟨_, _, ⟨⟩⟩) (by omega))
      refine ⟨m, by omega, ?_⟩
      simp only [hread, readElseifBlocks, hcond, hbody, expect_cons, Option.bind_eq_bind,
        Option.bind_some]

theorem ElseBlockTree.read_tokens : ∀ (t : ElseBlockTree) {n : Nat} {l : List Token},
    t.Resolved → EndsStatements l → (∀ l', l ≠ .kwElse :: l') → 2 * t.tokens.length + 1 ≤ n →
    readElseBlock n (t.tokens ++ l) = some (t, l)
  | .empty, n, l, _, _, helse, hlength => by
    obtain _ | n := n
    · omega
    · show readElseBlock (n + 1) l = _
      rw [readElseBlock]
      exact helse
  | .body body, n, l, hbody, hl, _, hlength => by
    simp only [ElseBlockTree.tokens, List.cons_append, List.append_assoc, List.nil_append,
      List.length_cons, List.length_append] at hlength ⊢
    obtain _ | n := n
    · omega
    · have hbody := readStatements_end (n := n) hl (by omega)
        (body.read_tokens hbody (by rintro _ ⟨_, _, ⟨⟩⟩) (by omega))
      simp only [readElseBlock, hbody, expect_cons, Option.bind_eq_bind, Option.bind_some,
        Option.pure_def]

end

end

/-! ## Templates -/

theorem StatementsTree.tokens_ne_nil (r : StatementsTree) : r.tokens ≠ [] := by
  cases r with
  | one s => exact List.length_pos_iff.1 s.tokens_length_pos
  | snoc r s =>
    exact List.append_ne_nil_of_right_ne_nil _ (List.length_pos_iff.1 s.tokens_length_pos)

theorem RootTree.readRoot_tokens {root : RootTree} (h : root.Resolved) :
    readRoot root.tokens = some root := by
  cases root with
  | empty => rfl
  | statements r =>
    obtain ⟨m, hm, hread⟩ := r.read_tokens h (l := []) (by rintro _ ⟨_, _, ⟨⟩⟩) le_rfl
    rw [List.append_nil] at hread
    rw [tokens, readRoot, hread, readMoreStatements_end rfl (by omega)]
    exact r.tokens_ne_nil

theorem RootTree.of_readRoot {l : List Token} {root : RootTree} (h : readRoot l = some root) :
    root.Resolved ∧ root.tokens = l := by
  cases l with
  | nil =>
    cases h
    exact ⟨trivial, rfl⟩
  | cons t l =>
    rw [readRoot] at h
    · split at h
      · rename_i r hread
        cases h
        obtain ⟨htokens, hresolved⟩ := (StatementTree.reads _).statements hread
        rw [List.append_nil] at htokens
        exact ⟨hresolved, htokens.symm⟩
      · cases h
    · exact List.cons_ne_nil t l

/-- The reader finds the trees that the parser builds. -/
theorem readRoot_eq_some_iff {l : List Token} {root : RootTree} :
    readRoot l = some root ↔ root.Resolved ∧ root.tokens = l := by
  constructor
  · exact RootTree.of_readRoot
  · rintro ⟨h, rfl⟩
    exact RootTree.readRoot_tokens h

/-- The precedences choose one derivation of every sequence of tokens that has one. -/
theorem RootTree.existsUnique_resolved (root : RootTree) :
    ∃! root' : RootTree, root'.Resolved ∧ root'.tokens = root.tokens := by
  refine ⟨root.resolve, ⟨root.resolved_resolve, root.tokens_resolve⟩, ?_⟩
  rintro root' ⟨hresolved, htokens⟩
  have hread := RootTree.readRoot_tokens hresolved
  rw [htokens, ← root.tokens_resolve, RootTree.readRoot_tokens root.resolved_resolve] at hread
  exact (Option.some.inj hread).symm

end B2
