import B2.Parser.Derivation
import B2.Parser.IfChain

/-!
# The variables of for tags

The actions of `for_statement` cast the nodes of its variables to references without
looking at them, and the grammar lets them be attributes. The cast is right for
every for block of a template exactly if no for tag has an attribute separator
before its `in` (`targetsPlain_iff`).
-/

namespace B2

def IsReference : Expression → Prop
  | .variableReference _ => True
  | _ => False

/-! ## The nodes that are cast -/

/-- The nodes that one for tag gives to `static_cast<VariableReferenceExpression*>`. -/
def targetNodes (key : Option VarRefTree) (value : VarRefTree) : List Expression :=
  (key.toList ++ [value]).map VarRefTree.action

mutual

def StatementTree.targets : StatementTree → List Expression
  | .rawBlocks _ | .printBlock _ | .includeBlock _ => []
  | .ifBlock _ then_body elif_blocks else_body =>
    then_body.targets ++ elif_blocks.targets ++ else_body.targets
  | .forStatement key value _ body elseBody =>
    targetNodes key value ++ body.targets ++ elseBody.targets

def StatementsTree.targets : StatementsTree → List Expression
  | .one s => s.targets
  | .snoc l s => l.targets ++ s.targets

def ElseifBlocksTree.targets : ElseifBlocksTree → List Expression
  | .empty => []
  | .snoc prev_elif _ body => prev_elif.targets ++ body.targets

def ElseBlockTree.targets : ElseBlockTree → List Expression
  | .empty => []
  | .body body => body.targets

end

def RootTree.targets : RootTree → List Expression
  | .empty => []
  | .statements l => l.targets

/-- Whatever tree the parser builds for an accepted template, its loop variables are nodes of
variable references, and none is read as a node of another class. -/
structure TargetsPlain (text : Text) : Prop where
  nodes : ∀ root : RootTree, root.Derives text → root.Checked →
    ∀ node ∈ root.targets, IsReference node
  reads : ∀ (root : RootTree) (line : Nat), root.Derives text → root.Checked →
    root.action line ≠ .error (.undefined .wrongCast)

/-! ## For tags as tokens -/

/-- One token, after `for` and before `in` or not. -/
def scanTarget (inTargets : Bool) : Token → Option Bool
  | .kwFor => some true
  | .kwIn => some false
  | .attributeSeparator => if inTargets then none else some false
  | _ => some inTargets

/-- No attribute separator stands between a `for` and the `in` after it. -/
def SeparatorFree (l : List Token) : Prop := (l.foldlM scanTarget false).isSome = true

instance (l : List Token) : Decidable (SeparatorFree l) := inferInstanceAs (Decidable (_ = _))

/-- Tokens that end outside the variables of a for tag, without a separator in one if `P`. -/
structure Scans (l : List Token) (P : Prop) : Prop where
  free : P → l.foldlM scanTarget false = some false
  separated : ¬P → l.foldlM scanTarget false = none

section

variable {l l' : List Token} {P Q : Prop}

theorem Scans.append (h : Scans l P) (h' : Scans l' Q) : Scans (l ++ l') (P ∧ Q) := by
  constructor
  · rintro ⟨hP, hQ⟩
    rw [List.foldlM_append, h.free hP]
    exact h'.free hQ
  · intro hnot
    rw [List.foldlM_append]
    by_cases hP : P
    · rw [h.free hP]
      exact h'.separated fun hQ => hnot ⟨hP, hQ⟩
    · rw [h.separated hP]
      rfl

theorem Scans.congr (h : Scans l P) (hPQ : P ↔ Q) : Scans l Q := propext hPQ ▸ h

theorem scans_of_eq (h : l.foldlM scanTarget false = some false) : Scans l True :=
  ⟨fun _ => h, fun hnot => absurd trivial hnot⟩

/-- What stands outside for tags does not matter. -/
theorem Scans.after (h : Scans l' Q) (hl : l.foldlM scanTarget false = some false) :
    Scans (l ++ l') Q := ((scans_of_eq hl).append h).congr (Iff.of_eq (true_and Q))

theorem Scans.before (h : Scans l P) (hl : l'.foldlM scanTarget false = some false) :
    Scans (l ++ l') P := (h.append (scans_of_eq hl)).congr (Iff.of_eq (and_true P))

theorem separatorFree_iff (h : Scans l P) : SeparatorFree l ↔ P := by
  unfold SeparatorFree
  by_cases hP : P
  · rw [h.free hP]
    exact iff_of_true rfl hP
  · rw [h.separated hP]
    exact iff_of_false nofun hP

/-- Tokens that are outside for tags whatever comes around them. -/
def Outside (l : List Token) : Prop := ∀ t ∈ l, t ≠ .kwFor ∧ t ≠ .kwIn

theorem Outside.scan (h : Outside l) : l.foldlM scanTarget false = some false := by
  induction l with
  | nil => rfl
  | cons t l ih =>
    have hl := ih fun t ht => h t (List.mem_cons_of_mem _ ht)
    have ht := h t List.mem_cons_self
    rw [List.foldlM_cons]
    cases t with
    | kwFor => exact absurd rfl ht.1
    | kwIn => exact absurd rfl ht.2
    | _ => exact hl

theorem outside_append : Outside (l ++ l') ↔ Outside l ∧ Outside l' := List.forall_mem_append

theorem outside_cons {t : Token} : Outside (t :: l) ↔ (t ≠ .kwFor ∧ t ≠ .kwIn) ∧ Outside l :=
  List.forall_mem_cons

end

theorem outside_nil : Outside [] := fun _ h => absurd h List.not_mem_nil

theorem Inner.outside {l : List Token} (h : Inner l) : Outside l := by
  intro t ht
  have hinner := h t ht
  constructor <;>
  · rintro rfl
    cases hinner

theorem VarRefTree.outside (v : VarRefTree) : Outside v.tokens := v.inner.outside

theorem ExpressionTree.outside (e : ExpressionTree) : Outside e.tokens := e.inner.outside

theorem RawBlocksTree.outside : ∀ blocks : RawBlocksTree, Outside blocks.tokens
  | .one _ => by simp [tokens, outside_cons, outside_nil]
  | .snoc blocks _ => by
    simp [tokens, outside_cons, outside_append, outside_nil, blocks.outside]

theorem MappingTree.outside (mapping : MappingTree) : Outside mapping.tokens :=
  mapping.inner.outside

theorem IncludeBlockTree.outside (block : IncludeBlockTree) : Outside block.tokens := by
  cases block with
  | plain name => simp [tokens, outside_cons, outside_nil]
  | usingScope name scope =>
    simp [tokens, outside_cons, outside_append, outside_nil, scope.outside]
  | withMapping name mapping =>
    simp [tokens, outside_cons, outside_append, outside_nil, mapping.outside]

/-! ## Trees -/

/-- A variable of a for tag that is an attribute has a separator in it. -/
theorem VarRefTree.scan_getAttribute (a : Text) : ∀ v : VarRefTree,
    (VarRefTree.getAttribute v a).tokens.foldlM scanTarget true = none
  | .identifier _ => rfl
  | .getAttribute v b => by
    rw [VarRefTree.tokens, List.foldlM_append, scan_getAttribute b v]
    rfl

theorem VarRefTree.scan_of_isReference {v : VarRefTree} (h : IsReference v.action) :
    v.tokens.foldlM scanTarget true = some true := by
  cases v with
  | identifier x => rfl
  | getAttribute v a => cases h

theorem VarRefTree.scan_of_not_isReference {v : VarRefTree} (h : ¬IsReference v.action) :
    v.tokens.foldlM scanTarget true = none := by
  cases v with
  | identifier x => exact absurd trivial h
  | getAttribute v a => exact scan_getAttribute a v

/-- The variables of a for tag, after its `for`. -/
theorem scan_targetTokens (key : Option VarRefTree) (value : VarRefTree) :
    ((∀ node ∈ targetNodes key value, IsReference node) →
        (targetTokens key value).foldlM scanTarget true = some true) ∧
      ((¬∀ node ∈ targetNodes key value, IsReference node) →
        (targetTokens key value).foldlM scanTarget true = none) := by
  cases key with
  | none =>
    have hnodes : (∀ node ∈ targetNodes none value, IsReference node) ↔
        IsReference value.action := by simp [targetNodes]
    rw [hnodes]
    exact ⟨VarRefTree.scan_of_isReference, VarRefTree.scan_of_not_isReference⟩
  | some key =>
    have hnodes : (∀ node ∈ targetNodes (some key) value, IsReference node) ↔
        IsReference key.action ∧ IsReference value.action := by simp [targetNodes]
    have hcomma : ∀ l, (Token.comma :: l).foldlM scanTarget true = l.foldlM scanTarget true :=
      fun _ => rfl
    rw [hnodes, targetTokens, List.foldlM_append]
    by_cases hkey : IsReference key.action
    · rw [VarRefTree.scan_of_isReference hkey]
      show (_ → (Token.comma :: value.tokens).foldlM scanTarget true = _) ∧
        (_ → (Token.comma :: value.tokens).foldlM scanTarget true = _)
      rw [hcomma]
      exact ⟨fun h => VarRefTree.scan_of_isReference h.2,
        fun h => VarRefTree.scan_of_not_isReference fun hv => h ⟨hkey, hv⟩⟩
    · rw [VarRefTree.scan_of_not_isReference hkey]
      exact ⟨fun h => absurd h.1 hkey, fun _ => rfl⟩

theorem scans_targets (key : Option VarRefTree) (value : VarRefTree) :
    Scans (.kwFor :: targetTokens key value ++ [.kwIn])
      (∀ node ∈ targetNodes key value, IsReference node) := by
  obtain ⟨hfree, hseparated⟩ := scan_targetTokens key value
  have hfor : (Token.kwFor :: targetTokens key value ++ [Token.kwIn]).foldlM scanTarget false =
      ((targetTokens key value).foldlM scanTarget true).bind fun _ => some false := by
    rw [List.cons_append, List.foldlM_cons, scanTarget]
    show (targetTokens key value ++ [Token.kwIn]).foldlM scanTarget true = _
    rw [List.foldlM_append]
    rfl
  constructor
  · intro h
    rw [hfor, hfree h]
    rfl
  · intro h
    rw [hfor, hseparated h]
    rfl

section

/-- The tokens of a tree tell whether a variable of a for tag is no reference. -/
def ScansTargets (l : List Token) (targets : List Expression) : Prop :=
  Scans l (∀ node ∈ targets, IsReference node)

variable {l l' : List Token} {targets targets' : List Expression}

theorem ScansTargets.append (h : ScansTargets l targets) (h' : ScansTargets l' targets') :
    ScansTargets (l ++ l') (targets ++ targets') :=
  (Scans.append h h').congr List.forall_mem_append.symm

theorem Outside.scansTargets (h : Outside l) : ScansTargets l [] :=
  (scans_of_eq h.scan).congr (iff_of_true trivial fun _ h => absurd h List.not_mem_nil)

end

mutual

theorem StatementTree.scansTargets : ∀ s : StatementTree, ScansTargets s.tokens s.targets
  | .rawBlocks blocks => blocks.outside.scansTargets
  | .printBlock e => by
    have h : Outside (.variableStart :: e.tokens ++ [.variableEnd]) := by
      simp [outside_cons, outside_append, outside_nil, e.outside]
    exact h.scansTargets
  | .includeBlock block => block.outside.scansTargets
  | .ifBlock cond then_body elif_blocks else_body => by
    have hopen : Outside (.blockStart :: .kwIf :: cond.tokens ++ [.blockEnd]) := by
      simp [outside_cons, outside_append, outside_nil, cond.outside]
    have hstart : Outside [.blockStart] := by simp [outside_cons, outside_nil]
    have hend : Outside [.kwEndif, .blockEnd] := by simp [outside_cons, outside_nil]
    have h := ((((hopen.scansTargets.append then_body.scansTargets).append
      hstart.scansTargets).append elif_blocks.scansTargets).append
        else_body.scansTargets).append hend.scansTargets
    simpa [StatementTree.tokens, StatementTree.targets] using h
  | .forStatement key value iterable body elseBody => by
    have hopen : Outside (iterable.tokens ++ [.blockEnd]) := by
      simp [outside_cons, outside_append, outside_nil, iterable.outside]
    have hstart : Outside [.blockStart] := by simp [outside_cons, outside_nil]
    have hend : Outside [.kwEndfor, .blockEnd] := by simp [outside_cons, outside_nil]
    have hblock : Outside [.blockStart] := by simp [outside_cons, outside_nil]
    have htargets : ScansTargets (.kwFor :: targetTokens key value ++ [.kwIn])
      (targetNodes key value) := scans_targets key value
    have h := (((((hblock.scansTargets.append htargets).append hopen.scansTargets).append
      body.scansTargets).append hstart.scansTargets).append elseBody.scansTargets).append
        hend.scansTargets
    simpa [StatementTree.tokens, StatementTree.targets] using h

theorem StatementsTree.scansTargets : ∀ l : StatementsTree, ScansTargets l.tokens l.targets
  | .one s => s.scansTargets
  | .snoc l s => l.scansTargets.append s.scansTargets

theorem ElseifBlocksTree.scansTargets : ∀ t : ElseifBlocksTree, ScansTargets t.tokens t.targets
  | .empty => outside_nil.scansTargets
  | .snoc prev_elif cond body => by
    have hopen : Outside (.kwElseif :: cond.tokens ++ [.blockEnd]) := by
      simp [outside_cons, outside_append, outside_nil, cond.outside]
    have hstart : Outside [.blockStart] := by simp [outside_cons, outside_nil]
    have h := ((prev_elif.scansTargets.append hopen.scansTargets).append
      body.scansTargets).append hstart.scansTargets
    simpa [ElseifBlocksTree.tokens, ElseifBlocksTree.targets] using h

theorem ElseBlockTree.scansTargets : ∀ t : ElseBlockTree, ScansTargets t.tokens t.targets
  | .empty => outside_nil.scansTargets
  | .body body => by
    have hopen : Outside [.kwElse, .blockEnd] := by simp [outside_cons, outside_nil]
    have hstart : Outside [.blockStart] := by simp [outside_cons, outside_nil]
    have h := (hopen.scansTargets.append body.scansTargets).append hstart.scansTargets
    simpa [ElseBlockTree.tokens, ElseBlockTree.targets] using h

end

theorem RootTree.scansTargets : ∀ root : RootTree, ScansTargets root.tokens root.targets
  | .empty => outside_nil.scansTargets
  | .statements l => l.scansTargets

/-! ## Reads through the cast -/

def Failure.IsSyntaxError : Failure → Prop
  | .syntaxError .. => True
  | _ => False

section

variable {line : Nat}

theorem assertThat_error {cond : Bool} {msg : Text} {f : Failure}
    (h : assertThat line cond msg = .error f) : f.IsSyntaxError := by
  cases cond with
  | true => cases h
  | false =>
    cases h
    trivial

theorem assertOperand_error {op : ComparisonOperation} {e : Expression} {f : Failure}
    (h : assertOperand line op e = .error f) : f.IsSyntaxError := by
  cases op with
  | equal | notEqual => cases h
  | _ => exact assertThat_error h

mutual

/-- The actions of an expression fail at their assertions only. -/
theorem ExpressionTree.action_error : ∀ {e : ExpressionTree} {f : Failure},
    e.action line = .error f → f.IsSyntaxError
  | .varRef _, _, h | .stringLiteral _, _, h | .doubleLiteral _, _, h | .integerLiteral _, _, h
  | .booleanLiteral _, _, h => nomatch h
  | .minus _, _, h | .plus _, _, h | .not _, _, h => by
    simp only [ExpressionTree.action, bind_eq_error] at h
    obtain h | ⟨e, -, h | ⟨-, -, h⟩⟩ := h
    · exact ExpressionTree.action_error h
    · exact assertThat_error h
    · cases h
  | .parentheses _, _, h => by
    rw [ExpressionTree.action] at h
    exact ExpressionTree.action_error h
  | .binaryOperation .., _, h => by
    simp only [ExpressionTree.action, bind_eq_error] at h
    obtain h | ⟨_, -, h | ⟨_, -, h | ⟨-, -, h | ⟨-, -, h⟩⟩⟩⟩ := h
    · exact ExpressionTree.action_error h
    · exact ExpressionTree.action_error h
    · exact assertThat_error h
    · exact assertThat_error h
    · cases h
  | .comparison .., _, h => by
    simp only [ExpressionTree.action, bind_eq_error] at h
    obtain h | ⟨_, -, h | ⟨_, -, h | ⟨-, -, h | ⟨-, -, h⟩⟩⟩⟩ := h
    · exact ExpressionTree.action_error h
    · exact ExpressionTree.action_error h
    · exact assertOperand_error h
    · exact assertOperand_error h
    · cases h
  | .methodCall .., _, h => by
    simp only [ExpressionTree.action, bind_eq_error] at h
    obtain h | ⟨_, -, h⟩ := h
    · exact ArgumentsTree.action_error h
    · cases h

theorem ArgumentsTree.action_error : ∀ {args : ArgumentsTree} {f : Failure},
    args.action line = .error f → f.IsSyntaxError
  | .one _, _, h => by
    simp only [ArgumentsTree.action, bind_eq_error] at h
    obtain h | ⟨_, -, h⟩ := h
    · exact ExpressionTree.action_error h
    · cases h
  | .snoc .., _, h => by
    simp only [ArgumentsTree.action, bind_eq_error] at h
    obtain h | ⟨_, -, h | ⟨_, -, h⟩⟩ := h
    · exact ArgumentsTree.action_error h
    · exact ExpressionTree.action_error h
    · cases h

end

theorem MappingTree.action_error : ∀ {mapping : MappingTree} {f : Failure},
    mapping.action line = .error f → f.IsSyntaxError
  | .identifier _, _, h => nomatch h
  | .assign .., _, h => by
    simp only [MappingTree.action, bind_eq_error] at h
    obtain h | ⟨_, -, h⟩ := h
    · exact ExpressionTree.action_error h
    · cases h
  | .snocIdentifier .., _, h => by
    simp only [MappingTree.action, bind_eq_error] at h
    obtain h | ⟨_, -, h⟩ := h
    · exact action_error h
    · cases h
  | .snocAssign .., _, h => by
    simp only [MappingTree.action, bind_eq_error] at h
    obtain h | ⟨_, -, h | ⟨_, -, h⟩⟩ := h
    · exact action_error h
    · exact ExpressionTree.action_error h
    · cases h

theorem IncludeBlockTree.action_error {block : IncludeBlockTree} {f : Failure}
    (h : block.action line = .error f) : f.IsSyntaxError := by
  cases block with
  | plain name => cases h
  | usingScope name scope =>
    simp only [IncludeBlockTree.action, bind_eq_error] at h
    obtain h | ⟨_, -, h | ⟨-, -, h⟩⟩ := h
    · exact ExpressionTree.action_error h
    · exact assertThat_error h
    · cases h
  | withMapping name mapping =>
    simp only [IncludeBlockTree.action, bind_eq_error] at h
    obtain h | ⟨_, -, h⟩ := h
    · exact MappingTree.action_error h
    · cases h

/-- A cast goes wrong only where a variable of a for tag is no reference. -/
def FailsAt (targets : List Expression) (f : Failure) : Prop :=
  f.IsSyntaxError ∨ ∃ node ∈ targets, ¬IsReference node

theorem FailsAt.mono {targets targets' : List Expression} {f : Failure} (h : FailsAt targets f)
    (hsub : targets ⊆ targets') : FailsAt targets' f :=
  h.imp_right fun ⟨node, hmem, hnode⟩ => ⟨node, hsub hmem, hnode⟩

theorem loopVariable_error {v : VarRefTree} {f : Failure} (h : loopVariable v = .error f) :
    ¬IsReference v.action := by
  cases v with
  | identifier x => cases h
  | getAttribute v a => exact id

mutual

theorem StatementTree.action_error : ∀ {s : StatementTree} {f : Failure},
    s.action line = .error f → FailsAt s.targets f
  | .rawBlocks _, _, h => nomatch h
  | .printBlock _, _, h => by
    simp only [StatementTree.action, bind_eq_error] at h
    obtain h | ⟨_, -, h⟩ := h
    · exact .inl (ExpressionTree.action_error h)
    · cases h
  | .includeBlock _, _, h => .inl (IncludeBlockTree.action_error h)
  | .ifBlock cond then_body elif_blocks else_body, f, h => by
    simp only [StatementTree.action, bind_eq_error] at h
    obtain h | ⟨c, -, h | ⟨t, -, h | ⟨elifs, helifs, h | ⟨e, -, h⟩⟩⟩⟩ := h
    · exact .inl (ExpressionTree.action_error h)
    · exact (StatementsTree.action_error h).mono
        (List.subset_append_of_subset_left _ (List.subset_append_left _ _))
    · exact (ElseifBlocksTree.action_error h).mono
        (List.subset_append_of_subset_left _ (List.subset_append_right _ _))
    · exact (ElseBlockTree.action_error h).mono (List.subset_append_right _ _)
    · rw [ElseifBlocksTree.action_map] at helifs
      cases hbs : elif_blocks.branches line with
      | error f => rw [hbs] at helifs; cases helifs
      | ok bs =>
        rw [hbs] at helifs
        cases helifs
        rw [ifBlockAction_elseChain] at h
        cases h
  | .forStatement key value iterable body elseBody, f, h => by
    simp only [StatementTree.action, bind_eq_error] at h
    have hkey : targetNodes key value ⊆ (StatementTree.forStatement key value iterable body
        elseBody).targets := by
      rw [StatementTree.targets, List.append_assoc]
      exact List.subset_append_left _ _
    obtain h | ⟨b, -, h | ⟨e, -, h | ⟨k, -, h | ⟨v, -, h⟩⟩⟩⟩ := h
    · refine (StatementsTree.action_error h).mono ?_
      rw [StatementTree.targets]
      exact List.subset_append_of_subset_left _ (List.subset_append_right _ _)
    · exact (ElseBlockTree.action_error h).mono (List.subset_append_right _ _)
    · cases key with
      | none => cases h
      | some key =>
        have hkeyError : loopVariable key = .error f := by
          cases hk : loopVariable key with
          | ok x => simp [hk, Functor.map, Except.map] at h
          | error f' => simpa [hk, pure, Except.pure, Functor.map, Except.map] using h
        exact .inr ⟨key.action, hkey (by simp [targetNodes]), loopVariable_error hkeyError⟩
    · exact .inr ⟨value.action, hkey (by simp [targetNodes]), loopVariable_error h⟩
    · cases h

theorem StatementsTree.action_error : ∀ {l : StatementsTree} {f : Failure},
    l.action line = .error f → FailsAt l.targets f
  | .one s, f, h => by
    simp only [StatementsTree.action, bind_eq_error] at h
    obtain h | ⟨_, -, h⟩ := h
    · exact StatementTree.action_error h
    · cases h
  | .snoc l s, f, h => by
    simp only [StatementsTree.action, bind_eq_error] at h
    obtain h | ⟨_, -, h | ⟨_, -, h⟩⟩ := h
    · exact (StatementsTree.action_error h).mono (List.subset_append_left _ _)
    · exact (StatementTree.action_error h).mono (List.subset_append_right _ _)
    · cases h

theorem ElseifBlocksTree.action_error : ∀ {t : ElseifBlocksTree} {f : Failure},
    t.action line = .error f → FailsAt t.targets f
  | .empty, _, h => nomatch h
  | .snoc prev_elif cond body, f, h => by
    have hmap : ∀ {t : ElseifBlocksTree}, t.branches line = .error f ↔ t.action line = .error f := by
      intro t
      rw [ElseifBlocksTree.action_map]
      cases t.branches line <;> simp [Except.map]
    rw [← hmap] at h
    simp only [ElseifBlocksTree.branches, bind_eq_error] at h
    obtain h | ⟨_, -, h | ⟨_, -, h | ⟨_, -, h⟩⟩⟩ := h
    · exact (ElseifBlocksTree.action_error (hmap.1 h)).mono (List.subset_append_left _ _)
    · exact .inl (ExpressionTree.action_error h)
    · exact (StatementsTree.action_error h).mono (List.subset_append_right _ _)
    · cases h

theorem ElseBlockTree.action_error : ∀ {t : ElseBlockTree} {f : Failure},
    t.action line = .error f → FailsAt t.targets f
  | .empty, _, h => nomatch h
  | .body body, f, h => by
    simp only [ElseBlockTree.action, bind_eq_error] at h
    obtain h | ⟨_, -, h⟩ := h
    · exact StatementsTree.action_error h
    · cases h

end

theorem RootTree.action_error {root : RootTree} {f : Failure} (h : root.action line = .error f) :
    FailsAt root.targets f := by
  cases root with
  | empty => cases h
  | statements l =>
    simp only [RootTree.action, bind_eq_error] at h
    obtain h | ⟨_, -, h⟩ := h
    · exact StatementsTree.action_error h
    · cases h

end

/-! ## Templates -/

/-- The loop variables of an accepted template are references exactly if no for tag has a
separator before its `in`. -/
theorem targetsPlain_iff {text : Text} (h : Accepts text) :
    TargetsPlain text ↔ SeparatorFree (lexer.tokens (lexStart text)) := by
  constructor
  · intro hplain
    obtain ⟨root, hroot, hchecked⟩ := h
    rw [← hroot.tokens, separatorFree_iff root.scansTargets]
    exact hplain.nodes root hroot hchecked
  · intro hfree
    have hnodes : ∀ root : RootTree, root.Derives text → ∀ node ∈ root.targets,
        IsReference node := by
      intro root hroot
      rw [← hroot.tokens, separatorFree_iff root.scansTargets] at hfree
      exact hfree
    refine ⟨fun root hroot _ => hnodes root hroot, ?_⟩
    intro root line hroot hchecked hcast
    obtain hsyntax | ⟨node, hmem, hnode⟩ := RootTree.action_error hcast
    · cases hsyntax
    · exact hnode (hnodes root hroot node hmem)

/-- A for tag over `c` with the body `x`. -/
def forX (value : VarRefTree) : RootTree :=
  .statements (.one (.forStatement none value (.identifier ['c']) (rawBody "x") .empty))

/-- `{% for a in c %}x{% endfor %}` -/
theorem targetsPlain_identifier :
    TargetsPlain "\x7b% for a in c %\x7dx\x7b% endfor %\x7d".toList := by
  have hroot : (forX (.identifier ['a'])).Derives
      "\x7b% for a in c %\x7dx\x7b% endfor %\x7d".toList := by
    refine ⟨⟨trivial, trivial⟩, ?_⟩
    decide +kernel
  have hchecked : (forX (.identifier ['a'])).Checked := by
    intro x line message l h
    cases h
  refine (targetsPlain_iff ⟨_, hroot, hchecked⟩).2 ?_
  rw [← hroot.tokens]
  decide

/-- `{% for a.b in c %}x{% endfor %}` -/
theorem not_targetsPlain_attribute :
    Accepts "\x7b% for a.b in c %\x7dx\x7b% endfor %\x7d".toList ∧
      ¬TargetsPlain "\x7b% for a.b in c %\x7dx\x7b% endfor %\x7d".toList := by
  have hroot : (forX (.getAttribute (.identifier ['a']) ['b'])).Derives
      "\x7b% for a.b in c %\x7dx\x7b% endfor %\x7d".toList := by
    refine ⟨⟨trivial, trivial⟩, ?_⟩
    decide +kernel
  have hchecked : (forX (.getAttribute (.identifier ['a']) ['b'])).Checked := by
    intro x line message l h
    cases h
  refine ⟨⟨_, hroot, hchecked⟩, fun hplain => ?_⟩
  exact hplain.nodes _ hroot hchecked (.getAttribute (.variableReference ['a']) ['b'])
    List.mem_cons_self

end B2
