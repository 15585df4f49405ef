import B2.Parser.Bodies
import B2.Parser.IfChain
import B2.Parser.Trimming

/-!
# Whitespace control

Trimming delimiters drop blanks from a template. If every body keeps something, the
template is accepted as before and its tree is the same but for the blanks; where a
body is nothing but blanks that are dropped, the template is rejected
(`changesOnlyBlanks_iff`).
-/

namespace B2

open Flex.Scanner (Piece)

/-! ## Trees without some blanks -/

/-- The statements without some raw blocks of blanks, in them and in their bodies. -/
inductive DropsBlanks : List AST → List AST → Prop
  | nil : DropsBlanks [] []
  | drop {l l' : List AST} {w : Text} (hw : ∀ c ∈ w, isBlank c = true) (h : DropsBlanks l l') :
    DropsBlanks (.rawBlock w :: l) l'
  | rawBlock {l l' : List AST} (w : Text) (h : DropsBlanks l l') :
    DropsBlanks (.rawBlock w :: l) (.rawBlock w :: l')
  | printBlock {l l' : List AST} (e : Expression) (h : DropsBlanks l l') :
    DropsBlanks (.printBlock e :: l) (.printBlock e :: l')
  | includeBlock {l l' : List AST} (name : Text) (scope : Option Expression)
    (M : StringExpressionMap) (h : DropsBlanks l l') :
    DropsBlanks (.includeBlock name scope M :: l) (.includeBlock name scope M :: l')
  | ifBlock {l l' : List AST} (c : Expression) {t t' : AST}
    (ht : DropsBlanks t.asStatements t'.asStatements) (h : DropsBlanks l l') :
    DropsBlanks (.ifBlock c t none :: l) (.ifBlock c t' none :: l')
  | ifElse {l l' : List AST} (c : Expression) {t t' e e' : AST}
    (ht : DropsBlanks t.asStatements t'.asStatements)
    (he : DropsBlanks e.asStatements e'.asStatements) (h : DropsBlanks l l') :
    DropsBlanks (.ifBlock c t (some e) :: l) (.ifBlock c t' (some e') :: l')
  | forBlock {l l' : List AST} (k v : Option Text) (i : Expression) {b b' : AST}
    (hb : DropsBlanks b.asStatements b'.asStatements) (h : DropsBlanks l l') :
    DropsBlanks (.forBlock k v i b none :: l) (.forBlock k v i b' none :: l')
  | forElse {l l' : List AST} (k v : Option Text) (i : Expression) {b b' e e' : AST}
    (hb : DropsBlanks b.asStatements b'.asStatements)
    (he : DropsBlanks e.asStatements e'.asStatements) (h : DropsBlanks l l') :
    DropsBlanks (.forBlock k v i b (some e) :: l) (.forBlock k v i b' (some e') :: l')

/-- Two bodies that are the same but for blanks. -/
def SameBody (a a' : AST) : Prop := DropsBlanks a.asStatements a'.asStatements

def SameElse : Option AST → Option AST → Prop := Option.Rel SameBody

section

variable {l l' m m' : List AST}

theorem DropsBlanks.append (h : DropsBlanks l l') (hm : DropsBlanks m m') :
    DropsBlanks (l ++ m) (l' ++ m') := by
  induction h with
  | nil => exact hm
  | drop hw _ ih => exact .drop hw ih
  | rawBlock w _ ih => exact .rawBlock w ih
  | printBlock e _ ih => exact .printBlock e ih
  | includeBlock name scope M _ ih => exact .includeBlock name scope M ih
  | ifBlock c ht _ _ ih => exact .ifBlock c ht ih
  | ifElse c ht he _ _ _ ih => exact .ifElse c ht he ih
  | forBlock k v i hb _ _ ih => exact .forBlock k v i hb ih
  | forElse k v i hb he _ _ _ ih => exact .forElse k v i hb he ih

/-- A list of these statements is the list of the statements of the body that it makes. -/
theorem DropsBlanks.asStatements (h : DropsBlanks l l') :
    (AST.fromStatementsArray l).asStatements = l ∧
      (AST.fromStatementsArray l').asStatements = l' := by
  have hlist : ∀ {l : List AST}, (∀ a ∈ l, a.asStatements = [a]) →
      (AST.fromStatementsArray l).asStatements = l := by
    intro l hl
    match l with
    | [] | _ :: _ :: _ => rfl
    | [a] => exact hl a List.mem_cons_self
  have hsingle : (∀ a ∈ l, a.asStatements = [a]) ∧ ∀ a ∈ l', a.asStatements = [a] := by
    induction h with
    | nil => exact ⟨nofun, nofun⟩
    | drop _ _ ih => exact ⟨List.forall_mem_cons.2 ⟨rfl, ih.1⟩, ih.2⟩
    | rawBlock _ _ ih | printBlock _ _ ih | includeBlock _ _ _ _ ih | ifBlock _ _ _ _ ih
    | ifElse _ _ _ _ _ _ ih | forBlock _ _ _ _ _ _ ih | forElse _ _ _ _ _ _ _ _ ih =>
      exact ⟨List.forall_mem_cons.2 ⟨rfl, ih.1⟩, List.forall_mem_cons.2 ⟨rfl, ih.2⟩⟩
  exact ⟨hlist hsingle.1, hlist hsingle.2⟩

theorem DropsBlanks.sameBody (h : DropsBlanks l l') :
    SameBody (.fromStatementsArray l) (.fromStatementsArray l') := by
  rw [SameBody, h.asStatements.1, h.asStatements.2]
  exact h

theorem sameBody_ifBlock {c : Expression} {t t' : AST} {e e' : Option AST} (ht : SameBody t t')
    (he : SameElse e e') : SameBody (.ifBlock c t e) (.ifBlock c t' e') := by
  cases he with
  | none => exact .ifBlock c ht .nil
  | some he => exact .ifElse c ht he .nil

theorem sameBody_forBlock {k v : Option Text} {i : Expression} {b b' : AST} {e e' : Option AST}
    (hb : SameBody b b') (he : SameElse e e') :
    SameBody (.forBlock k v i b e) (.forBlock k v i b' e') := by
  cases he with
  | none => exact .forBlock k v i hb .nil
  | some he => exact .forElse k v i hb he .nil

/-- The branches of a chain. -/
def SameBranches : List (Expression × AST) → List (Expression × AST) → Prop :=
  List.Forall₂ fun p p' => p.1 = p'.1 ∧ SameBody p.2 p'.2

theorem forall₂_firstAndLast {α β : Type} {R : α → β → Prop} {l : List α} {l' : List β}
    (h : List.Forall₂ R l l') : List.Forall₂ R (firstAndLast l) (firstAndLast l') := by
  have hlast : ∀ {l : List α} {l' : List β} {a : α} {b : β}, R a b → List.Forall₂ R l l' →
      R ((a :: l).getLast (List.cons_ne_nil _ _)) ((b :: l').getLast (List.cons_ne_nil _ _)) := by
    intro l l' a b hab h
    induction h generalizing a b with
    | nil => exact hab
    | cons hcd _ ih => exact ih hcd
  cases h with
  | nil => exact .nil
  | cons hab h =>
    cases h with
    | nil => exact .cons hab .nil
    | cons hcd h => exact .cons hab (.cons (hlast hcd h) .nil)

theorem sameElse_elseChain {bs bs' : List (Expression × AST)} (h : SameBranches bs bs')
    {e e' : Option AST} (he : SameElse e e') : SameElse (elseChain bs e) (elseChain bs' e') := by
  induction h with
  | nil => exact he
  | @cons p p' bs bs' hp h ih =>
    obtain ⟨c, b⟩ := p
    obtain ⟨c', b'⟩ := p'
    obtain ⟨rfl, hb⟩ := hp
    exact .some (sameBody_ifBlock hb ih)

end

/-! ## Runs of the actions -/

/-- Both runs fail in the same way, or their results are related. -/
inductive SameRun {α β : Type} (R : α → β → Prop) : Run α → Run β → Prop
  | ok {a : α} {b : β} (h : R a b) : SameRun R (.ok a) (.ok b)
  | error (f : Failure) : SameRun R (.error f) (.error f)

section

variable {α α' β β' : Type} {R : α → β → Prop} {R' : α' → β' → Prop} {x : Run α} {y : Run β}

theorem SameRun.bind {f : α → Run α'} {g : β → Run β'} (h : SameRun R x y)
    (hf : ∀ a b, R a b → SameRun R' (f a) (g b)) : SameRun R' (x >>= f) (y >>= g) := by
  cases h with
  | ok h => exact hf _ _ h
  | error f => exact .error f

theorem sameRun_self (x : Run α) : SameRun Eq x x := by
  cases x with
  | ok a => exact .ok rfl
  | error f => exact .error f

end

/-! ## Tokens without some blanks -/

/-- No token is raw text. -/
def NoRaw (l : List Token) : Prop := ∀ t ∈ l, ∀ w, t ≠ .raw w

/-- The tokens begin in a tag that ends a body. -/
def Closes : List Token → Prop
  | .kwElseif :: _ | .kwElse :: _ | .kwEndif :: _ | .kwEndfor :: _ => True
  | _ => False

section

variable {l l' m m' : List Token} {t : Token}

theorem noRaw_cons : NoRaw (t :: l) ↔ (∀ w, t ≠ .raw w) ∧ NoRaw l := List.forall_mem_cons

theorem noRaw_append : NoRaw (l ++ m) ↔ NoRaw l ∧ NoRaw m := List.forall_mem_append

theorem noRaw_nil : NoRaw [] := fun _ h => absurd h List.not_mem_nil

theorem Inner.noRaw (h : Inner l) : NoRaw l := by
  rintro t ht w rfl
  cases h _ ht

theorem drops_nil_iff : Drops [] l ↔ l = [] := by
  constructor
  · intro h
    cases h
    rfl
  · rintro rfl
    exact .nil

theorem Drops.exists_append (h : Drops (l ++ m) l') :
    ∃ l₁ l₂, l' = l₁ ++ l₂ ∧ Drops l l₁ ∧ Drops m l₂ := by
  induction l generalizing l' with
  | nil => exact ⟨[], l', rfl, .nil, h⟩
  | cons t l ih =>
    cases h with
    | keep _ h =>
      obtain ⟨l₁, l₂, rfl, h₁, h₂⟩ := ih h
      exact ⟨t :: l₁, l₂, rfl, .keep t h₁, h₂⟩
    | drop hw h =>
      obtain ⟨l₁, l₂, rfl, h₁, h₂⟩ := ih h
      exact ⟨l₁, l₂, rfl, .drop hw h₁, h₂⟩

/-- Only raw text is gone. -/
theorem Drops.eq_of_noRaw (h : Drops l l') (hl : NoRaw l) : l' = l := by
  induction h with
  | nil => rfl
  | keep t _ ih => rw [ih (noRaw_cons.1 hl).2]
  | drop _ _ _ => exact absurd rfl ((noRaw_cons.1 hl).1 _)

theorem Drops.exists_noRaw_append (h : Drops (l ++ m) l') (hl : NoRaw l) :
    ∃ l₂, l' = l ++ l₂ ∧ Drops m l₂ := by
  obtain ⟨l₁, l₂, rfl, h₁, h₂⟩ := h.exists_append
  rw [h₁.eq_of_noRaw hl]
  exact ⟨l₂, rfl, h₂⟩

theorem Drops.closes (h : Drops l l') (hl : Closes l) : Closes l' := by
  cases h with
  | nil => exact hl
  | keep t _ => cases t <;> exact hl
  | drop _ _ => cases hl

/-- A body that is empty before it is closed. -/
theorem scanBodies_closes (h : Closes l) : scanBodies (.start true) l = none := by
  cases l with
  | nil => cases h
  | cons t l => cases t <;> first | rfl | cases h

theorem noRaw_blockStart : NoRaw [.blockStart] := noRaw_cons.2 ⟨nofun, noRaw_nil⟩

theorem noRaw_ifTag (cond : ExpressionTree) :
    NoRaw (.blockStart :: .kwIf :: cond.tokens ++ [.blockEnd]) := by
  simp [noRaw_cons, noRaw_append, noRaw_nil, cond.inner.noRaw]

theorem noRaw_elseifTag (cond : ExpressionTree) :
    NoRaw (.kwElseif :: cond.tokens ++ [.blockEnd]) := by
  simp [noRaw_cons, noRaw_append, noRaw_nil, cond.inner.noRaw]

theorem noRaw_forTag (key : Option VarRefTree) (value iterable : VarRefTree) :
    NoRaw (.blockStart :: .kwFor :: targetTokens key value ++ .kwIn :: iterable.tokens ++
      [.blockEnd]) := by
  simp [noRaw_cons, noRaw_append, noRaw_nil, (inner_targetTokens key value).noRaw,
    iterable.inner.noRaw]

theorem noRaw_includeBlock (block : IncludeBlockTree) : NoRaw block.tokens := by
  cases block with
  | plain name => simp [IncludeBlockTree.tokens, noRaw_cons, noRaw_nil]
  | usingScope name scope =>
    simp [IncludeBlockTree.tokens, noRaw_cons, noRaw_append, noRaw_nil, scope.inner.noRaw]
  | withMapping name mapping =>
    simp [IncludeBlockTree.tokens, noRaw_cons, noRaw_append, noRaw_nil, mapping.inner.noRaw]

end

theorem ElseifBlocksTree.closes_append {rest : List Token} (h : Closes rest)
    (t : ElseifBlocksTree) : Closes (t.tokens ++ rest) := by
  cases t with
  | empty => exact h
  | snoc prev_elif cond body =>
    have htag : Closes (.kwElseif :: (cond.tokens ++ ([.blockEnd] ++
      (body.tokens ++ ([.blockStart] ++ rest))))) := trivial
    rw [tokens]
    simp only [List.append_assoc, List.cons_append, List.nil_append] at htag ⊢
    exact closes_append htag prev_elif

theorem ElseBlockTree.closes_append {rest : List Token} (h : Closes rest) (t : ElseBlockTree) :
    Closes (t.tokens ++ rest) := by
  cases t with
  | empty => exact h
  | body _ => exact trivial

/-! ## What is left of a tree -/

/-- Of a statement there is nothing left if it is raw text, or a statement of its kind. -/
inductive StatementTree.Left (s : StatementTree) : List Token → Prop
  | gone (hraw : s.IsRaw)
    (hblank : ∀ [WrongCast] line, ∃ a, s.action line = .ok a ∧ DropsBlanks a.asStatements []) : s.Left []
  | kept (s' : StatementTree) (hraw : s'.IsRaw → s.IsRaw) (hresolved : s'.Resolved)
    (hsame : ∀ [WrongCast] line, SameRun SameBody (s.action line) (s'.action line)) : s.Left s'.tokens

inductive StatementsTree.Left (l : StatementsTree) : List Token → Prop
  | gone (hraw : l.last.IsRaw) (hblank : ∀ [WrongCast] line, ∃ as, l.action line = .ok as ∧ DropsBlanks as []) :
    l.Left []
  | kept (l' : StatementsTree) (hraw : l'.last.IsRaw → l.last.IsRaw) (hresolved : l'.Resolved)
    (hsame : ∀ [WrongCast] line, SameRun DropsBlanks (l.action line) (l'.action line)) : l.Left l'.tokens

def ElseifBlocksTree.Left (t : ElseifBlocksTree) (l : List Token) : Prop :=
  ∃ t' : ElseifBlocksTree, t'.tokens = l ∧ t'.Resolved ∧
    ∀ [WrongCast] line, SameRun SameBranches (t.branches line) (t'.branches line)

def ElseBlockTree.Left (t : ElseBlockTree) (l : List Token) : Prop :=
  ∃ t' : ElseBlockTree, t'.tokens = l ∧ t'.Resolved ∧
    ∀ [WrongCast] line, SameRun SameElse (t.action line) (t'.action line)

/-- Some of the raw text of blanks is gone, or all of it. -/
theorem RawBlocksTree.left (blocks : RawBlocksTree) : ∀ {l : List Token}, Drops blocks.tokens l →
    (l = [] ∧ DropsBlanks blocks.action []) ∨
      ∃ blocks' : RawBlocksTree, blocks'.tokens = l ∧ DropsBlanks blocks.action blocks'.action := by
  induction blocks with
  | one text =>
    intro l h
    cases h with
    | keep _ h =>
      rw [drops_nil_iff.1 h]
      exact .inr ⟨.one text, rfl, .rawBlock text .nil⟩
    | drop hw h =>
      rw [drops_nil_iff.1 h]
      exact .inl ⟨rfl, .drop hw .nil⟩
  | snoc blocks text ih =>
    intro l h
    obtain ⟨l₁, l₂, rfl, h₁, h₂⟩ := h.exists_append
    have hlast : (l₂ = [] ∧ ∀ c ∈ text, isBlank c = true) ∨ l₂ = [.raw text] := by
      cases h₂ with
      | keep _ hrest => exact .inr (by rw [drops_nil_iff.1 hrest])
      | drop hw hrest => exact .inl ⟨drops_nil_iff.1 hrest, hw⟩
    rcases ih h₁ with ⟨rfl, hgone⟩ | ⟨blocks', rfl, hkept⟩ <;>
      rcases hlast with ⟨rfl, hw⟩ | rfl
    · exact .inl ⟨rfl, hgone.append (.drop hw .nil)⟩
    · exact .inr ⟨.one text, rfl, hgone.append (.rawBlock text .nil)⟩
    · refine .inr ⟨blocks', (List.append_nil _).symm, ?_⟩
      rw [← List.append_nil blocks'.action]
      exact hkept.append (.drop hw .nil)
    · exact .inr ⟨.snoc blocks' text, rfl, hkept.append (.rawBlock text .nil)⟩

theorem scanBodies_ne_none {place : Place} {l l' : List Token}
    (h : scanBodies place (l ++ l') ≠ none) : scanBodies place l ≠ none := by
  intro hl
  rw [scanBodies_append, hl] at h
  exact h rfl

/-- A body that some blanks are dropped from is still one, if the tokens keep bodies. -/
theorem StatementsTree.left_body {body : StatementsTree} {l rest : List Token} (hl : body.Left l)
    (hrest : Closes rest) (h : scanBodies (.text true) (l ++ .blockStart :: rest) ≠ none) :
    ∃ body' : StatementsTree, body'.tokens = l ∧ body'.Resolved ∧
      (∀ [WrongCast] line, SameRun DropsBlanks (body.action line) (body'.action line)) ∧
      scanBodies (.start false) rest ≠ none := by
  cases hl with
  | gone _ _ => exact absurd (scanBodies_closes hrest) h
  | kept body' _ hresolved hsame =>
    rw [scanBodies_of_append (body'.scan_tokens true)] at h
    exact ⟨body', rfl, hresolved, hsame, h⟩

theorem IncludeBlockTree.sameRun (line : Nat) (block : IncludeBlockTree) :
    SameRun SameBody (block.action line) (block.action line) := by
  cases block with
  | plain name => exact .ok (.includeBlock name none .empty .nil)
  | usingScope name scope =>
    refine (sameRun_self (scope.action line)).bind ?_
    rintro e _ rfl
    refine (sameRun_self (assertMap line e)).bind ?_
    rintro _ _ rfl
    exact .ok (.includeBlock name (some e) .empty .nil)
  | withMapping name mapping =>
    refine (sameRun_self (mapping.action line)).bind ?_
    rintro M _ rfl
    exact .ok (.includeBlock name none M .nil)

mutual

theorem StatementTree.left : ∀ (s : StatementTree) {opened : Bool} {l : List Token}, s.Resolved →
    Drops s.tokens l → scanBodies (.text opened) l ≠ none → s.Left l
  | .rawBlocks blocks, _, l, _, h, _ => by
    rcases blocks.left h with ⟨rfl, hgone⟩ | ⟨blocks', rfl, hkept⟩
    · refine .gone trivial fun _ => ⟨_, rfl, ?_⟩
      rw [hgone.asStatements.1]
      exact hgone
    · exact .kept (.rawBlocks blocks') id trivial fun _ => .ok hkept.sameBody
  | .printBlock e, _, l, hresolved, h, _ => by
    have hraw : NoRaw (StatementTree.printBlock e).tokens := by
      simp [StatementTree.tokens, noRaw_cons, noRaw_append, noRaw_nil, e.inner.noRaw]
    rw [h.eq_of_noRaw hraw]
    refine .kept (.printBlock e) id hresolved fun line => ?_
    refine (sameRun_self (e.action line)).bind ?_
    rintro a _ rfl
    exact .ok (.printBlock a .nil)
  | .includeBlock block, _, l, hresolved, h, _ => by
    rw [h.eq_of_noRaw (noRaw_includeBlock block)]
    exact .kept (.includeBlock block) id hresolved block.sameRun
  | .ifBlock cond then_body elif_blocks else_body, opened, l, hresolved, h, hscan => by
    obtain ⟨hcond, hthen, helifs, helse⟩ := hresolved
    have hend : NoRaw [.kwEndif, .blockEnd] := by simp [noRaw_cons, noRaw_nil]
    have htag : Closes [.kwEndif, .blockEnd] := trivial
    rw [StatementTree.tokens, List.append_assoc, List.append_assoc, List.append_assoc,
      List.append_assoc] at h
    obtain ⟨m₁, rfl, hm₁⟩ := h.exists_noRaw_append (noRaw_ifTag cond)
    obtain ⟨l₁, m₂, rfl, h₁, hm₂⟩ := hm₁.exists_append
    obtain ⟨m₃, rfl, hm₃⟩ := hm₂.exists_noRaw_append noRaw_blockStart
    have hcloses := hm₃.closes (elif_blocks.closes_append (else_body.closes_append htag))
    obtain ⟨l₂, m₄, rfl, h₂, hm₄⟩ := hm₃.exists_append
    have hcloses' := hm₄.closes (else_body.closes_append htag)
    obtain ⟨l₃, m₅, rfl, h₃, hm₅⟩ := hm₄.exists_append
    obtain rfl := hm₅.eq_of_noRaw hend
    rw [scanBodies_of_append (scan_ifTag opened cond)] at hscan
    have hleft := then_body.left hthen h₁ (scanBodies_ne_none hscan)
    obtain ⟨then', rfl, hthen', hsame₁, hscan⟩ := StatementsTree.left_body hleft hcloses hscan
    obtain ⟨elifs', rfl, helifs', hsame₂⟩ := elif_blocks.left helifs h₂ hcloses' hscan
    rw [scanBodies_of_append elifs'.scan_tokens] at hscan
    obtain ⟨else', rfl, helse', hsame₃⟩ := else_body.left helse h₃ htag hscan
    have hkept : (StatementTree.ifBlock cond then_body elif_blocks else_body).Left
        (StatementTree.ifBlock cond then' elifs' else').tokens := by
      refine .kept _ id ⟨hcond, hthen', helifs', helse'⟩ fun line => ?_
      rw [ifBlock_action_branches, ifBlock_action_branches]
      refine (sameRun_self (cond.action line)).bind ?_
      rintro c _ rfl
      refine (hsame₁ line).bind fun t t' ht => ?_
      refine (hsame₂ line).bind fun bs bs' hbs => ?_
      refine (hsame₃ line).bind fun e e' he => .ok ?_
      exact sameBody_ifBlock ht.sameBody (sameElse_elseChain (forall₂_firstAndLast hbs) he)
    rwa [StatementTree.tokens, List.append_assoc, List.append_assoc, List.append_assoc,
      List.append_assoc] at hkept
  | .forStatement key value iterable body elseBody, opened, l, hresolved, h, hscan => by
    obtain ⟨hbody, helse⟩ := hresolved
    have hend : NoRaw [.kwEndfor, .blockEnd] := by simp [noRaw_cons, noRaw_nil]
    have htag : Closes [.kwEndfor, .blockEnd] := trivial
    rw [StatementTree.tokens, List.append_assoc, List.append_assoc, List.append_assoc] at h
    obtain ⟨m₁, rfl, hm₁⟩ := h.exists_noRaw_append (noRaw_forTag key value iterable)
    obtain ⟨l₁, m₂, rfl, h₁, hm₂⟩ := hm₁.exists_append
    obtain ⟨m₃, rfl, hm₃⟩ := hm₂.exists_noRaw_append noRaw_blockStart
    have hcloses := hm₃.closes (elseBody.closes_append htag)
    obtain ⟨l₂, m₄, rfl, h₂, hm₄⟩ := hm₃.exists_append
    obtain rfl := hm₄.eq_of_noRaw hend
    rw [scanBodies_of_append (scan_forTag opened key value iterable)] at hscan
    have hleft := body.left hbody h₁ (scanBodies_ne_none hscan)
    obtain ⟨body', rfl, hbody', hsame₁, hscan⟩ := StatementsTree.left_body hleft hcloses hscan
    obtain ⟨else', rfl, helse', hsame₂⟩ := elseBody.left helse h₂ htag hscan
    have hkept : (StatementTree.forStatement key value iterable body elseBody).Left
        (StatementTree.forStatement key value iterable body' else').tokens := by
      refine .kept _ id ⟨hbody', helse'⟩ fun line => ?_
      refine (hsame₁ line).bind fun b b' hb => ?_
      refine (hsame₂ line).bind fun e e' he => ?_
      refine (sameRun_self (key.mapM loopVariable)).bind ?_
      rintro k _ rfl
      refine (sameRun_self (loopVariable value)).bind ?_
      rintro v _ rfl
      exact .ok (sameBody_forBlock hb.sameBody he)
    rwa [StatementTree.tokens, List.append_assoc, List.append_assoc, List.append_assoc] at hkept

theorem StatementsTree.left : ∀ (t : StatementsTree) {opened : Bool} {l : List Token}, t.Resolved →
    Drops t.tokens l → scanBodies (.text opened) l ≠ none → t.Left l
  | .one s, _, l, hresolved, h, hscan => by
    cases s.left hresolved h hscan with
    | gone hraw hblank =>
      refine .gone hraw fun line => ?_
      obtain ⟨a, ha, hblank⟩ := hblank line
      exact ⟨a.asStatements, by rw [StatementsTree.action, ha]; rfl, hblank⟩
    | kept s' hraw hresolved hsame =>
      exact .kept (.one s') hraw hresolved fun line => (hsame line).bind fun _ _ h => .ok h
  | .snoc t s, opened, l, hresolved, h, hscan => by
    obtain ⟨hsplit, ht, hs⟩ := hresolved
    obtain ⟨l₁, l₂, rfl, h₁, h₂⟩ := h.exists_append
    cases t.left ht h₁ (scanBodies_ne_none hscan) with
    | gone hraw hblank =>
      cases s.left hs h₂ hscan with
      | gone hraw' _ => exact absurd ⟨hraw, hraw'⟩ hsplit
      | kept s' hraw' hresolved hsame =>
        refine .kept (.one s') hraw' hresolved fun line => ?_
        obtain ⟨as, has, hblank⟩ := hblank line
        have haction : (StatementsTree.snoc t s).action line =
            (do return as ++ (← s.action line).asStatements) := by
          rw [StatementsTree.action, has]
          rfl
        rw [haction]
        exact (hsame line).bind fun _ _ h => .ok (hblank.append h)
    | kept t' hraw hresolved hsame =>
      rw [scanBodies_of_append (t'.scan_tokens opened)] at hscan
      cases s.left hs h₂ hscan with
      | gone hraw' hblank =>
        rw [List.append_nil]
        refine .kept t' (fun _ => hraw') hresolved fun line => ?_
        obtain ⟨a, ha, hblank⟩ := hblank line
        rw [StatementsTree.action, ha, ← bind_pure (t'.action line)]
        refine (hsame line).bind fun _ as' h => .ok ?_
        rw [← List.append_nil as']
        exact h.append hblank
      | kept s' hraw' hresolved' hsame' =>
        refine .kept (.snoc t' s') hraw' ⟨?_, hresolved, hresolved'⟩ fun line => ?_
        · exact fun h => hsplit ⟨hraw h.1, hraw' h.2⟩
        · refine (hsame line).bind fun _ _ h => ?_
          exact (hsame' line).bind fun _ _ h' => .ok (h.append h')

theorem ElseifBlocksTree.left : ∀ (t : ElseifBlocksTree) {l rest : List Token}, t.Resolved →
    Drops t.tokens l → Closes rest → scanBodies (.start false) (l ++ rest) ≠ none → t.Left l
  | .empty, l, rest, _, h, _, _ => by
    rw [drops_nil_iff.1 h]
    exact ⟨.empty, rfl, trivial, fun _ => .ok .nil⟩
  | .snoc prev_elif cond body, l, rest, hresolved, h, hrest, hscan => by
    obtain ⟨hprev, hcond, hbody⟩ := hresolved
    rw [ElseifBlocksTree.tokens, List.append_assoc, List.append_assoc] at h
    obtain ⟨l₁, m₁, rfl, h₁, hm₁⟩ := h.exists_append
    obtain ⟨m₂, rfl, hm₂⟩ := hm₁.exists_noRaw_append (noRaw_elseifTag cond)
    obtain ⟨l₂, m₃, rfl, h₂, hm₃⟩ := hm₂.exists_append
    rw [hm₃.eq_of_noRaw noRaw_blockStart] at hscan ⊢
    rw [List.append_assoc] at hscan
    have hprev_left : prev_elif.Left l₁ := by
      refine prev_elif.left hprev h₁ ?_ hscan
      exact trivial
    obtain ⟨prev', rfl, hprev', hsame⟩ := hprev_left
    rw [scanBodies_of_append prev'.scan_tokens, List.append_assoc,
      scanBodies_of_append (scan_elseifTag cond), List.append_assoc] at hscan
    have hleft := body.left hbody h₂ (scanBodies_ne_none hscan)
    obtain ⟨body', rfl, hbody', hsame', -⟩ := StatementsTree.left_body hleft hrest hscan
    refine ⟨.snoc prev' cond body', ?_, ⟨hprev', hcond, hbody'⟩, fun line => ?_⟩
    · simp only [ElseifBlocksTree.tokens, List.append_assoc]
    · refine (hsame line).bind fun bs bs' hbs => ?_
      refine (sameRun_self (cond.action line)).bind ?_
      rintro c _ rfl
      refine (hsame' line).bind fun b b' hb => .ok ?_
      exact List.rel_append hbs (.cons ⟨rfl, hb.sameBody⟩ .nil)

theorem ElseBlockTree.left : ∀ (t : ElseBlockTree) {l rest : List Token}, t.Resolved →
    Drops t.tokens l → Closes rest → scanBodies (.start false) (l ++ rest) ≠ none → t.Left l
  | .empty, l, rest, _, h, _, _ => by
    rw [drops_nil_iff.1 h]
    exact ⟨.empty, rfl, trivial, fun _ => .ok .none⟩
  | .body body, l, rest, hresolved, h, hrest, hscan => by
    have htag : NoRaw [.kwElse, .blockEnd] := by simp [noRaw_cons, noRaw_nil]
    rw [ElseBlockTree.tokens, List.append_assoc] at h
    obtain ⟨m₁, rfl, hm₁⟩ := h.exists_noRaw_append htag
    obtain ⟨l₁, m₂, rfl, h₁, hm₂⟩ := hm₁.exists_append
    rw [hm₂.eq_of_noRaw noRaw_blockStart] at hscan ⊢
    have hscan : scanBodies (.text true) ((l₁ ++ [.blockStart]) ++ rest) ≠ none := hscan
    rw [List.append_assoc] at hscan
    have hleft := body.left hresolved h₁ (scanBodies_ne_none hscan)
    obtain ⟨body', rfl, hbody', hsame, -⟩ := StatementsTree.left_body hleft hrest hscan
    refine ⟨.body body', ?_, hbody', fun line => ?_⟩
    · rw [ElseBlockTree.tokens, List.append_assoc]
    · exact (hsame line).bind fun b b' hb => .ok (.some hb.sameBody)

end

theorem RootTree.left {root : RootTree} {l : List Token} (hresolved : root.Resolved)
    (h : Drops root.tokens l) (hscan : KeepsBodies l) : ∃ root' : RootTree, root'.tokens = l ∧
      root'.Resolved ∧ ∀ [WrongCast] line, SameRun SameBody (root.action line) (root'.action line) := by
  cases root with
  | empty =>
    rw [drops_nil_iff.1 h]
    exact ⟨.empty, rfl, trivial, fun _ => .ok .nil⟩
  | statements t =>
    have hne : scanBodies (.text false) l ≠ none := Option.isSome_iff_ne_none.1 hscan
    cases t.left hresolved h hne with
    | gone _ hblank =>
      refine ⟨.empty, rfl, trivial, fun line => ?_⟩
      obtain ⟨as, has, hblank⟩ := hblank line
      have haction : (RootTree.statements t).action line = .ok (.fromStatementsArray as) := by
        rw [RootTree.action, has]
        rfl
      rw [haction]
      exact .ok hblank.sameBody
    | kept t' _ hresolved' hsame =>
      refine ⟨.statements t', rfl, hresolved', fun line => ?_⟩
      exact (hsame line).bind fun _ _ h => .ok h.sameBody

/-! ## Templates -/

/-- The new template is accepted, and its tree is the old one but for blanks. -/
structure ChangesOnlyBlanks (text text' : Text) : Prop where
  accepted : Accepts text'
  same : ∀ root : RootTree, root.Derives text → root.Checked → ∃ root' : RootTree,
    root'.Derives text' ∧ root'.Checked ∧ ∀ line a, root.action line = .ok a →
      ∃ a', root'.action line = .ok a' ∧ SameBody a a'

/-- The new template of a tree whose bodies all keep something. -/
theorem RootTree.Derives.trim {root : RootTree} {text : Text} (h : root.Derives text)
    (hchecked : root.Checked) (chosen : Piece LexState Token → Bool)
    (hkeeps : KeepsBodies (trimTokens chosen false (lexer.pieces (lexStart text)))) :
    ∃ root' : RootTree,
      root'.Derives (trimDelimiters chosen (lexer.pieces (lexStart text))) ∧ root'.Checked ∧
        ∀ line a, root.action line = .ok a → ∃ a', root'.action line = .ok a' ∧ SameBody a a' := by
  have hdrops := trimTokens_drops chosen (c := lexStart text) false
  rw [← h.tokens] at hdrops
  obtain ⟨root', htokens, hresolved, hsame⟩ := RootTree.left h.resolved hdrops hkeeps
  refine ⟨root', ⟨hresolved, ?_⟩, fun x line message l herror => ?_, fun line a ha => ?_⟩
  · rw [htokens]
    exact (tokens_trimDelimiters chosen (c := lexStart text) ⟨rfl, id⟩ 1).symm
  · let _ := WrongCast.goesOn x
    have hrun := hsame line
    rw [herror] at hrun
    generalize hold : root.action line = run at hrun
    cases hrun
    exact hchecked x line message l hold
  · have hrun := hsame line
    rw [ha] at hrun
    generalize hnew : root'.action line = run at hrun ⊢
    cases hrun with
    | ok h => exact ⟨_, rfl, h⟩

/-- A set of delimiters of a template that is accepted changes blanks only exactly if every body
keeps something. -/
theorem changesOnlyBlanks_iff {text : Text} (h : Accepts text)
    (chosen : Piece LexState Token → Bool) :
    ChangesOnlyBlanks text (trimDelimiters chosen (lexer.pieces (lexStart text))) ↔
      KeepsBodies (trimTokens chosen false (lexer.pieces (lexStart text))) := by
  constructor
  · rintro ⟨⟨root', hderives, -⟩, -⟩
    have htokens := tokens_trimDelimiters chosen (c := lexStart text) ⟨rfl, id⟩ 1
    exact htokens ▸ hderives.tokens ▸ root'.keepsBodies
  · intro hkeeps
    obtain ⟨root, hderives, hchecked⟩ := h
    obtain ⟨root', hderives', hchecked', -⟩ := hderives.trim hchecked chosen hkeeps
    exact ⟨⟨root', hderives', hchecked'⟩, fun root hderives hchecked =>
      hderives.trim hchecked chosen hkeeps⟩

/-- An if block on `a` with one raw text or more. -/
def ifA (blocks : RawBlocksTree) : RootTree :=
  .statements (.one (.ifBlock (.varRef (.identifier ['a'])) (.one (.rawBlocks blocks)) .empty
    .empty))

theorem ifA_checked (blocks : RawBlocksTree) : (ifA blocks).Checked := by
  intro x line message l h
  cases h

/-- `{%if a%} x{%endif%}` -/
theorem changesOnlyBlanks_word : ChangesOnlyBlanks "\x7b%if a%\x7d x\x7b%endif%\x7d".toList
    "\x7b-%if a%-\x7d x\x7b-%endif%-\x7d".toList := by
  have haccepts : Accepts "\x7b%if a%\x7d x\x7b%endif%\x7d".toList := by
    refine ⟨ifA (.snoc (.one [' ']) ['x']), ⟨⟨trivial, trivial, trivial, trivial⟩, ?_⟩, ifA_checked _⟩
    decide +kernel
  have htrimmed : trimDelimiters (fun _ => true)
      (lexer.pieces (lexStart "\x7b%if a%\x7d x\x7b%endif%\x7d".toList)) =
        "\x7b-%if a%-\x7d x\x7b-%endif%-\x7d".toList := by
    decide +kernel
  rw [← htrimmed]
  exact (changesOnlyBlanks_iff haccepts fun _ => true).2 (by decide +kernel)

/-- `{%if a%} {%endif%}` -/
theorem not_accepts_dropped :
    Accepts "\x7b%if a%\x7d \x7b%endif%\x7d".toList ∧
      trimDelimiters (fun p => p.token = some .blockEnd)
        (lexer.pieces (lexStart "\x7b%if a%\x7d \x7b%endif%\x7d".toList)) =
          "\x7b%if a%-\x7d \x7b%endif%-\x7d".toList ∧
      ¬Accepts "\x7b%if a%-\x7d \x7b%endif%-\x7d".toList := by
  refine ⟨⟨ifA (.one [' ']), ⟨⟨trivial, trivial, trivial, trivial⟩, ?_⟩, ifA_checked _⟩, ?_, ?_⟩
  · decide +kernel
  · decide +kernel
  · rintro ⟨root, hderives, -⟩
    have hkeeps := hderives.tokens ▸ root.keepsBodies
    revert hkeeps
    decide +kernel

end B2
