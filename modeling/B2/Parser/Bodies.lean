import B2.Parser.Derivation

/-!
# Bodies

Between an if, elseif, else or for tag and the tag that ends its body the grammar wants
statements. The tokens of a template that is accepted have no such tag directly followed
by an elseif, else, endif or endfor tag (`RootTree.scan_tokens`).
-/

namespace B2

/-- Where the tokens of a template have come to. -/
inductive Place where
  /-- outside tags; `opened` directly after a tag that a body follows -/
  | text (opened : Bool)
  /-- after the sign that starts a block tag -/
  | start (opened : Bool)
  /-- in a tag; `opens` if a body follows it -/
  | tag (opens : Bool)
  deriving DecidableEq

/-- One token. There is no place after a tag that ends a body before anything is in it. -/
def scanBody : Place → Token → Option Place
  | .text opened, .blockStart => some (.start opened)
  | .text _, .variableStart => some (.tag false)
  | .text _, _ => some (.text false)
  | .start _, .kwIf | .start _, .kwFor => some (.tag true)
  | .start opened, .kwElseif | .start opened, .kwElse => if opened then none else some (.tag true)
  | .start opened, .kwEndif | .start opened, .kwEndfor =>
    if opened then none else some (.tag false)
  | .start _, _ => some (.tag false)
  | .tag opens, .blockEnd => some (.text opens)
  | .tag _, .variableEnd => some (.text false)
  | .tag opens, _ => some (.tag opens)

def scanBodies (place : Place) (l : List Token) : Option Place := l.foldlM scanBody place

/-- No if, elseif, else or for tag is directly followed by an elseif, else, endif or endfor tag. -/
def KeepsBodies (l : List Token) : Prop := (scanBodies (.text false) l).isSome = true

instance (l : List Token) : Decidable (KeepsBodies l) := inferInstanceAs (Decidable (_ = _))

section

variable {place place' : Place} {l l' : List Token}

theorem scanBodies_cons {t : Token} :
    scanBodies place (t :: l) = (scanBody place t).bind (scanBodies · l) := List.foldlM_cons ..

theorem scanBodies_append :
    scanBodies place (l ++ l') = (scanBodies place l).bind (scanBodies · l') :=
  List.foldlM_append ..

theorem scanBodies_of_append (h : scanBodies place l = some place') :
    scanBodies place (l ++ l') = scanBodies place' l' := by
  rw [scanBodies_append, h]
  rfl

theorem scanBodies_trans {place'' : Place} (h : scanBodies place l = some place')
    (h' : scanBodies place' l' = some place'') : scanBodies place (l ++ l') = some place'' :=
  (scanBodies_of_append h).trans h'

/-- What stands in a tag does not end it. -/
theorem Inner.scan (h : Inner l) (opens : Bool) :
    scanBodies (.tag opens) l = some (.tag opens) := by
  induction l with
  | nil => rfl
  | cons t l ih =>
    obtain ⟨ht, hl⟩ := inner_cons.1 h
    have hstep : scanBody (.tag opens) t = some (.tag opens) := by
      cases t <;> first | rfl | cases ht
    rw [scanBodies_cons, hstep]
    exact ih hl

/-- Tokens in a tag, and its end. -/
theorem Inner.scan_end (h : Inner l) (opens : Bool) :
    scanBodies (.tag opens) (l ++ .blockEnd :: l') = scanBodies (.text opens) l' := by
  rw [scanBodies_of_append (h.scan opens)]
  rfl

end

/-! ## Derivations -/

theorem RawBlocksTree.scan_tokens (opened : Bool) : ∀ blocks : RawBlocksTree,
    scanBodies (.text opened) blocks.tokens = some (.text false)
  | .one _ => rfl
  | .snoc blocks _ => by
    rw [tokens, scanBodies_of_append (blocks.scan_tokens opened)]
    rfl

theorem IncludeBlockTree.scan_tokens (opened : Bool) (block : IncludeBlockTree) :
    scanBodies (.text opened) block.tokens = some (.text false) := by
  cases block with
  | plain name => rfl
  | usingScope name scope =>
    have hscope := scope.inner.scan false
    show scanBodies (.tag false) (scope.tokens ++ [.blockEnd]) = _
    rw [scanBodies_of_append hscope]
    rfl
  | withMapping name mapping =>
    have hmapping := mapping.inner.scan false
    show scanBodies (.tag false) (mapping.tokens ++ [.blockEnd]) = _
    rw [scanBodies_of_append hmapping]
    rfl

/-- The if tag of an if block. -/
theorem scan_ifTag (opened : Bool) (cond : ExpressionTree) :
    scanBodies (.text opened) (.blockStart :: .kwIf :: cond.tokens ++ [.blockEnd]) =
      some (.text true) := by
  show scanBodies (.tag true) (cond.tokens ++ [.blockEnd]) = _
  rw [cond.inner.scan_end true]
  rfl

theorem scan_elseifTag (cond : ExpressionTree) :
    scanBodies (.start false) (.kwElseif :: cond.tokens ++ [.blockEnd]) = some (.text true) := by
  show scanBodies (.tag true) (cond.tokens ++ [.blockEnd]) = _
  rw [cond.inner.scan_end true]
  rfl

/-- The for tag of a for statement. -/
theorem scan_forTag (opened : Bool) (key : Option VarRefTree) (value iterable : VarRefTree) :
    scanBodies (.text opened) (.blockStart :: .kwFor :: targetTokens key value ++
      .kwIn :: iterable.tokens ++ [.blockEnd]) = some (.text true) := by
  show scanBodies (.tag true) (targetTokens key value ++ .kwIn :: iterable.tokens ++ [.blockEnd]) = _
  rw [List.append_assoc, scanBodies_of_append ((inner_targetTokens key value).scan true)]
  show scanBodies (.tag true) (iterable.tokens ++ [.blockEnd]) = _
  rw [iterable.inner.scan_end true]
  rfl

mutual

theorem StatementTree.scan_tokens (opened : Bool) : ∀ s : StatementTree,
    scanBodies (.text opened) s.tokens = some (.text false)
  | .rawBlocks blocks => blocks.scan_tokens opened
  | .printBlock e => by
    have he := e.inner.scan false
    show scanBodies (.tag false) (e.tokens ++ [.variableEnd]) = _
    rw [scanBodies_of_append he]
    rfl
  | .includeBlock block => block.scan_tokens opened
  | .ifBlock cond then_body elif_blocks else_body => by
    have hthen := scanBodies_trans (scan_ifTag opened cond) (then_body.scan_tokens true)
    have hstart : scanBodies (.text false) [.blockStart] = some (.start false) := rfl
    have helse := scanBodies_trans (scanBodies_trans (scanBodies_trans hthen hstart)
      elif_blocks.scan_tokens) else_body.scan_tokens
    exact scanBodies_trans helse rfl
  | .forStatement key value iterable body elseBody => by
    have hbody := scanBodies_trans (scan_forTag opened key value iterable) (body.scan_tokens true)
    have hstart : scanBodies (.text false) [.blockStart] = some (.start false) := rfl
    have helse := scanBodies_trans (scanBodies_trans hbody hstart) elseBody.scan_tokens
    exact scanBodies_trans helse rfl

theorem StatementsTree.scan_tokens (opened : Bool) : ∀ l : StatementsTree,
    scanBodies (.text opened) l.tokens = some (.text false)
  | .one s => s.scan_tokens opened
  | .snoc l s => by
    rw [StatementsTree.tokens, scanBodies_of_append (l.scan_tokens opened)]
    exact s.scan_tokens false

theorem ElseifBlocksTree.scan_tokens : ∀ t : ElseifBlocksTree,
    scanBodies (.start false) t.tokens = some (.start false)
  | .empty => rfl
  | .snoc prev_elif cond body => by
    have htag := scanBodies_trans prev_elif.scan_tokens (scan_elseifTag cond)
    exact scanBodies_trans (scanBodies_trans htag (body.scan_tokens true)) rfl

theorem ElseBlockTree.scan_tokens : ∀ t : ElseBlockTree,
    scanBodies (.start false) t.tokens = some (.start false)
  | .empty => rfl
  | .body body => by
    have htag : scanBodies (.start false) [.kwElse, .blockEnd] = some (.text true) := rfl
    exact scanBodies_trans (scanBodies_trans htag (body.scan_tokens true)) rfl

end

theorem RootTree.scan_tokens (root : RootTree) :
    scanBodies (.text false) root.tokens = some (.text false) := by
  cases root with
  | empty => rfl
  | statements l => exact l.scan_tokens false

theorem RootTree.keepsBodies (root : RootTree) : KeepsBodies root.tokens := by
  rw [KeepsBodies, root.scan_tokens]
  rfl

end B2
