import B2.Parser.Grammar
import B2.Parser.Lexer

/-!
# The tokens of a derivation

What the productions of `syntax.y` derive: the tokens at the leaves of a tree. The
parser that bison makes reads a template if a tree has the tokens of it, and reports
a syntax error if none has or if an assertion of the actions fails.
-/

namespace B2

/-! ## Tokens -/

def BinaryOperation.token : BinaryOperation → Token
  | .addition => .plus
  | .subtraction => .minus
  | .multiplication => .mul
  | .division => .div
  | .modulus => .mod

def ComparisonOperation.token : ComparisonOperation → Token
  | .equal => .eq
  | .notEqual => .neq
  | .greaterThan => .gt
  | .greaterOrEqual => .ge
  | .lessThan => .lt
  | .lessOrEqual => .le
  | .or => .or
  | .and => .and

def VarRefTree.tokens : VarRefTree → List Token
  | .identifier x => [.identifier x]
  | .getAttribute v a => v.tokens ++ [.attributeSeparator, .identifier a]

mutual

def ExpressionTree.tokens : ExpressionTree → List Token
  | .varRef v => v.tokens
  | .stringLiteral v => [.stringLiteral v]
  | .doubleLiteral v => [.doubleLiteral v]
  | .integerLiteral v => [.integerLiteral v]
  | .booleanLiteral v => [.booleanLiteral v]
  | .minus e => .minus :: e.tokens
  | .plus e => .plus :: e.tokens
  | .binaryOperation l r op => l.tokens ++ op.token :: r.tokens
  | .comparison l r op => l.tokens ++ op.token :: r.tokens
  | .not e => .not :: e.tokens
  | .parentheses e => .openParen :: e.tokens ++ [.closeParen]
  | .methodCall m args => .identifier m :: .openParen :: args.tokens ++ [.closeParen]

def ArgumentsTree.tokens : ArgumentsTree → List Token
  | .one e => e.tokens
  | .snoc other e => other.tokens ++ .comma :: e.tokens

end

def RawBlocksTree.tokens : RawBlocksTree → List Token
  | .one text => [.raw text]
  | .snoc blocks text => blocks.tokens ++ [.raw text]

def MappingTree.tokens : MappingTree → List Token
  | .identifier val => [.identifier val]
  | .assign key val => .identifier key :: .assign :: val.tokens
  | .snocIdentifier mapping val => mapping.tokens ++ [.comma, .identifier val]
  | .snocAssign mapping key val =>
    mapping.tokens ++ .comma :: .identifier key :: .assign :: val.tokens

def IncludeBlockTree.tokens : IncludeBlockTree → List Token
  | .plain name => [.blockStart, .kwInclude, .stringLiteral name, .blockEnd]
  | .usingScope name scope =>
    .blockStart :: .kwInclude :: .stringLiteral name :: .kwUsing :: scope.tokens ++ [.blockEnd]
  | .withMapping name mapping =>
    .blockStart :: .kwInclude :: .stringLiteral name :: .kwWith :: mapping.tokens ++ [.blockEnd]

/-- The variables of a for tag. -/
def targetTokens (key : Option VarRefTree) (value : VarRefTree) : List Token :=
  match key with
  | none => value.tokens
  | some key => key.tokens ++ .comma :: value.tokens

mutual

def StatementTree.tokens : StatementTree → List Token
  | .rawBlocks blocks => blocks.tokens
  | .printBlock e => .variableStart :: e.tokens ++ [.variableEnd]
  | .ifBlock cond then_body elif_blocks else_body =>
    (.blockStart :: .kwIf :: cond.tokens ++ [.blockEnd]) ++ then_body.tokens ++ [.blockStart] ++
      elif_blocks.tokens ++ else_body.tokens ++ [.kwEndif, .blockEnd]
  | .forStatement key value iterable body elseBody =>
    (.blockStart :: .kwFor :: targetTokens key value ++ .kwIn :: iterable.tokens ++ [.blockEnd]) ++
      body.tokens ++ [.blockStart] ++ elseBody.tokens ++ [.kwEndfor, .blockEnd]
  | .includeBlock block => block.tokens

def StatementsTree.tokens : StatementsTree → List Token
  | .one s => s.tokens
  | .snoc l s => l.tokens ++ s.tokens

def ElseifBlocksTree.tokens : ElseifBlocksTree → List Token
  | .empty => []
  | .snoc prev_elif cond body =>
    prev_elif.tokens ++ (.kwElseif :: cond.tokens ++ [.blockEnd]) ++ body.tokens ++ [.blockStart]

def ElseBlockTree.tokens : ElseBlockTree → List Token
  | .empty => []
  | .body body => [.kwElse, .blockEnd] ++ body.tokens ++ [.blockStart]

end

def RootTree.tokens : RootTree → List Token
  | .empty => []
  | .statements l => l.tokens

/-! ## Tokens of expressions -/

/-- The tokens that expressions and mappings consist of. -/
def Token.isInner : Token → Bool
  | .raw _ | .variableStart | .variableEnd | .blockStart | .blockEnd | .kwIf | .kwElseif | .kwElse
  | .kwEndif | .kwFor | .kwEndfor | .kwIn | .kwInclude | .kwWith | .kwUsing => false
  | _ => true

def Inner (l : List Token) : Prop := ∀ t ∈ l, t.isInner = true

section

variable {l l' : List Token} {t : Token}

theorem inner_nil : Inner [] := fun _ h => absurd h List.not_mem_nil

theorem inner_append : Inner (l ++ l') ↔ Inner l ∧ Inner l' := List.forall_mem_append

theorem inner_cons : Inner (t :: l) ↔ t.isInner = true ∧ Inner l := List.forall_mem_cons

end

theorem VarRefTree.inner : ∀ v : VarRefTree, Inner v.tokens
  | .identifier _ => inner_cons.2 ⟨rfl, inner_nil⟩
  | .getAttribute v _ =>
    inner_append.2 ⟨v.inner, inner_cons.2 ⟨rfl, inner_cons.2 ⟨rfl, inner_nil⟩⟩⟩

theorem BinaryOperation.isInner_token (op : BinaryOperation) : op.token.isInner = true := by
  cases op <;> rfl

theorem ComparisonOperation.isInner_token (op : ComparisonOperation) :
    op.token.isInner = true := by
  cases op <;> rfl

mutual

theorem ExpressionTree.inner : ∀ e : ExpressionTree, Inner e.tokens
  | .varRef v => v.inner
  | .stringLiteral _ | .doubleLiteral _ | .integerLiteral _ | .booleanLiteral _ =>
    inner_cons.2 ⟨rfl, inner_nil⟩
  | .minus e | .plus e | .not e => inner_cons.2 ⟨rfl, e.inner⟩
  | .parentheses e =>
    inner_cons.2 ⟨rfl, inner_append.2 ⟨e.inner, inner_cons.2 ⟨rfl, inner_nil⟩⟩⟩
  | .binaryOperation l r op =>
    inner_append.2 ⟨l.inner, inner_cons.2 ⟨op.isInner_token, r.inner⟩⟩
  | .comparison l r op => inner_append.2 ⟨l.inner, inner_cons.2 ⟨op.isInner_token, r.inner⟩⟩
  | .methodCall _ args =>
    inner_cons.2 ⟨rfl, inner_cons.2 ⟨rfl, inner_append.2 ⟨args.inner,
      inner_cons.2 ⟨rfl, inner_nil⟩⟩⟩⟩

theorem ArgumentsTree.inner : ∀ args : ArgumentsTree, Inner args.tokens
  | .one e => e.inner
  | .snoc other e => inner_append.2 ⟨other.inner, inner_cons.2 ⟨rfl, e.inner⟩⟩

end

theorem MappingTree.inner : ∀ mapping : MappingTree, Inner mapping.tokens
  | .identifier _ => inner_cons.2 ⟨rfl, inner_nil⟩
  | .assign _ val => inner_cons.2 ⟨rfl, inner_cons.2 ⟨rfl, val.inner⟩⟩
  | .snocIdentifier mapping _ =>
    inner_append.2 ⟨mapping.inner, inner_cons.2 ⟨rfl, inner_cons.2 ⟨rfl, inner_nil⟩⟩⟩
  | .snocAssign mapping _ val =>
    inner_append.2 ⟨mapping.inner, inner_cons.2 ⟨rfl, inner_cons.2 ⟨rfl,
      inner_cons.2 ⟨rfl, val.inner⟩⟩⟩⟩

theorem inner_targetTokens (key : Option VarRefTree) (value : VarRefTree) :
    Inner (targetTokens key value) := by
  cases key with
  | none => exact value.inner
  | some key => exact inner_append.2 ⟨key.inner, inner_cons.2 ⟨rfl, value.inner⟩⟩

/-! ## Precedence -/

/-- What the conflicts of `expression` are between: the operators, and the productions that end in
an expression, each with the operator that gives it its precedence. -/
inductive Operator where
  | binary (op : BinaryOperation)
  | comparison (op : ComparisonOperation)
  /-- `UMINUS` and `UPLUS` -/
  | sign
  | not

/-- The line of the precedence declarations, from 1. -/
def Operator.precedence : Operator → Nat
  | .comparison .or => 1
  | .comparison .and => 2
  | .comparison .equal | .comparison .notEqual => 3
  | .comparison .greaterThan | .comparison .lessThan | .comparison .greaterOrEqual
  | .comparison .lessOrEqual => 4
  | .binary .addition | .binary .subtraction => 5
  | .binary .multiplication | .binary .division | .binary .modulus => 6
  | .sign => 7
  | .not => 8

/-- `%left`; the comparisons are `%right`. -/
def Operator.isLeft : Operator → Bool
  | .comparison _ => false
  | _ => true

/-- With a production on the stack and an operator to come, the parser reduces. -/
def Operator.Reduces (production lookahead : Operator) : Prop :=
  lookahead.precedence < production.precedence ∨
    (lookahead.precedence = production.precedence ∧ production.isLeft = true)

namespace ExpressionTree

/-- The productions that end where the expression ends. -/
def rightSpine : ExpressionTree → List Operator
  | .binaryOperation _ r op => .binary op :: r.rightSpine
  | .comparison _ r op => .comparison op :: r.rightSpine
  | .minus e | .plus e => .sign :: e.rightSpine
  | .not e => .not :: e.rightSpine
  | _ => []

/-- The operators whose left operands begin where the expression begins. -/
def leftSpine : ExpressionTree → List Operator
  | .binaryOperation l _ op => .binary op :: l.leftSpine
  | .comparison l _ op => .comparison op :: l.leftSpine
  | _ => []

/-- What ends the left operand has been reduced before the operator. -/
def EndsBefore (operator : Operator) (left : ExpressionTree) : Prop :=
  ∀ production ∈ left.rightSpine, production.Reduces operator

/-- What begins in the last operand has been shifted. -/
def GoesOn (production : Operator) (last : ExpressionTree) : Prop :=
  ∀ operator ∈ last.leftSpine, ¬production.Reduces operator

mutual

/-- The tree that the parser builds of its tokens. -/
def Resolved : ExpressionTree → Prop
  | .varRef _ | .stringLiteral _ | .doubleLiteral _ | .integerLiteral _ | .booleanLiteral _ => True
  | .minus e | .plus e => GoesOn .sign e ∧ e.Resolved
  | .not e => GoesOn .not e ∧ e.Resolved
  | .binaryOperation l r op =>
    EndsBefore (.binary op) l ∧ GoesOn (.binary op) r ∧ l.Resolved ∧ r.Resolved
  | .comparison l r op =>
    EndsBefore (.comparison op) l ∧ GoesOn (.comparison op) r ∧ l.Resolved ∧ r.Resolved
  | .parentheses e => e.Resolved
  | .methodCall _ args => ArgumentsResolved args

def ArgumentsResolved : ArgumentsTree → Prop
  | .one e => e.Resolved
  | .snoc other e => ArgumentsResolved other ∧ e.Resolved

end

end ExpressionTree

def MappingTree.Resolved : MappingTree → Prop
  | .identifier _ => True
  | .assign _ val => val.Resolved
  | .snocIdentifier mapping _ => mapping.Resolved
  | .snocAssign mapping _ val => mapping.Resolved ∧ val.Resolved

def IncludeBlockTree.Resolved : IncludeBlockTree → Prop
  | .plain _ => True
  | .usingScope _ scope => scope.Resolved
  | .withMapping _ mapping => mapping.Resolved

def StatementTree.IsRaw : StatementTree → Prop
  | .rawBlocks _ => True
  | _ => False

def StatementsTree.last : StatementsTree → StatementTree
  | .one s | .snoc _ s => s

mutual

def StatementTree.Resolved : StatementTree → Prop
  | .rawBlocks _ => True
  | .printBlock e => e.Resolved
  | .ifBlock cond then_body elif_blocks else_body =>
    cond.Resolved ∧ then_body.Resolved ∧ elif_blocks.Resolved ∧ else_body.Resolved
  | .forStatement _ _ _ body elseBody => body.Resolved ∧ elseBody.Resolved
  | .includeBlock block => block.Resolved

/-- Raw text after raw text is shifted, so it belongs to the same `raw_blocks`. -/
def StatementsTree.Resolved : StatementsTree → Prop
  | .one s => s.Resolved
  | .snoc l s => ¬(l.last.IsRaw ∧ s.IsRaw) ∧ l.Resolved ∧ s.Resolved

def ElseifBlocksTree.Resolved : ElseifBlocksTree → Prop
  | .empty => True
  | .snoc prev_elif cond body => prev_elif.Resolved ∧ cond.Resolved ∧ body.Resolved

def ElseBlockTree.Resolved : ElseBlockTree → Prop
  | .empty => True
  | .body body => body.Resolved

end

def RootTree.Resolved : RootTree → Prop
  | .empty => True
  | .statements l => l.Resolved

/-! ## Templates -/

/-- The tree that the parser builds for a template. -/
structure RootTree.Derives (root : RootTree) (text : Text) : Prop where
  resolved : root.Resolved
  tokens : root.tokens = lexer.tokens (lexStart text)

/-- No assertion of the actions fails, whatever is read of wrong loop variables later. -/
def RootTree.Checked (root : RootTree) : Prop :=
  ∀ x line message l,
    letI := WrongCast.goesOn x
    root.action line ≠ .error (.syntaxError message l)

/-- `Parser::parse` does not raise a `SyntaxError`. -/
def Accepts (text : Text) : Prop := ∃ root : RootTree, root.Derives text ∧ root.Checked

end B2
