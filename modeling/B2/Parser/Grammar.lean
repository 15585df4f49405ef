import B2.Ast.Ast

/-!
# Grammar

The productions of `syntax.y` as derivation trees, a type for every nonterminal
and a constructor for every production (the operators of `expression` share
theirs), and the semantic actions as functions on them. A left-recursive list
is a list built at its end, as the actions build it.

An assertion of an action that fails is reported at the line the scanner has
reached, and the parse ends there; the actions take this line as `line`.
-/

namespace B2

/-! ## Derivations -/

/-- `var_ref_expression`. -/
inductive VarRefTree where
  | identifier (name : Text)
  | getAttribute (base : VarRefTree) (attributeName : Text)

mutual

/-- `expression`. -/
inductive ExpressionTree where
  | varRef (v : VarRefTree)
  | stringLiteral (value : Text)
  | doubleLiteral (value : Double)
  | integerLiteral (value : Int64)
  | booleanLiteral (value : Bool)
  | minus (e : ExpressionTree)
  | plus (e : ExpressionTree)
  | binaryOperation (left right : ExpressionTree) (op : BinaryOperation)
  | comparison (left right : ExpressionTree) (op : ComparisonOperation)
  | not (e : ExpressionTree)
  | parentheses (e : ExpressionTree)
  | methodCall (method : Text) (args : ArgumentsTree)

/-- `arguments`. -/
inductive ArgumentsTree where
  | one (e : ExpressionTree)
  | snoc (other : ArgumentsTree) (e : ExpressionTree)

end

/-- `raw_blocks`. -/
inductive RawBlocksTree where
  | one (text : Text)
  | snoc (blocks : RawBlocksTree) (text : Text)

/-- `include_variable_mapping`. -/
inductive MappingTree where
  | identifier (val : Text)
  | assign (key : Text) (val : ExpressionTree)
  | snocIdentifier (mapping : MappingTree) (val : Text)
  | snocAssign (mapping : MappingTree) (key : Text) (val : ExpressionTree)

/-- `include_block`. -/
inductive IncludeBlockTree where
  | plain (templateName : Text)
  | usingScope (templateName : Text) (scope : ExpressionTree)
  | withMapping (templateName : Text) (varMapping : MappingTree)

mutual

/-- `statement`, with the productions of the blocks it stands for. -/
inductive StatementTree where
  | rawBlocks (blocks : RawBlocksTree)
  | printBlock (e : ExpressionTree)
  | ifBlock (cond : ExpressionTree) (then_body : StatementsTree) (elif_blocks : ElseifBlocksTree)
      (else_body : ElseBlockTree)
  | forStatement (key : Option VarRefTree) (value iterable : VarRefTree) (body : StatementsTree)
      (elseBody : ElseBlockTree)
  | includeBlock (block : IncludeBlockTree)

/-- `statements`. -/
inductive StatementsTree where
  | one (s : StatementTree)
  | snoc (l : StatementsTree) (s : StatementTree)

/-- `elseif_blocks`. -/
inductive ElseifBlocksTree where
  | empty
  | snoc (prev_elif : ElseifBlocksTree) (cond : ExpressionTree) (body : StatementsTree)

/-- `else_block`, and `elsefor_statement`, which has the same productions. -/
inductive ElseBlockTree where
  | empty
  | body (body : StatementsTree)

end

/-- `root`. -/
inductive RootTree where
  | empty
  | statements (l : StatementsTree)

/-! ## Assertions -/

def isVariant (e : Expression) : Bool := e.valueType == .variant

def isNumeric (e : Expression) : Bool :=
  let type := e.valueType
  type == .integer || type == .double

def isBoolean (e : Expression) : Bool := e.valueType == .boolean

section

variable (line : Nat)

/-- `ASSERT_THAT`: the error is reported and `YYERROR` ends the parse. -/
def assertThat (cond : Bool) (msg : Text) : Run Unit :=
  if cond then .ok () else .error (.syntaxError msg line)

def assertNumeric (e : Expression) : Run Unit :=
  assertThat line (isNumeric e || isVariant e) "numeric expression expected".toList

def assertBoolean (e : Expression) : Run Unit :=
  assertThat line (isBoolean e || isVariant e) "boolean expression expected".toList

def assertMap (e : Expression) : Run Unit :=
  assertThat line (isVariant e) "map expression expected".toList

/-! ## Actions -/

def VarRefTree.action : VarRefTree → Expression
  | .identifier x => .variableReference x
  | .getAttribute v a => .getAttribute v.action a

/-- The assertion a comparison makes of each of its operands. -/
def assertOperand (op : ComparisonOperation) : Expression → Run Unit :=
  match op with
  | .equal | .notEqual => fun _ => .ok ()
  | .greaterThan | .greaterOrEqual | .lessThan | .lessOrEqual => assertNumeric line
  | .or | .and => assertBoolean line

mutual

def ExpressionTree.action : ExpressionTree → Run Expression
  | .varRef v => .ok v.action
  | .stringLiteral v => .ok (.stringLiteral v)
  | .doubleLiteral v => .ok (.doubleLiteral v)
  | .integerLiteral v => .ok (.integerLiteral v)
  | .booleanLiteral v => .ok (.booleanLiteral v)
  | .minus t => do
    let e ← t.action
    assertNumeric line e
    return .unaryOperation e .numericNegative
  | .plus t => do
    let e ← t.action
    assertNumeric line e
    return .unaryOperation e .numericPositive
  | .binaryOperation l r op => do
    let left ← l.action
    let right ← r.action
    assertNumeric line left
    assertNumeric line right
    return .binaryOperation left right op
  | .comparison l r op => do
    let left ← l.action
    let right ← r.action
    assertOperand line op left
    assertOperand line op right
    return .comparison left right op
  | .not t => do
    let e ← t.action
    assertBoolean line e
    return .unaryOperation e .booleanNegation
  | .parentheses t => t.action
  | .methodCall m args => do return .methodCall m ((← args.action).map some)

def ArgumentsTree.action : ArgumentsTree → Run (List Expression)
  | .one t => do return [← t.action]
  | .snoc other t => do
    let args ← other.action
    let e ← t.action
    return args ++ [e]

end

def RawBlocksTree.action : RawBlocksTree → List AST
  | .one text => [.rawBlock text]
  | .snoc blocks text => blocks.action ++ [.rawBlock text]

def MappingTree.action : MappingTree → Run StringExpressionMap
  | .identifier x => .ok (StringExpressionMap.empty.insert x (.variableReference x))
  | .assign x t => do return StringExpressionMap.empty.insert x (← t.action line)
  | .snocIdentifier mapping x => do return (← mapping.action).insert x (.variableReference x)
  | .snocAssign mapping x t => do
    let M ← mapping.action
    let e ← t.action line
    return M.insert x e

def IncludeBlockTree.action : IncludeBlockTree → Run AST
  | .plain name => .ok (.includeBlock name none .empty)
  | .usingScope name t => do
    let scope ← t.action line
    assertMap line scope
    return .includeBlock name (some scope) .empty
  | .withMapping name mapping => do return .includeBlock name none (← mapping.action line)

/-- What the visitors read through a pointer of `VariableReferenceExpression` to another node. -/
class WrongCast where
  result : Run Text

/-- The behaviour is undefined: there is no tree. -/
instance WrongCast.stops : WrongCast := ⟨.error (.undefined .wrongCast)⟩

/-- The parser itself does not read the node and goes on; `x` is what is read later. -/
abbrev WrongCast.goesOn (x : Text) : WrongCast := ⟨.ok x⟩

variable [WrongCast]

/-- `static_cast<VariableReferenceExpression*>` on a loop variable, which the visitors read. -/
def loopVariable : VarRefTree → Run Text
  | .identifier x => .ok x
  | .getAttribute .. => WrongCast.result

/-- `static_cast<IfBlockAST*>(node)->elseBody.reset(body)`. -/
def resetElseBody (body : Option AST) : AST → Run AST
  | .ifBlock c t _ => .ok (.ifBlock c t body)
  | _ => .error (.undefined .wrongCast)

/-- The `while` loop of `if_block` and the assignment after it: the first node
without an `elseBody` gets `body`. -/
def resetLastElseBody (body : Option AST) : AST → Run AST
  | .ifBlock c t none => .ok (.ifBlock c t body)
  | .ifBlock c t (some elif_block) => do
    return .ifBlock c t (some (← resetLastElseBody body elif_block))
  | _ => .error (.undefined .wrongCast)

/-- The action of `elseif_blocks`. -/
def elseifBlocksAction (prev_elif : Option AST) (elif : AST) : Run AST :=
  match prev_elif with
  | some prev_elif => resetElseBody (some elif) prev_elif
  | none => .ok elif

/-- The action of `if_block`. -/
def ifBlockAction (cond : Expression) (then_body : AST) (elif_blocks else_body : Option AST) :
    Run AST :=
  match elif_blocks with
  | some elif_blocks => do
    return .ifBlock cond then_body (some (← resetLastElseBody else_body elif_blocks))
  | none => .ok (.ifBlock cond then_body else_body)

mutual

def StatementTree.action : StatementTree → Run AST
  | .rawBlocks blocks => .ok (.fromStatementsArray blocks.action)
  | .printBlock t => do return .printBlock (← t.action line)
  | .ifBlock cond then_body elif_blocks else_body => do
    let c ← cond.action line
    let t ← then_body.action
    let elifs ← elif_blocks.action
    let e ← else_body.action
    ifBlockAction c (.fromStatementsArray t) elifs e
  | .forStatement key value iterable body elseBody => do
    let b ← body.action
    let e ← elseBody.action
    let k ← key.mapM loopVariable
    let v ← loopVariable value
    -- the cast of the iterable is undone by the constructor's parameter type
    return .forBlock k (some v) iterable.action (.fromStatementsArray b) e
  | .includeBlock block => block.action line

def StatementsTree.action : StatementsTree → Run (List AST)
  | .one s => do return (← s.action).asStatements
  | .snoc l s => do
    let statements ← l.action
    let statement ← s.action
    return statements ++ statement.asStatements

def ElseifBlocksTree.action : ElseifBlocksTree → Run (Option AST)
  | .empty => .ok none
  | .snoc prev_elif cond body => do
    let prev ← prev_elif.action
    let c ← cond.action line
    let b ← body.action
    return some (← elseifBlocksAction prev (.ifBlock c (.fromStatementsArray b) none))

def ElseBlockTree.action : ElseBlockTree → Run (Option AST)
  | .empty => .ok none
  | .body body => do return some (.fromStatementsArray (← body.action))

end

def RootTree.action : RootTree → Run AST
  | .empty => .ok (.statements [])
  | .statements l => do return .fromStatementsArray (← l.action line)

end

end B2
