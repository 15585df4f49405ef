import B2.Ecma.Statement
import B2.Ast.Ast

/-!
# The JavaScript visitor

The statements `JavascriptVisitor::visit` writes, one `Ecma.Line` a line. An
expression of the template keeps its tree, with its variables as the visitor
writes them: a property of `data` or a loop variable of the generated function
(`JsVar`). Indentation is left out.
-/

namespace B2

open Ecma (Line)

/-- A variable reference as it is written. -/
inductive JsVar where
  /-- `data['x']` -/
  | data (x : Text)
  | identifier (name : Text)

/-- The expressions of the generated statements. -/
inductive JsExpression where
  | value (e : Expr JsVar)
  /-- `e || ''` -/
  | orEmpty (e : Expr JsVar)
  /-- `'...'` -/
  | text (t : Text)
  | boolean (b : Bool)
  | identifier (name : Text)
  /-- `!object.hasOwnProperty(key)` -/
  | notOwn (object key : Text)
  /-- `object[key]` -/
  | element (object key : Text)

namespace JavascriptVisitor

def iterableId (forCounter : Nat) : Text := "iterable_".toList ++ decimal forCounter
def isEmptyId (forCounter : Nat) : Text := "is_empty_".toList ++ decimal forCounter
def keyId (forCounter : Nat) : Text := "key_".toList ++ decimal forCounter
def valueId (forCounter : Nat) : Text := "value_".toList ++ decimal forCounter

/-- The members that change during the walk. -/
structure Members where
  forCounter : Nat
  shadowValues : Text → Option Text

/-- `variable_reference_expression`, on every reference of an expression. -/
def Members.expression (m : Members) (e : Expression) : Expr JsVar :=
  e.map fun x =>
    match m.shadowValues x with
    | some shadowValue => .identifier shadowValue
    | none => .data x

/-- The cached old value of a shadow variable, empty if there is none. -/
def oldShadow (shadowValues : Text → Option Text) (x : Option Text) : Text :=
  (shadowValues (x.getD [])).getD []

def setShadow (x : Option Text) (id : Text) (shadowValues : Text → Option Text) :
    Text → Option Text :=
  match x with
  | some x => Function.update shadowValues x (some id)
  | none => shadowValues

def restoreShadow (x : Option Text) (old : Text) (shadowValues : Text → Option Text) :
    Text → Option Text :=
  match x with
  | some x =>
    if old ≠ [] then Function.update shadowValues x (some old)
    else Function.update shadowValues x none
  | none => shadowValues

def isIfBlock : AST → Bool
  | .ifBlock .. => true
  | _ => false

/-- Where a flag is set, some lines. -/
def linesIf (flag : Bool) (lines : List (Line JsExpression)) : List (Line JsExpression) :=
  if flag then lines else []

/-- The lines of `for_block` before its loop. -/
def forHeader (n : Nat) (iterable : Expr JsVar) (has_else_body : Bool) :
    List (Line JsExpression) :=
  [.blank, .declare (iterableId n) (.value iterable)] ++
    linesIf has_else_body [.declare (isEmptyId n) (.boolean true)]

/-- The loop of `for_block` around the lines of its body. -/
def forLoop (n : Nat) (has_value_variable has_else_body : Bool)
    (body : List (Line JsExpression)) : List (Line JsExpression) :=
  .openFor (keyId n) (iterableId n) :: ([.continueIf (.notOwn (iterableId n) (keyId n))] ++
    linesIf has_value_variable [.declare (valueId n) (.element (iterableId n) (keyId n))] ++
    [.blank] ++ body ++ linesIf has_else_body [.assign (isEmptyId n) (.boolean false)]) ++
    [.close, .blank]

/-- The lines of `for_block` around its else body. -/
def forElse (n : Nat) (body : List (Line JsExpression)) : List (Line JsExpression) :=
  .openIf (.identifier (isEmptyId n)) :: body ++ [.close, .blank]

mutual

/-- The lines of a node and the members after it. `is_elseif` is a parameter of `if_block`. -/
def node (undefinedCheck is_elseif : Bool) (m : Members) :
    AST → Run (List (Line JsExpression) × Members)
  | .statements l => nodes undefinedCheck m l
  | .rawBlock t => .ok ([.append (.text t)], m)
  | .printBlock e =>
    .ok ([.append (if undefinedCheck then .orEmpty (m.expression e)
      else .value (m.expression e))], m)
  | .ifBlock c t e => do
    let head := if is_elseif then [.elseIf (.value (m.expression c))]
      else [.blank, .openIf (.value (m.expression c))]
    let (then_lines, m) ← node undefinedCheck false m t
    match e with
    | none => return (head ++ then_lines ++ [.close, .blank], m)
    | some e =>
      if isIfBlock e then
        let (else_lines, m) ← node undefinedCheck true m e
        return (head ++ then_lines ++ else_lines, m)
      else
        let (else_lines, m) ← node undefinedCheck false m e
        return (head ++ then_lines ++ (.openElse :: else_lines ++ [.close, .blank]), m)
  | .forBlock k v i b e => do
    let n := m.forCounter + 1
    let m : Members := { m with forCounter := n }
    let header := forHeader n (m.expression i) e.isSome
    let oldKey := oldShadow m.shadowValues k
    let oldValue := oldShadow m.shadowValues v
    let shadowValues := setShadow v (valueId n) (setShadow k (keyId n) m.shadowValues)
    let (body_lines, m) ← node undefinedCheck false { m with shadowValues := shadowValues } b
    let shadowValues := restoreShadow v oldValue (restoreShadow k oldKey m.shadowValues)
    let m := { m with shadowValues := shadowValues }
    let loop := forLoop n v.isSome e.isSome body_lines
    match e with
    | none => return (header ++ loop, m)
    | some e => do
      let (else_lines, m) ← node undefinedCheck false m e
      return (header ++ loop ++ forElse n else_lines, m)
  | .includeBlock .. => .error (.runtimeError "Unsupported".toList)

def nodes (undefinedCheck : Bool) (m : Members) :
    List AST → Run (List (Line JsExpression) × Members)
  | [] => .ok ([], m)
  | s :: l => do
    let (lines, m) ← node undefinedCheck false m s
    let (rest, m) ← nodes undefinedCheck m l
    return (lines ++ rest, m)

end

/-- The lines of the generated function. -/
inductive FunctionLine where
  /-- `function(helpers, data) {` -/
  | openFunction
  /-- `data = data || {};` -/
  | defaultData
  /-- `var buffer = '';` -/
  | declareBuffer
  | statement (l : Line JsExpression)
  /-- `return buffer;` -/
  | returnBuffer
  | closeFunction

def printHeader : List FunctionLine :=
  [.openFunction, .defaultData, .declareBuffer, .statement .blank]

def printFooter : List FunctionLine := [.statement .blank, .returnBuffer, .closeFunction]

def visit (undefinedCheck : Bool) (ast : AST) : Run (List FunctionLine) := do
  let (lines, _) ← node undefinedCheck false ⟨0, fun _ => none⟩ ast
  return printHeader ++ lines.map .statement ++ printFooter

end JavascriptVisitor

end B2
