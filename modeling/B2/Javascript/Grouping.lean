import B2.Ecma.Expression
import B2.Javascript.Visitor
import B2.Parser.Grammar
import B2.Parser.Lexer

/-!
# Grouping

The text that the expression methods of `JavascriptVisitor` write, read with the
tokens and the precedences of ECMAScript. The visitor writes no parentheses, and
`%right` operators of the template are left-associative in the target, so a tree
is read back exactly if the template needed no parentheses for the target's
grouping and no sign joins another (`Expr.Grouped`). Every operator is taken to
be written with its own symbol.
-/

namespace B2

open Ecma (Piece Parses munch munch_alone)

/-! ## Writing -/

/-- The words of written expressions. -/
inductive JsWord where
  /-- `data` -/
  | data
  /-- `helpers` -/
  | helpers
  | identifier (name : Text)
  /-- a name in quotes -/
  | key (name : Text)
  /-- a numeral, or the one name `inf` for an infinite value -/
  | double (value : Double)
  | integer (value : Int64)
  | boolean (value : Bool)
  | string (value : Text)

def BinaryOperation.symbol : BinaryOperation → Text
  | .addition => ['+']
  | .subtraction => ['-']
  | .multiplication => ['*']
  | .division => ['/']
  | .modulus => ['%']

def UnaryOperation.symbol : UnaryOperation → Text
  | .numericPositive => ['+']
  | .numericNegative => ['-']
  | .booleanNegation => ['!']

def ComparisonOperation.symbol : ComparisonOperation → Text
  | .equal => ['=', '=']
  | .notEqual => ['!', '=']
  | .greaterThan => ['>']
  | .greaterOrEqual => ['>', '=']
  | .lessThan => ['<']
  | .lessOrEqual => ['<', '=']
  | .or => ['|', '|']
  | .and => ['&', '&']

/-- Characters that are no words. -/
def pieces (t : Text) : List (Piece JsWord) := t.map .char

/-- A name in brackets. -/
def bracketed (name : Text) : List (Piece JsWord) := [.char '[', .word (.key name), .char ']']

/-- `std::to_string` of a number; a sign is a character of its own. -/
def writtenNumber (text : Text) (w : JsWord) : List (Piece JsWord) :=
  if text.head? = some '-' then [.char '-', .word w] else [.word w]

namespace Expr

mutual

/-- What `JavascriptVisitor::expression` returns. -/
def written : Expr JsVar → List (Piece JsWord)
  | .variableReference (.data x) => .word .data :: bracketed x
  | .variableReference (.identifier name) => [.word (.identifier name)]
  | .getAttribute v a => v.written ++ bracketed a
  | .methodCall m args =>
    .word .helpers :: bracketed m ++ pieces ['('] ++ writtenArguments true args ++ pieces [')']
  | .doubleLiteral v => writtenNumber v.toText (.double v)
  | .integerLiteral v => writtenNumber (decimalInt v.toInt) (.integer v)
  | .booleanLiteral v => [.word (.boolean v)]
  | .stringLiteral v => [.word (.string v)]
  | .binaryOperation l r op => l.written ++ pieces (' ' :: op.symbol ++ [' ']) ++ r.written
  | .unaryOperation e op => pieces op.symbol ++ e.written
  | .comparison l r op => l.written ++ pieces (' ' :: op.symbol ++ [' ']) ++ r.written

def writtenArguments : Bool → List (Option (Expr JsVar)) → List (Piece JsWord)
  | _, [] => []
  | first, none :: args => (if first then [] else pieces [',', ' ']) ++ writtenArguments false args
  | first, some e :: args =>
    (if first then [] else pieces [',', ' ']) ++ e.written ++ writtenArguments false args

end

mutual

/-- The tree of an expression in the target language. -/
def tree : Expr JsVar → Ecma.Tree JsWord
  | .variableReference (.data x) => .element (.word .data) (.word (.key x))
  | .variableReference (.identifier name) => .word (.identifier name)
  | .getAttribute v a => .element v.tree (.word (.key a))
  | .methodCall m args => .call (.element (.word .helpers) (.word (.key m))) (treeArguments args)
  | .doubleLiteral v => .word (.double v)
  | .integerLiteral v => .word (.integer v)
  | .booleanLiteral v => .word (.boolean v)
  | .stringLiteral v => .word (.string v)
  | .binaryOperation l r op => .binary op.symbol l.tree r.tree
  | .unaryOperation e op => .unary op.symbol e.tree
  | .comparison l r op => .binary op.symbol l.tree r.tree

def treeArguments : List (Option (Expr JsVar)) → List (Ecma.Tree JsWord)
  | [] => []
  | none :: args => treeArguments args
  | some e :: args => e.tree :: treeArguments args

end

/-- Read as an expression, what is written for `e` is the tree of `e` and nothing else. -/
def ReadsBack (e : Expr JsVar) : Prop :=
  ∀ t, Parses (.expression 1) (munch [] e.written) t [] ↔ t = e.tree

/-! ## Expressions of the parser -/

section

variable {ν : Type}

/-- A variable and attributes of it. -/
def IsPath : Expr ν → Prop
  | .variableReference _ => True
  | .getAttribute v _ => v.IsPath
  | _ => False

mutual

/-- What holds of the expressions that the parser makes: attributes belong to paths, no argument is
null, and literals have no sign. -/
def Parsed : Expr ν → Prop
  | .getAttribute v _ => v.IsPath
  | .methodCall _ args => ParsedArguments args
  | .doubleLiteral v => v.toText.head? ≠ some '-'
  | .integerLiteral v => (decimalInt v.toInt).head? ≠ some '-'
  | .binaryOperation l r _ | .comparison l r _ => l.Parsed ∧ r.Parsed
  | .unaryOperation e _ => e.Parsed
  | .variableReference _ | .booleanLiteral _ | .stringLiteral _ => True

def ParsedArguments : List (Option (Expr ν)) → Prop
  | [] => True
  | none :: _ => False
  | some e :: args => e.Parsed ∧ ParsedArguments args

end

/-- The precedence of the outermost operator in ECMAScript. -/
def precedence : Expr ν → Nat
  | .binaryOperation _ _ op => (Ecma.binaryLevel op.symbol).getD 0
  | .comparison _ _ op => (Ecma.binaryLevel op.symbol).getD 0
  | .unaryOperation .. => Ecma.unaryLevel
  | _ => Ecma.operandLevel

mutual

/-- The operands of every operator bind tightly enough, and no sign has the same sign before it. -/
def Grouped : Expr ν → Prop
  | .getAttribute v _ => v.Grouped
  | .methodCall _ args => GroupedArguments args
  | .binaryOperation l r op => l.Grouped ∧ r.Grouped ∧
    (Ecma.binaryLevel op.symbol).getD 0 ≤ l.precedence ∧
    (Ecma.binaryLevel op.symbol).getD 0 < r.precedence
  | .comparison l r op => l.Grouped ∧ r.Grouped ∧
    (Ecma.binaryLevel op.symbol).getD 0 ≤ l.precedence ∧
    (Ecma.binaryLevel op.symbol).getD 0 < r.precedence
  | .unaryOperation e op => e.Grouped ∧ Ecma.unaryLevel ≤ e.precedence ∧
    (op ≠ .booleanNegation → ∀ e', e ≠ .unaryOperation e' op)
  | _ => True

def GroupedArguments : List (Option (Expr ν)) → Prop
  | [] => True
  | none :: args => GroupedArguments args
  | some e :: args => e.Grouped ∧ GroupedArguments args

end

end

/-! ## Signs -/

section

variable {ν : Type}

/-- The unary operator that the text of an expression begins with. -/
def firstOperator : Expr ν → Option UnaryOperation
  | .unaryOperation _ op => some op
  | .binaryOperation l _ _ | .comparison l _ _ => l.firstOperator
  | _ => none

/-- The operator before an expression and the one it begins with are not the same sign. -/
def Apart (before : Option UnaryOperation) (e : Expr ν) : Prop :=
  ∀ op, before = some op → op ≠ .booleanNegation → e.firstOperator ≠ some op

mutual

/-- No sign has the same sign before it. -/
def SignsApart : Expr ν → Prop
  | .methodCall _ args => SignsApartArguments args
  | .binaryOperation l r _ | .comparison l r _ => l.SignsApart ∧ r.SignsApart
  | .unaryOperation e op => e.SignsApart ∧ Apart (some op) e
  | _ => True

def SignsApartArguments : List (Option (Expr ν)) → Prop
  | [] => True
  | none :: args => SignsApartArguments args
  | some e :: args => e.SignsApart ∧ SignsApartArguments args

end

end

section

variable {ps : List (Piece JsWord)}

theorem munch_bracketed {name : Text} : munch [] (bracketed name ++ ps) =
    .punctuator ['['] :: .word (.key name) :: .punctuator [']'] :: munch [] ps := by
  have hclose : munch [']'] ps = .punctuator [']'] :: munch [] ps :=
    munch_alone (List.cons_ne_nil _ _) (by decide)
  rw [← hclose]
  rfl

theorem munch_open : munch [] (pieces ['('] ++ ps) = .punctuator ['('] :: munch [] ps :=
  munch_alone (List.cons_ne_nil _ _) (by decide)

theorem munch_close : munch [] (pieces [')'] ++ ps) = .punctuator [')'] :: munch [] ps :=
  munch_alone (List.cons_ne_nil _ _) (by decide)

theorem munch_separator : munch [] (pieces [',', ' '] ++ ps) = .punctuator [','] :: munch [] ps :=
  rfl

theorem munch_binary {op : BinaryOperation} :
    munch [] (pieces (' ' :: op.symbol ++ [' ']) ++ ps) = .punctuator op.symbol :: munch [] ps := by
  cases op <;> rfl

theorem munch_comparison {op : ComparisonOperation} :
    munch [] (pieces (' ' :: op.symbol ++ [' ']) ++ ps) = .punctuator op.symbol :: munch [] ps := by
  cases op <;> rfl

/-- The unary operator that is being read. -/
def pending (before : Option UnaryOperation) : Text :=
  match before with
  | some op => op.symbol
  | none => []

/-- The same sign twice is another operator. -/
theorem updates_joined {op : UnaryOperation} (hop : op ≠ .booleanNegation) :
    0 < Ecma.updates (munch op.symbol (pieces op.symbol ++ ps)) := by
  cases op with
  | booleanNegation => exact absurd rfl hop
  | numericPositive =>
    have hmunch : munch ['+', '+'] ps = .punctuator ['+', '+'] :: munch [] ps :=
      munch_alone (List.cons_ne_nil _ _) (by decide)
    show 0 < Ecma.updates (munch ['+', '+'] ps)
    rw [hmunch]
    exact Nat.lt_add_right _ Nat.one_pos
  | numericNegative =>
    have hmunch : munch ['-', '-'] ps = .punctuator ['-', '-'] :: munch [] ps :=
      munch_alone (List.cons_ne_nil _ _) (by decide)
    show 0 < Ecma.updates (munch ['-', '-'] ps)
    rw [hmunch]
    exact Nat.lt_add_right _ Nat.one_pos

/-- Other operators stay apart. -/
theorem munch_unary {before : Option UnaryOperation} {op : UnaryOperation}
    (h : before = some op → op = .booleanNegation) :
    munch (pending before) (pieces op.symbol ++ ps) =
      Ecma.flush (pending before) ++ munch op.symbol ps := by
  cases before with
  | none => cases op <;> rfl
  | some op' => cases op' <;> cases op <;> first | rfl | cases h rfl

theorem flush_pending {op : UnaryOperation} :
    (Ecma.flush op.symbol : List (Ecma.Token JsWord)) = [.punctuator op.symbol] := by
  cases op <;> rfl

/-! ## Tokens -/

/-- The tokens after the operator `before` are those of the tree if the signs are apart. Otherwise
there is another operator among them. -/
structure Munches (before : Option UnaryOperation) (e : Expr JsVar) : Prop where
  tokens : e.SignsApart → Apart before e → ∀ ps,
    munch (pending before) (e.written ++ ps) =
      Ecma.flush (pending before) ++ e.tree.flatten ++ munch [] ps
  joined : ¬(e.SignsApart ∧ Apart before e) → ∀ ps,
    0 < Ecma.updates (munch (pending before) (e.written ++ ps))

theorem munches_of_tokens {before : Option UnaryOperation} {e : Expr JsVar}
    (happart : e.SignsApart ∧ Apart before e)
    (h : ∀ ps, munch (pending before) (e.written ++ ps) =
      Ecma.flush (pending before) ++ e.tree.flatten ++ munch [] ps) : Munches before e :=
  ⟨fun _ _ => h, fun hnot => absurd happart hnot⟩

theorem apart_of_none {before : Option UnaryOperation} {e : Expr JsVar}
    (h : e.firstOperator = none) : Apart before e := fun op _ _ => by
  rw [h]
  exact nofun

theorem munches_word {before : Option UnaryOperation} {e : Expr JsVar} {w : JsWord}
    (happart : e.SignsApart) (hfirst : e.firstOperator = none) (hw : e.written = [.word w])
    (ht : e.tree = .word w) : Munches before e := by
  refine munches_of_tokens ⟨happart, apart_of_none hfirst⟩ fun ps => ?_
  rw [hw, ht, List.append_assoc]
  rfl

theorem munch_path {before : Option UnaryOperation} {ps : List (Piece JsWord)} {e : Expr JsVar}
    (h : e.IsPath) : munch (pending before) (e.written ++ ps) =
      Ecma.flush (pending before) ++ e.tree.flatten ++ munch [] ps := by
  induction e using Expr.ind generalizing ps with
  | variableReference x =>
    cases x with
    | data x =>
      have hword : munch (pending before) (.word .data :: (bracketed x ++ ps)) =
          Ecma.flush (pending before) ++ .word .data :: munch [] (bracketed x ++ ps) := rfl
      rw [written, List.cons_append, hword, munch_bracketed]
      simp [tree, Ecma.Tree.flatten]
    | identifier name =>
      have hword : munch (pending before) (.word (.identifier name) :: ps) =
          Ecma.flush (pending before) ++ .word (.identifier name) :: munch [] ps := rfl
      rw [written, List.singleton_append, hword]
      simp [tree, Ecma.Tree.flatten]
  | getAttribute v a ih =>
    rw [written, List.append_assoc, ih h, munch_bracketed, tree]
    simp [Ecma.Tree.flatten]
  | _ => exact h.elim

theorem munches_path {before : Option UnaryOperation} {e : Expr JsVar} (h : e.IsPath) :
    Munches before e := by
  refine munches_of_tokens ?_ fun ps => munch_path h
  cases e with
  | variableReference | getAttribute => exact ⟨trivial, apart_of_none rfl⟩
  | _ => exact h.elim

theorem apart_none {ν : Type} {e : Expr ν} : Apart none e := nofun

/-- Two operands and an operator between blanks. -/
theorem Munches.operation {before : Option UnaryOperation} {e l r : Expr JsVar} {op : Text}
    (hl : Munches before l) (hr : Munches none r)
    (hw : e.written = l.written ++ pieces (' ' :: op ++ [' ']) ++ r.written)
    (ht : e.tree = .binary op l.tree r.tree) (hsigns : e.SignsApart = (l.SignsApart ∧ r.SignsApart))
    (hfirst : e.firstOperator = l.firstOperator)
    (hop : ∀ ps, munch [] (pieces (' ' :: op ++ [' ']) ++ ps) = .punctuator op :: munch [] ps) :
    Munches before e := by
  have happart : Apart before e ↔ Apart before l := by
    unfold Apart
    rw [hfirst]
  have hwritten : ∀ ps, e.written ++ ps =
      l.written ++ (pieces (' ' :: op ++ [' ']) ++ (r.written ++ ps)) := by
    intro ps
    rw [hw, List.append_assoc, List.append_assoc]
  refine ⟨fun hs ha ps => ?_, fun hnot ps => ?_⟩
  · rw [hsigns] at hs
    have hright : munch [] (r.written ++ ps) = _ := hr.tokens hs.2 apart_none ps
    rw [hwritten, hl.tokens hs.1 (happart.1 ha), hop, hright, ht]
    simp [Ecma.Tree.flatten, pending, Ecma.flush]
  · rw [hwritten]
    by_cases h : l.SignsApart ∧ Apart before l
    · rw [hl.tokens h.1 h.2, hop, Ecma.updates_append, Ecma.updates_cons]
      have hjoined : 0 < Ecma.updates (munch [] (r.written ++ ps)) := by
        refine hr.joined (fun hr => hnot ?_) ps
        rw [hsigns]
        exact ⟨⟨h.1, hr.1⟩, happart.2 h.2⟩
      omega
    · exact hl.joined h _

theorem Munches.unary {before : Option UnaryOperation} {e : Expr JsVar} {op : UnaryOperation}
    (he : Munches (some op) e) : Munches before (.unaryOperation e op) := by
  have hwritten : ∀ ps, (Expr.unaryOperation e op).written ++ ps =
      pieces op.symbol ++ (e.written ++ ps) := by
    intro ps
    rw [written, List.append_assoc]
  have happart : Apart before (.unaryOperation e op) ↔ (before = some op → op = .booleanNegation) := by
    constructor
    · intro h hbefore
      by_contra hop
      exact h op hbefore hop rfl
    · rintro h op' hbefore hop' heq
      cases heq
      exact hop' (h hbefore)
  refine ⟨fun hs ha ps => ?_, fun hnot ps => ?_⟩
  · have hoperand : munch op.symbol (e.written ++ ps) = _ := he.tokens hs.1 hs.2 ps
    have hflush : Ecma.flush (pending (some op)) = [.punctuator op.symbol] := flush_pending
    rw [hwritten, munch_unary (happart.1 ha), hoperand, hflush, tree]
    simp [Ecma.Tree.flatten]
  · rw [hwritten]
    by_cases h : before = some op → op = .booleanNegation
    · have hjoined : 0 < Ecma.updates (munch op.symbol (e.written ++ ps)) :=
        he.joined (fun hoperand => hnot ⟨hoperand, happart.2 h⟩) ps
      rw [munch_unary h, Ecma.updates_append]
      omega
    · obtain ⟨rfl, hop⟩ := Classical.not_imp.1 h
      exact updates_joined hop

/-- Arguments after the first, each after a comma. -/
theorem munch_arguments {args : List (Option (Expr JsVar))} (ps : List (Piece JsWord))
    (ih : ∀ e, some e ∈ args → Munches none e) (hargs : ParsedArguments args) :
    (SignsApartArguments args → munch [] (writtenArguments false args ++ ps) =
      ((treeArguments args).flatMap fun t => .punctuator [','] :: t.flatten) ++ munch [] ps) ∧
    (¬SignsApartArguments args →
      0 < Ecma.updates (munch [] (writtenArguments false args ++ ps))) := by
  induction args with
  | nil => exact ⟨fun _ => rfl, fun h => absurd trivial h⟩
  | cons arg args iha =>
    cases arg with
    | none => exact hargs.elim
    | some e =>
      have he := ih e List.mem_cons_self
      have iha := iha (fun e h => ih e (List.mem_cons_of_mem _ h)) hargs.2
      have hwritten : writtenArguments false (some e :: args) ++ ps =
          pieces [',', ' '] ++ (e.written ++ (writtenArguments false args ++ ps)) := by
        simp [writtenArguments]
      rw [hwritten, munch_separator]
      refine ⟨fun hs => ?_, fun hnot => ?_⟩
      · have hfirst : munch [] (e.written ++ _) = _ :=
          he.tokens hs.1 apart_none (writtenArguments false args ++ ps)
        rw [hfirst, iha.1 hs.2]
        simp [treeArguments, pending, Ecma.flush]
      · rw [Ecma.updates_cons]
        refine Nat.add_pos_right _ ?_
        by_cases hs : e.SignsApart
        · have hfirst : munch [] (e.written ++ _) = _ :=
            he.tokens hs apart_none (writtenArguments false args ++ ps)
          rw [hfirst, Ecma.updates_append]
          exact Nat.add_pos_right _ (iha.2 fun hargs => hnot ⟨hs, hargs⟩)
        · exact he.joined (fun h => hs h.1) _

theorem munch_firstArguments {args : List (Option (Expr JsVar))} (ps : List (Piece JsWord))
    (ih : ∀ e, some e ∈ args → Munches none e) (hargs : ParsedArguments args) :
    (SignsApartArguments args → munch [] (writtenArguments true args ++ ps) =
      Ecma.Tree.flattenAll (treeArguments args) ++ munch [] ps) ∧
    (¬SignsApartArguments args →
      0 < Ecma.updates (munch [] (writtenArguments true args ++ ps))) := by
  cases args with
  | nil => exact ⟨fun _ => rfl, fun h => absurd trivial h⟩
  | cons arg args =>
    cases arg with
    | none => exact hargs.elim
    | some e =>
      have hwritten : writtenArguments false (some e :: args) ++ ps =
          pieces [',', ' '] ++ (writtenArguments true (some e :: args) ++ ps) := by
        simp [writtenArguments]
      have h := munch_arguments ps ih hargs
      rw [hwritten, munch_separator] at h
      refine ⟨fun hs => ?_, fun hnot => ?_⟩
      · rw [treeArguments, Ecma.Tree.flattenAll_cons]
        exact (List.cons.inj (h.1 hs)).2
      · have hcomma : (Ecma.Token.punctuator [','] : Ecma.Token JsWord).updates = 0 := rfl
        have hjoined := h.2 hnot
        rwa [Ecma.updates_cons, hcomma, Nat.zero_add] at hjoined

theorem Munches.methodCall {before : Option UnaryOperation} {m : Text}
    {args : List (Option (Expr JsVar))} (ih : ∀ e, some e ∈ args → Munches none e)
    (hargs : ParsedArguments args) : Munches before (.methodCall m args) := by
  have happart : Apart before (.methodCall m args) := apart_of_none rfl
  have hmunch : ∀ ps, munch (pending before) ((Expr.methodCall m args).written ++ ps) =
      Ecma.flush (pending before) ++ .word .helpers :: .punctuator ['['] :: .word (.key m) ::
        .punctuator [']'] :: .punctuator ['('] ::
          munch [] (writtenArguments true args ++ (pieces [')'] ++ ps)) := by
    intro ps
    rw [← munch_open, ← munch_bracketed, written]
    simp only [List.cons_append, List.append_assoc]
    rfl
  refine ⟨fun hs _ ps => ?_, fun hnot ps => ?_⟩
  · rw [hmunch, (munch_firstArguments _ ih hargs).1 hs, munch_close, tree]
    simp [Ecma.Tree.flatten]
  · have hjoined := (munch_firstArguments (pieces [')'] ++ ps) ih hargs).2
      fun hs => hnot ⟨hs, happart⟩
    rw [hmunch]
    simp only [Ecma.updates_append, Ecma.updates_cons]
    omega

theorem munches_number {before : Option UnaryOperation} {e : Expr JsVar} {text : Text} {w : JsWord}
    (happart : e.SignsApart) (hfirst : e.firstOperator = none) (htext : text.head? ≠ some '-')
    (hw : e.written = writtenNumber text w) (ht : e.tree = .word w) : Munches before e :=
  munches_word happart hfirst (hw.trans (if_neg htext)) ht

theorem parsedArguments_iff {ν : Type} {args : List (Option (Expr ν))} :
    ParsedArguments args ↔ ∀ arg ∈ args, ∃ e, arg = some e ∧ e.Parsed := by
  induction args with
  | nil => simp [ParsedArguments]
  | cons arg args ih =>
    cases arg with
    | none => simp [ParsedArguments]
    | some e => simp [ParsedArguments, ih]

theorem munches (e : Expr JsVar) : e.Parsed → ∀ before, Munches before e := by
  induction e using Expr.ind with
  | variableReference x => exact fun _ _ => munches_path trivial
  | getAttribute v a => exact fun h _ => munches_path h
  | methodCall m args ih =>
    intro h before
    refine Munches.methodCall (fun e he => ih e he ?_ none) h
    obtain ⟨e', heq, he'⟩ := parsedArguments_iff.1 h _ he
    cases heq
    exact he'
  | doubleLiteral v | integerLiteral v =>
    exact fun h _ => munches_number trivial rfl h rfl rfl
  | booleanLiteral v | stringLiteral v => exact fun _ _ => munches_word trivial rfl rfl rfl
  | binaryOperation l r op ihl ihr =>
    exact fun h before => (ihl h.1 before).operation (ihr h.2 none) rfl rfl rfl rfl
      fun ps => munch_binary
  | unaryOperation e op ih => exact fun h _ => (ih h (some op)).unary
  | comparison l r op ihl ihr =>
    exact fun h before => (ihl h.1 before).operation (ihr h.2 none) rfl rfl rfl rfl
      fun ps => munch_comparison

/-! ## Trees -/

theorem binaryLevel_binary (op : BinaryOperation) : ∃ k, Ecma.binaryLevel op.symbol = some k := by
  cases op <;> exact ⟨_, rfl⟩

theorem binaryLevel_comparison (op : ComparisonOperation) :
    ∃ k, Ecma.binaryLevel op.symbol = some k := by
  cases op <;> exact ⟨_, rfl⟩

theorem tree_level (e : Expr JsVar) : e.tree.level = e.precedence := by
  cases e with
  | variableReference x => cases x <;> rfl
  | _ => rfl

theorem tree_spelled (e : Expr JsVar) : e.tree.Spelled ∧ e.tree.updates = 0 := by
  induction e using Expr.ind with
  | variableReference x => cases x <;> exact ⟨by simp [tree, Ecma.Tree.Spelled], rfl⟩
  | getAttribute v a ih => exact ⟨⟨ih.1, trivial⟩, ih.2⟩
  | methodCall m args ih =>
    have hall : Ecma.Tree.SpelledAll (treeArguments args) ∧
        Ecma.Tree.updatesAll (treeArguments args) = 0 := by
      induction args with
      | nil => exact ⟨trivial, rfl⟩
      | cons arg args iha =>
        have hrest := iha fun e he => ih e (List.mem_cons_of_mem _ he)
        cases arg with
        | none => exact hrest
        | some e =>
          obtain ⟨h₁, h₂⟩ := ih e List.mem_cons_self
          refine ⟨⟨h₁, hrest.1⟩, ?_⟩
          rw [treeArguments, Ecma.Tree.updatesAll, h₂, hrest.2]
    refine ⟨⟨⟨trivial, trivial⟩, hall.1⟩, ?_⟩
    rw [tree, Ecma.Tree.updates, hall.2]
    rfl
  | doubleLiteral | integerLiteral | booleanLiteral | stringLiteral => exact ⟨trivial, rfl⟩
  | binaryOperation l r op ihl ihr =>
    refine ⟨⟨binaryLevel_binary op, ihl.1, ihr.1⟩, ?_⟩
    rw [tree, Ecma.Tree.updates, ihl.2, ihr.2]
  | unaryOperation e op ih =>
    refine ⟨⟨?_, ih.1⟩, ih.2⟩
    cases op <;> decide
  | comparison l r op ihl ihr =>
    refine ⟨⟨binaryLevel_comparison op, ihl.1, ihr.1⟩, ?_⟩
    rw [tree, Ecma.Tree.updates, ihl.2, ihr.2]

theorem tree_path {e : Expr JsVar} (h : e.IsPath) :
    e.tree.Fits ∧ e.tree.level = Ecma.operandLevel ∧ e.SignsApart ∧ e.Grouped := by
  induction e using Expr.ind with
  | variableReference x =>
    cases x <;> exact ⟨by simp [tree, Ecma.Tree.Fits, Ecma.Tree.level], rfl, trivial, trivial⟩
  | getAttribute v a ih =>
    obtain ⟨hfits, hlevel, -, hgrouped⟩ := ih h
    exact ⟨⟨hfits, hlevel, trivial⟩, rfl, trivial, hgrouped⟩
  | _ => exact h.elim

/-- An operand of a unary operator begins with its own operator. -/
theorem firstOperator_eq_some_iff {ν : Type} {e : Expr ν} {op : UnaryOperation}
    (h : Ecma.unaryLevel ≤ e.precedence) :
    e.firstOperator = some op ↔ ∃ e', e = .unaryOperation e' op := by
  cases e with
  | binaryOperation l r op' =>
    obtain ⟨k, hk⟩ := binaryLevel_binary op'
    have hlt := (Ecma.binaryLevel_pos hk).2
    rw [precedence, hk, Option.getD_some] at h
    exact absurd hlt (Nat.not_lt.2 h)
  | comparison l r op' =>
    obtain ⟨k, hk⟩ := binaryLevel_comparison op'
    have hlt := (Ecma.binaryLevel_pos hk).2
    rw [precedence, hk, Option.getD_some] at h
    exact absurd hlt (Nat.not_lt.2 h)
  | unaryOperation e' op' => simp [firstOperator]
  | _ => simp [firstOperator]

theorem grouped_iff (e : Expr JsVar) : e.Parsed → (e.Grouped ↔ e.tree.Fits ∧ e.SignsApart) := by
  induction e using Expr.ind with
  | variableReference x =>
    obtain ⟨hfits, -, hsigns, hgrouped⟩ := tree_path (e := .variableReference x) trivial
    exact fun _ => ⟨fun _ => ⟨hfits, hsigns⟩, fun _ => hgrouped⟩
  | getAttribute v a =>
    intro h
    obtain ⟨hfits, -, hsigns, hgrouped⟩ := tree_path (e := .getAttribute v a) h
    exact ⟨fun _ => ⟨hfits, hsigns⟩, fun _ => hgrouped⟩
  | methodCall m args ih =>
    intro h
    have hall : GroupedArguments args ↔
        Ecma.Tree.FitsAll (treeArguments args) ∧ SignsApartArguments args := by
      replace h : ParsedArguments args := h
      induction args with
      | nil => exact ⟨fun _ => ⟨trivial, trivial⟩, fun _ => trivial⟩
      | cons arg args iha =>
        cases arg with
        | none => exact h.elim
        | some e =>
          have he := ih e List.mem_cons_self h.1
          have hargs := iha (fun e he => ih e (List.mem_cons_of_mem _ he)) h.2
          simp only [GroupedArguments, treeArguments, Ecma.Tree.FitsAll, SignsApartArguments, he,
            hargs]
          tauto
    simp [Grouped, tree, Ecma.Tree.Fits, Ecma.Tree.level, SignsApart, hall]
  | doubleLiteral | integerLiteral | booleanLiteral | stringLiteral =>
    exact fun _ => ⟨fun _ => ⟨trivial, trivial⟩, fun _ => trivial⟩
  | binaryOperation l r op ihl ihr | comparison l r op ihl ihr =>
    intro h
    simp only [Grouped, tree, Ecma.Tree.Fits, SignsApart, ihl h.1, ihr h.2, tree_level]
    tauto
  | unaryOperation e op ih =>
    intro h
    simp only [Grouped, tree, Ecma.Tree.Fits, SignsApart, ih h, tree_level]
    constructor
    · rintro ⟨⟨hfits, hsigns⟩, hlevel, hop⟩
      refine ⟨⟨hfits, hlevel⟩, hsigns, fun op' hbefore hop' hfirst => ?_⟩
      cases hbefore
      obtain ⟨e', rfl⟩ := (firstOperator_eq_some_iff hlevel).1 hfirst
      exact hop hop' e' rfl
    · rintro ⟨⟨hfits, hlevel⟩, hsigns, happart⟩
      refine ⟨⟨hfits, hsigns⟩, hlevel, fun hop e' heq => ?_⟩
      exact happart op rfl hop ((firstOperator_eq_some_iff hlevel).2 ⟨e', heq⟩)

/-- For what the parser makes. -/
theorem readsBack_iff_grouped {e : Expr JsVar} (h : e.Parsed) : e.ReadsBack ↔ e.Grouped := by
  have hspelled := e.tree_spelled
  have hmunches := munches e h none
  have htokens : e.SignsApart → munch [] e.written = e.tree.flatten := by
    intro hs
    have htokens := hmunches.tokens hs apart_none []
    simpa [pending, Ecma.flush, munch] using htokens
  rw [grouped_iff e h, ← Ecma.parses_flatten_iff hspelled.1]
  constructor
  · intro hreads
    have hparses := (hreads e.tree).2 rfl
    have hsigns : e.SignsApart := by
      by_contra hnot
      have hjoined := hmunches.joined (fun h => hnot h.1) []
      have hupdates := hparses.updates_eq
      rw [List.append_nil] at hjoined
      simp only [hspelled.2, Ecma.Goal.updates, Ecma.updates_nil] at hupdates
      exact absurd hupdates hjoined.ne
    rw [htokens hsigns] at hparses
    exact ⟨hparses, hsigns⟩
  · rintro ⟨hparses, hsigns⟩ t
    rw [htokens hsigns]
    refine ⟨fun ht => (ht.unique hparses).1, ?_⟩
    rintro rfl
    exact hparses

end

/-! ## Renamed variables -/

section

variable {ν μ : Type} {f : ν → μ}

theorem isPath_map {e : Expr ν} (h : e.IsPath) : (e.map f).IsPath := by
  induction e using Expr.ind with
  | variableReference x => trivial
  | getAttribute v a ih => exact ih h
  | _ => exact h.elim

theorem parsed_map (e : Expr ν) : e.Parsed → (e.map f).Parsed := by
  induction e using Expr.ind with
  | getAttribute v a => exact isPath_map
  | methodCall m args ih =>
    intro h
    replace h : ParsedArguments args := h
    show ParsedArguments (mapArguments f args)
    induction args with
    | nil => trivial
    | cons arg args iha =>
      cases arg with
      | none => exact h.elim
      | some e =>
        exact ⟨ih e List.mem_cons_self h.1, iha (fun e he => ih e (List.mem_cons_of_mem _ he)) h.2⟩
  | variableReference | booleanLiteral | stringLiteral => exact fun _ => trivial
  | doubleLiteral | integerLiteral => exact id
  | binaryOperation l r op ihl ihr | comparison l r op ihl ihr => exact fun h => ⟨ihl h.1, ihr h.2⟩
  | unaryOperation e op ih => exact ih

theorem precedence_map (e : Expr ν) : (e.map f).precedence = e.precedence := by
  cases e <;> rfl

theorem grouped_map (e : Expr ν) : (e.map f).Grouped ↔ e.Grouped := by
  induction e using Expr.ind with
  | variableReference | doubleLiteral | integerLiteral | booleanLiteral | stringLiteral => rfl
  | getAttribute v a ih => exact ih
  | methodCall m args ih =>
    show GroupedArguments (mapArguments f args) ↔ GroupedArguments args
    induction args with
    | nil => rfl
    | cons arg args iha =>
      have hargs := iha fun e he => ih e (List.mem_cons_of_mem _ he)
      cases arg with
      | none => exact hargs
      | some e => exact and_congr (ih e List.mem_cons_self) hargs
  | binaryOperation l r op ihl ihr | comparison l r op ihl ihr =>
    simp only [map, Grouped, ihl, ihr, precedence_map]
  | unaryOperation e op ih =>
    have hoperator : (∃ e', e.map f = .unaryOperation e' op) ↔ ∃ e', e = .unaryOperation e' op := by
      cases e <;> simp [map]
    simp only [map, Grouped, ih, precedence_map, ne_eq, ← not_exists, hoperator]

end

end Expr

/-! ## What the parser makes -/

mutual

/-- The numbers are those that the lexer makes of its tokens. -/
def ExpressionTree.Lexed : ExpressionTree → Prop
  | .doubleLiteral v => ∃ text, v = .ofText text
  | .integerLiteral v => ∃ text, v = atol text
  | .minus t | .plus t | .not t | .parentheses t => t.Lexed
  | .binaryOperation l r _ | .comparison l r _ => l.Lexed ∧ r.Lexed
  | .methodCall _ args => args.Lexed
  | .varRef _ | .stringLiteral _ | .booleanLiteral _ => True

def ArgumentsTree.Lexed : ArgumentsTree → Prop
  | .one t => t.Lexed
  | .snoc other t => other.Lexed ∧ t.Lexed

end

theorem head_decimal {n : Nat} {t : Text} : (decimal n ++ t).head? ≠ some '-' := by
  cases h : decimal n with
  | nil => exact absurd h Nat.toDigits_ne_nil
  | cons c cs =>
    have hdigit : c.isDigit = true := isDigit_of_mem_decimal (n := n) (h ▸ List.mem_cons_self)
    intro heq
    cases heq
    exact absurd hdigit (by decide)

theorem head_atol (text : Text) : (decimalInt (atol text).toInt).head? ≠ some '-' := by
  have hnonneg : (0 : Int) ≤ min (digitsValue text : Int) (2 ^ 63 - 1) :=
    le_min (Int.natCast_nonneg _) (by norm_num)
  have htoInt : (atol text).toInt = min (digitsValue text : Int) (2 ^ 63 - 1) :=
    Int64.toInt_ofInt_of_le (by omega) (by omega)
  have hhead := head_decimal (n := (atol text).toInt.natAbs) (t := [])
  rw [List.append_nil] at hhead
  unfold decimalInt
  rwa [if_neg (by omega)]

theorem head_toText {m : Nat} {e : Int} (h : Canonical m e) :
    (Double.finite false m e h).toText.head? ≠ some '-' := by
  rw [Double.toText_finite, if_neg Bool.false_ne_true, List.nil_append]
  exact head_decimal

theorem head_ofRatio (n d : Nat) : (Double.ofRatio false n d).toText.head? ≠ some '-' := by
  have hrounded : ∀ m e, (if h : Canonical m e then Double.finite false m e h
      else .infinite false).toText.head? ≠ some '-' := by
    intro m e
    split
    · exact head_toText _
    · decide
  unfold Double.ofRatio
  split
  · exact head_toText _
  · exact hrounded _ _

theorem head_ofText (text : Text) : (Double.ofText text).toText.head? ≠ some '-' := by
  unfold Double.ofText
  dsimp only
  split_ifs
  · exact head_ofRatio _ _
  · exact head_ofRatio _ _

theorem VarRefTree.action_isPath : ∀ t : VarRefTree, t.action.IsPath
  | .identifier _ => trivial
  | .getAttribute v _ => v.action_isPath

section

variable {line : Nat}

mutual

theorem ExpressionTree.action_parsed : ∀ (t : ExpressionTree) (e : Expression),
    t.action line = .ok e → t.Lexed → e.Parsed
  | .varRef v, e, h, _ => by
    cases h
    cases v with
    | identifier => trivial
    | getAttribute v a => exact v.action_isPath
  | .doubleLiteral _, e, h, hlexed => by
    cases h
    obtain ⟨text, rfl⟩ := hlexed
    exact head_ofText text
  | .integerLiteral _, e, h, hlexed => by
    cases h
    obtain ⟨text, rfl⟩ := hlexed
    exact head_atol text
  | .stringLiteral _, e, h, _ | .booleanLiteral _, e, h, _ => by
    cases h
    trivial
  | .minus t, e, h, hlexed | .plus t, e, h, hlexed | .not t, e, h, hlexed => by
    simp only [ExpressionTree.action, bind_eq_ok, pure_eq_ok] at h
    obtain ⟨s, hs, -, -, rfl⟩ := h
    exact t.action_parsed s hs hlexed
  | .binaryOperation l r op, e, h, hlexed | .comparison l r op, e, h, hlexed => by
    simp only [ExpressionTree.action, bind_eq_ok, pure_eq_ok] at h
    obtain ⟨left, hl, right, hr, -, -, -, -, rfl⟩ := h
    exact ⟨l.action_parsed left hl hlexed.1, r.action_parsed right hr hlexed.2⟩
  | .parentheses t, e, h, hlexed => t.action_parsed e h hlexed
  | .methodCall m args, e, h, hlexed => by
    simp only [ExpressionTree.action, bind_eq_ok, pure_eq_ok] at h
    obtain ⟨l, hl, rfl⟩ := h
    refine Expr.parsedArguments_iff.2 fun arg harg => ?_
    obtain ⟨e, he, rfl⟩ := List.mem_map.1 harg
    exact ⟨e, rfl, args.action_parsed l hl hlexed e he⟩

theorem ArgumentsTree.action_parsed : ∀ (t : ArgumentsTree) (l : List Expression),
    t.action line = .ok l → t.Lexed → ∀ e ∈ l, e.Parsed
  | .one t, l, h, hlexed => by
    simp only [ArgumentsTree.action, bind_eq_ok, pure_eq_ok] at h
    obtain ⟨e, he, rfl⟩ := h
    simpa using t.action_parsed e he hlexed
  | .snoc other t, l, h, hlexed => by
    simp only [ArgumentsTree.action, bind_eq_ok, pure_eq_ok] at h
    obtain ⟨l', hl, e, he, rfl⟩ := h
    have hother := other.action_parsed l' hl hlexed.1
    have harg := t.action_parsed e he hlexed.2
    simpa [or_imp, forall_and] using ⟨hother, harg⟩

end

end

namespace JavascriptVisitor

/-- What is written for the expression is read as its tree, whatever the loop variables are. -/
def PreservesGrouping (e : Expression) : Prop := ∀ m : Members, (m.expression e).ReadsBack

/-- An expression of the parser keeps its grouping exactly if it is grouped by the precedences of
the target language. -/
theorem preservesGrouping_iff {t : ExpressionTree} {line : Nat} {e : Expression}
    (h : t.action line = .ok e) (hlexed : t.Lexed) : PreservesGrouping e ↔ e.Grouped := by
  have hparsed := t.action_parsed e h hlexed
  constructor
  · intro hkeeps
    have hgrouped := (Expr.readsBack_iff_grouped (Expr.parsed_map e hparsed)).1
      (hkeeps ⟨0, fun _ => none⟩)
    exact (Expr.grouped_map e).1 hgrouped
  · intro hgrouped m
    exact (Expr.readsBack_iff_grouped (Expr.parsed_map e hparsed)).2 ((Expr.grouped_map e).2 hgrouped)

/-- `a.b + 2 * -f(a)` -/
def sumWithCall : Expression :=
  .binaryOperation (.getAttribute (.variableReference ['a']) ['b'])
    (.binaryOperation (.integerLiteral 2)
      (.unaryOperation (.methodCall ['f'] [some (.variableReference ['a'])]) .numericNegative)
      .multiplication) .addition

theorem preservesGrouping_sumWithCall : PreservesGrouping sumWithCall := by
  have haction : (ExpressionTree.binaryOperation (.varRef (.getAttribute (.identifier ['a']) ['b']))
      (.binaryOperation (.integerLiteral 2)
        (.minus (.methodCall ['f'] (.one (.varRef (.identifier ['a'])))))
        .multiplication) .addition).action 1 = .ok sumWithCall := rfl
  refine (preservesGrouping_iff haction ?_).2 ?_
  · exact ⟨trivial, ⟨['2'], by decide⟩, trivial⟩
  · have hcall : (.methodCall ['f'] [some (.variableReference ['a'])] : Expression).Grouped :=
      ⟨trivial, trivial⟩
    have hsign : (.unaryOperation (.methodCall ['f'] [some (.variableReference ['a'])])
        .numericNegative : Expression).Grouped :=
      ⟨hcall, by decide, fun _ _ => nofun⟩
    exact ⟨trivial, ⟨trivial, hsign, by decide, by decide⟩, by decide, by decide⟩

/-- `(a + b) * c` -/
def productOfSum : Expression :=
  .binaryOperation (.binaryOperation (.variableReference ['a']) (.variableReference ['b'])
    .addition) (.variableReference ['c']) .multiplication

/-- What is written is `a + b * c`. -/
theorem not_preservesGrouping_productOfSum : (ExpressionTree.binaryOperation
    (.parentheses (.binaryOperation (.varRef (.identifier ['a'])) (.varRef (.identifier ['b']))
      .addition)) (.varRef (.identifier ['c'])) .multiplication).action 1 = .ok productOfSum ∧
    ¬PreservesGrouping productOfSum := by
  refine ⟨rfl, fun hkeeps => ?_⟩
  have hparsed : productOfSum.Parsed := ⟨⟨trivial, trivial⟩, trivial⟩
  have hgrouped := (Expr.readsBack_iff_grouped (Expr.parsed_map productOfSum hparsed)).1
    (hkeeps ⟨0, fun _ => none⟩)
  obtain ⟨-, -, hprecedence, -⟩ := (Expr.grouped_map productOfSum).1 hgrouped
  exact absurd hprecedence (by decide)

end JavascriptVisitor

end B2
