import B2.Ast.Expression
import B2.Flex.Scanner

/-!
# The lexer

The rules of `syntax.l` in their order, a list for every start condition. A
token carries the value the scanner puts into `yylval`. The state of the
lexer is its start condition and the global flag `eat_whitespace`; the unread
text and the line are those of any scanner.
-/

namespace B2

open Flex (Rule Regex)

inductive Token where
  | raw (str : Text)
  | variableStart | variableEnd | blockStart | blockEnd
  | kwIf | kwElseif | kwElse | kwEndif | kwFor | kwEndfor | kwIn | kwInclude | kwWith | kwUsing
  | identifier (str : Text)
  | stringLiteral (str : Text)
  | booleanLiteral (b : Bool)
  | doubleLiteral (d : Double)
  | integerLiteral (l : Int64)
  | eq | neq | gt | ge | lt | le | and | or | not | plus | minus | mul | div | mod
  | openParen | closeParen | attributeSeparator | comma | assign
  deriving DecidableEq

/-- The start conditions. -/
inductive Condition where
  | initial | inVariable | inBlock | inComment
  deriving DecidableEq

structure LexState where
  condition : Condition
  eatWhitespace : Bool
  deriving DecidableEq

/-- An action is given `yytext`. -/
abbrev Action := Text → LexState → Option Token × LexState

/-! ## String literals -/

/-- The loop of `process_string_literal`, on the text between the quotes. -/
def unescapeFrom (ptr : Nat) (text : Text) : Text :=
  if h : ptr < text.length then
    if text[ptr] = '\\' then unescapeFrom (ptr + 1) (text.eraseIdx ptr)
    else unescapeFrom (ptr + 1) text
  else text
termination_by text.length - ptr
decreasing_by
  · rw [List.length_eraseIdx_of_lt h]
    omega
  · omega

def processStringLiteral (text : Text) : Text :=
  cString (unescapeFrom 0 (text.drop 1).dropLast)

/-! ## Actions -/

def ignore : Action := fun _ s => (none, s)

/-- `return t;` -/
def returns (t : Token) : Action := fun _ s => (some t, s)

/-- `BEGIN(c); return t;` -/
def begins (c : Condition) (t : Option Token) : Action := fun _ s => (t, { s with condition := c })

/-- `eat_whitespace = b;` before another action. -/
def setEat (b : Bool) (action : Action) : Action :=
  fun text s => action text { s with eatWhitespace := b }

/-- `yylval->str = strdup(yytext); return t;` -/
def returnsText (t : Text → Token) : Action := fun text s => (some (t (cString text)), s)

/-- `atol` on a run of digits; glibc clamps. -/
def atol (t : Text) : Int64 := Int64.ofInt (min (digitsValue t) (2 ^ 63 - 1))

/-! ## Rules -/

def isBlank (c : Char) : Bool := c = ' ' || c = '\t' || c = '\n' || c = '\r'

/-- `[^{ \t\n\r]` -/
def isWord (c : Char) : Bool := c ≠ '\x7b' && !isBlank c

/-- `.` -/
def any : Regex Char := .cls (· ≠ '\n')

def word (w : String) (action : Action) : Rule Char Action := .literal w.toList action

def initialRules : List (Rule Char Action) :=
  [word "\x7b\x7b" (setEat false (begins .inVariable (some .variableStart))),
   word "\x7b%" (setEat false (begins .inBlock (some .blockStart))),
   word "\x7b-%" (setEat false (begins .inBlock (some .blockStart))),
   word "\x7b#" (setEat false (begins .inComment none)),
   .run isWord (setEat false (returnsText .raw)),
   .before isBlank "\x7b-%".toList ignore,
   .run isBlank fun text s => if s.eatWhitespace then (none, s) else returnsText .raw text s,
   .of any (returnsText .raw) rfl]

def commentRules : List (Rule Char Action) :=
  [word "#\x7d" (begins .initial none),
   .run (· ≠ '#') ignore,
   .of any ignore rfl]

/-- `[ \t]+` -/
def blanks : Rule Char Action := .run (fun c => c = ' ' || c = '\t') ignore

def variableRules : List (Rule Char Action) :=
  [word "\x7d\x7d" (begins .initial (some .variableEnd)), blanks]

def blockRules : List (Rule Char Action) :=
  [word "%\x7d" (begins .initial (some .blockEnd)),
   word "%-\x7d" (setEat true (begins .initial (some .blockEnd))),
   blanks,
   word "if" (returns .kwIf),
   word "else if" (returns .kwElseif),
   word "elseif" (returns .kwElseif),
   word "else" (returns .kwElse),
   word "endif" (returns .kwEndif),
   word "for" (returns .kwFor),
   word "in" (returns .kwIn),
   word "endfor" (returns .kwEndfor),
   word "include" (returns .kwInclude),
   word "with" (returns .kwWith),
   word "using" (returns .kwUsing)]

def operatorRules : List (Rule Char Action) :=
  [word "==" (returns .eq),
   word "!=" (returns .neq),
   word ">" (returns .gt),
   word ">=" (returns .ge),
   word "<" (returns .lt),
   word "<=" (returns .le),
   word "&&" (returns .and),
   word "and" (returns .and),
   word "AND" (returns .and),
   word "||" (returns .or),
   word "or" (returns .or),
   word "OR" (returns .or),
   word "!" (returns .not),
   word "not" (returns .not),
   word "NOT" (returns .not),
   word "+" (returns .plus),
   word "-" (returns .minus),
   word "*" (returns .mul),
   word "/" (returns .div),
   word "%" (returns .mod),
   word "(" (returns .openParen),
   word ")" (returns .closeParen),
   word "." (returns .attributeSeparator),
   word "," (returns .comma),
   word "=" (returns .assign)]

/-- `q([^q]|\q|\\)*q` -/
def quoted (q : Char) : Regex Char :=
  .seq (.cls (· = q)) (.seq (.star (.alt (.cls (· ≠ q)) (.alt (.str ['\\', q]) (.str ['\\', '\\']))))
    (.cls (· = q)))

/-- `STRING_LITERAL` and `STRING_LITERAL_SQ`. -/
def quotedRule (q : Char) : Rule Char Action :=
  .of (quoted q) (fun text s => (some (.stringLiteral (processStringLiteral text)), s)) rfl

def digits : Regex Char := .plus (.cls Char.isDigit)

/-- `DOUBLE` -/
def double : Regex Char :=
  .seq (.alt (.seq digits (.seq (.str ['.']) digits)) (.alt (.seq (.str ['.']) digits) digits))
    (.alt (.seq (.cls fun c => c = 'E' || c = 'e')
      (.seq (.alt (.cls fun c => c = '+' || c = '-') .epsilon) digits)) .epsilon)

/-- `IDENTIFIER` -/
def identifier : Regex Char :=
  .alt (.cls Char.isAlpha)
    (.alt (.seq (.plus (.cls (· = '_'))) (.seq (.cls Char.isAlpha)
        (.star (.cls fun c => c.isAlphanum || c = '_'))))
      (.seq (.cls Char.isAlpha) (.star (.cls fun c => c.isAlphanum || c = '_'))))

def literalRules : List (Rule Char Action) :=
  [.of digits (fun text s => (some (.integerLiteral (atol text)), s)) rfl,
   .of double (fun text s => (some (.doubleLiteral (.ofText text)), s)) rfl,
   word "true" (returns (.booleanLiteral true)),
   word "TRUE" (returns (.booleanLiteral true)),
   word "false" (returns (.booleanLiteral false)),
   word "FALSE" (returns (.booleanLiteral false)),
   .of identifier (returnsText .identifier) rfl]

/-- The rules of `<IN_BLOCK,IN_VARIABLE>`. -/
def tagRules : List (Rule Char Action) :=
  operatorRules ++ (quotedRule '"' :: quotedRule '\'' :: literalRules)

def lexer : Flex.Scanner LexState Token where
  rules s := match s.condition with
    | .initial => initialRules
    | .inComment => commentRules
    | .inVariable => variableRules ++ tagRules
    | .inBlock => blockRules ++ tagRules

/-- A fresh scanner with a text to read. -/
def lexStart (text : Text) : Flex.Config LexState := ⟨⟨.initial, false⟩, 1, text⟩

end B2
