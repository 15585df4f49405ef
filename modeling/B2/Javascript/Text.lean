import B2.Javascript.Escape
import B2.Javascript.Occurrences

/-!
# The text of the generated function

What the `CodeEmitter` gets of the lines that `JavascriptVisitor` writes, character
by character. `escape` may go on for ever; `fuel` bounds its loop, so the visitor
returns if some bound is large enough. A binary operator and the comparisons `<` and
`>` come with a NUL byte, since the visitor writes both bytes of the enumerator.
-/

namespace B2

open Ecma (Line)

/-! ## The emitter -/

/-- `CodeEmitter`, with what it has written to its stream. -/
structure CodeEmitter where
  output : Text
  indentationCount : Int

namespace CodeEmitter

def indent (ce : CodeEmitter) : CodeEmitter :=
  { ce with indentationCount := ce.indentationCount + 1 }

def outdent (ce : CodeEmitter) : CodeEmitter :=
  { ce with indentationCount := ce.indentationCount - 1 }

/-- `operator<<` -/
def write (ce : CodeEmitter) (text : Text) : CodeEmitter :=
  { ce with output := ce.output ++ text }

def startLine (ce : CodeEmitter) : CodeEmitter :=
  ce.write (List.replicate ce.indentationCount.toNat '\t')

def endLine (ce : CodeEmitter) : CodeEmitter := ce.write ['\n']

def line (ce : CodeEmitter) (text : Text) : CodeEmitter := (ce.startLine.write text).endLine

def blankline (ce : CodeEmitter) : CodeEmitter := ce.write ['\n']

end CodeEmitter

/-! ## Expressions -/

/-- `escape`, with a bound on its loop. -/
def escape (fuel : Nat) (text : Text) : Run Text :=
  match escapeLoop fuel 0 text with
  | some ret => .ok ret
  | none => .error .outOfFuel

/-- The `std::string` of two characters that a packed operator is written as. -/
def unpackUint16 (op : Nat) : Text := [Char.ofNat (op / 256 % 256), Char.ofNat (op % 256)]

namespace Expr

mutual

/-- What `JavascriptVisitor::expression` writes. -/
def text (fuel : Nat) : Expr JsVar → Run Text
  | .variableReference (.identifier shadowValue) => return shadowValue
  | .variableReference (.data variableName) => do
    return "data['".toList ++ (← escape fuel variableName) ++ "']".toList
  | .getAttribute v a => do
    return (← v.text fuel) ++ "['".toList ++ (← escape fuel a) ++ "']".toList
  | .methodCall m args => do
    return "helpers['".toList ++ m ++ "'](".toList ++ (← argumentsText fuel true args) ++ [')']
  | .doubleLiteral v => return v.toText
  | .integerLiteral v => return decimalInt v.toInt
  | .booleanLiteral v => return (if v then "true" else "false").toList
  | .stringLiteral v => do return '\'' :: (← escape fuel v) ++ ['\'']
  | .binaryOperation l r op => do
    return (← l.text fuel) ++ [' '] ++ unpackUint16 op.code ++ [' '] ++ (← r.text fuel)
  | .unaryOperation e op => do return Char.ofNat op.code :: (← e.text fuel)
  | .comparison l r op => do
    return (← l.text fuel) ++ [' '] ++ unpackUint16 op.code ++ [' '] ++ (← r.text fuel)

def argumentsText (fuel : Nat) (first : Bool) : List (Option (Expr JsVar)) → Run Text
  | [] => return []
  | none :: _ => .error (.undefined .nullPointer)
  | some e :: args => do
    return (if first then [] else [',', ' ']) ++ (← e.text fuel) ++
      (← argumentsText fuel false args)

end

end Expr

/-! ## Lines -/

/-- What is written for an expression of a line. -/
def JsExpression.toText (fuel : Nat) : JsExpression → Run Text
  | .value e => e.text fuel
  | .orEmpty e => do return (← e.text fuel) ++ " || ''".toList
  | .text t => do return '\'' :: (← escape fuel t) ++ ['\'']
  | .boolean b => return (if b then "true" else "false").toList
  | .identifier name => return name
  | .notOwn object key => return '!' :: object ++ ".hasOwnProperty(".toList ++ key ++ [')']
  | .element object key => return object ++ '[' :: key ++ [']']

namespace JavascriptVisitor

/-- A line, with the `indent` and `outdent` that go with its braces. -/
def writeLine (fuel : Nat) (ce : CodeEmitter) : Line JsExpression → Run CodeEmitter
  | .blank => return ce.blankline
  | .append e => do return ce.line ("buffer += ".toList ++ (← e.toText fuel) ++ [';'])
  | .declare x e => do
    return ce.line ("var ".toList ++ x ++ " = ".toList ++ (← e.toText fuel) ++ [';'])
  | .assign x e => do return ce.line (x ++ " = ".toList ++ (← e.toText fuel) ++ [';'])
  | .continueIf c => do
    return ce.line ("if (".toList ++ (← c.toText fuel) ++ ") continue;".toList)
  | .openFor x object =>
    return (ce.line ("for (var ".toList ++ x ++ " in ".toList ++ object ++ ") \x7b".toList)).indent
  | .openIf c => do
    return (ce.line ("if (".toList ++ (← c.toText fuel) ++ ") \x7b".toList)).indent
  | .elseIf c => do
    let c ← c.toText fuel
    return (ce.outdent.line ("\x7d else if (".toList ++ c ++ ") \x7b".toList)).indent
  | .openElse => return (ce.outdent.line "\x7d else \x7b".toList).indent
  | .close => return ce.outdent.line ['}']

def writeFunctionLine (fuel : Nat) (ce : CodeEmitter) : FunctionLine → Run CodeEmitter
  | .openFunction => return (ce.line "function(helpers, data) \x7b".toList).indent
  | .defaultData => return ce.line "data = data || \x7b\x7d;".toList
  | .declareBuffer => return ce.line "var buffer = '';".toList
  | .statement l => writeLine fuel ce l
  | .returnBuffer => return ce.line "return buffer;".toList
  | .closeFunction => return ce.outdent.line ['}']

/-- The text that `visit` writes, in a stream that is indented by `indentationCount`. The first
throw of the walk and of the writing may be another one than the visitor's. -/
def visitText (fuel : Nat) (undefinedCheck : Bool) (indentationCount : Int) (ast : AST) :
    Run Text := do
  let lines ← visit undefinedCheck ast
  return (← lines.foldlM (writeFunctionLine fuel) ⟨[], indentationCount⟩).output

end JavascriptVisitor

/-! ## Clean text -/

/-- Neither a NUL byte nor a control byte other than tab and line feed. -/
def IsClean (c : Char) : Prop := c ≠ '\x00' ∧ (IsControl c → c = '\t' ∨ c = '\n')

instance (c : Char) : Decidable (IsClean c) := inferInstanceAs (Decidable (_ ∧ _))

def Clean (t : Text) : Prop := ∀ c ∈ t, IsClean c

instance (t : Text) : Decidable (Clean t) := List.decidableBAll _ _

theorem clean_append {t u : Text} : Clean (t ++ u) ↔ Clean t ∧ Clean u := List.forall_mem_append

theorem clean_cons {c : Char} {t : Text} : Clean (c :: t) ↔ IsClean c ∧ Clean t :=
  List.forall_mem_cons

theorem isClean_of_isDigit {c : Char} (h : c.isDigit = true) : IsClean c := by
  have hrange : 48 ≤ c.toNat ∧ c.toNat ≤ 57 := by
    rw [Char.isDigit, Bool.and_eq_true, decide_eq_true_iff, decide_eq_true_iff] at h
    exact h
  have hcontrol : ¬IsControl c := by
    rw [IsControl]
    omega
  refine ⟨?_, fun hc => absurd hc hcontrol⟩
  intro hnul
  rw [hnul] at hrange
  exact absurd hrange.1 (by decide)

theorem clean_decimal (n : Nat) : Clean (decimal n) := fun _ h =>
  isClean_of_isDigit (isDigit_of_mem_decimal h)

theorem clean_decimalInt (z : Int) : Clean (decimalInt z) := by
  unfold decimalInt
  split
  · exact clean_cons.2 ⟨by decide, clean_decimal _⟩
  · exact clean_decimal _

theorem clean_sixDigits (n : Nat) : Clean (Double.sixDigits n) := by
  apply clean_append.2
  refine ⟨fun c hc => ?_, clean_decimal n⟩
  rw [List.eq_of_mem_replicate hc]
  decide

theorem clean_toText (v : Double) : Clean v.toText := by
  cases v with
  | nan => decide
  | infinite s => cases s <;> decide
  | finite s m e h =>
    rw [Double.toText_finite, clean_append, clean_append, clean_cons]
    refine ⟨⟨?_, clean_decimal _⟩, by decide, clean_sixDigits _⟩
    cases s <;> decide

/-- Strings that `escape` makes clean text. -/
def Escapable (t : Text) : Prop := '\x00' ∉ t ∧ '\x7f' ∉ t

instance (t : Text) : Decidable (Escapable t) := inferInstanceAs (Decidable (_ ∧ _))

theorem clean_escapeChar_of_low {n : Nat} (hpos : 0 < n) (hlt : n < 0x20) :
    Clean (escapeChar (Char.ofNat n)) := by
  interval_cases n <;> decide

/-- The replacement of DEL ends in the byte that `snprintf` writes behind the four that fit. -/
theorem clean_escapeChar (c : Char) : Clean (escapeChar c) ↔ c ≠ '\x00' ∧ c ≠ '\x7f' := by
  by_cases hnul : c = '\x00'
  · subst hnul
    decide
  by_cases hdel : c = '\x7f'
  · subst hdel
    decide
  refine iff_of_true ?_ ⟨hnul, hdel⟩
  by_cases hc : IsControl c
  · rw [← Char.ofNat_toNat c]
    rcases hc with ⟨hpos, hlt⟩ | h
    · exact clean_escapeChar_of_low hpos hlt
    · exact absurd (Char.toNat_inj.1 h) hdel
  · by_cases hquote : c = '\''
    · subst hquote
      decide
    · have hinert : escapeChar c = [c] := inert_of_not_control hquote hc
      rw [hinert, clean_cons]
      exact ⟨⟨hnul, fun h => absurd h hc⟩, nofun⟩

theorem clean_escape {fuel : Nat} {t ret : Text} (h : escape fuel t = .ok ret) :
    Clean ret ↔ Escapable t := by
  have hret : Escapes t ret := by
    refine ⟨fuel, ?_⟩
    unfold escape at h
    split at h
    · rename_i hloop
      rwa [← Except.ok.inj h]
    · cases h
  obtain ⟨-, rfl⟩ := escapes_iff.1 hret
  clear h hret
  induction t with
  | nil => simp [Clean, Escapable]
  | cons c t ih =>
    rw [List.flatMap_cons, clean_append]
    apply (and_congr (clean_escapeChar c) ih).trans
    simp only [Escapable, List.mem_cons, not_or, ne_eq, eq_comm (a := c)]
    tauto

/-! ## Expressions that are written as clean text -/

section

variable {ν μ : Type}

namespace Expr

mutual

/-- Nothing but the variables of the expression is written with a control byte. -/
def Spelled : Expr ν → Prop
  | .variableReference _ => True
  | .getAttribute v a => v.Spelled ∧ Escapable a
  | .methodCall m args => Clean m ∧ ArgumentsSpelled args
  | .doubleLiteral _ | .integerLiteral _ | .booleanLiteral _ => True
  | .stringLiteral v => Escapable v
  | .binaryOperation .. => False
  | .unaryOperation e _ => e.Spelled
  | .comparison l r op => op ≠ .greaterThan ∧ op ≠ .lessThan ∧ l.Spelled ∧ r.Spelled

def ArgumentsSpelled : List (Option (Expr ν)) → Prop
  | [] => True
  | none :: args => ArgumentsSpelled args
  | some e :: args => e.Spelled ∧ ArgumentsSpelled args

end

mutual

theorem spelled_map (f : ν → μ) : ∀ e : Expr ν, (e.map f).Spelled ↔ e.Spelled
  | .variableReference _ | .doubleLiteral _ | .integerLiteral _ | .booleanLiteral _
  | .stringLiteral _ | .binaryOperation .. => Iff.rfl
  | .getAttribute v _ => and_congr_left' (spelled_map f v)
  | .methodCall _ args => and_congr_right' (argumentsSpelled_map f args)
  | .unaryOperation e _ => spelled_map f e
  | .comparison l r _ =>
    and_congr_right' (and_congr_right' (and_congr (spelled_map f l) (spelled_map f r)))

theorem argumentsSpelled_map (f : ν → μ) : ∀ args : List (Option (Expr ν)),
    ArgumentsSpelled (mapArguments f args) ↔ ArgumentsSpelled args
  | [] => Iff.rfl
  | none :: args => argumentsSpelled_map f args
  | some e :: args => and_congr (spelled_map f e) (argumentsSpelled_map f args)

end

end Expr

end

/-- A variable that is written as clean text. -/
def JsVar.Spelled : JsVar → Prop
  | .data x => Escapable x
  | .identifier name => Clean name

namespace Expr

section

variable {fuel : Nat}

/-- An expression whose text is clean exactly if it should be. -/
def WritesClean (fuel : Nat) (e : Expr JsVar) : Prop :=
  ∀ t, e.text fuel = .ok t → (Clean t ↔ e.Spelled ∧ ∀ x ∈ e.references, x.Spelled)

theorem clean_unpackUint16 (op : ComparisonOperation) :
    Clean (unpackUint16 op.code) ↔ op ≠ .greaterThan ∧ op ≠ .lessThan := by
  cases op <;> decide

theorem not_clean_unpackUint16 (op : BinaryOperation) : ¬Clean (unpackUint16 op.code) := by
  cases op <;> decide

theorem writesClean_variableReference (x : JsVar) : WritesClean fuel (.variableReference x) := by
  intro t h
  cases x with
  | data x =>
    simp only [text, bind_eq_ok, pure_eq_ok] at h
    obtain ⟨ret, hret, rfl⟩ := h
    have hopen : Clean "data['".toList := by decide
    have hclose : Clean "']".toList := by decide
    simp only [clean_append, hopen, hclose, clean_escape hret, true_and, and_true, Spelled,
      references, List.forall_mem_singleton, JsVar.Spelled]
  | identifier name =>
    simp only [text, pure_eq_ok] at h
    subst h
    simp only [Spelled, references, List.forall_mem_singleton, JsVar.Spelled, true_and]

theorem writesClean_getAttribute {v : Expr JsVar} {a : Text} (hv : WritesClean fuel v) :
    WritesClean fuel (.getAttribute v a) := by
  intro t h
  simp only [text, bind_eq_ok, pure_eq_ok] at h
  obtain ⟨base, hbase, ret, hret, rfl⟩ := h
  have hopen : Clean "['".toList := by decide
  have hclose : Clean "']".toList := by decide
  simp only [clean_append, hopen, hclose, clean_escape hret, hv base hbase, and_true, Spelled,
    references]
  tauto

theorem clean_argumentsText {args : List (Option (Expr JsVar))}
    (hargs : ∀ e, some e ∈ args → WritesClean fuel e) : ∀ {first : Bool} {t : Text},
    argumentsText fuel first args = .ok t →
      (Clean t ↔ ArgumentsSpelled args ∧ ∀ x ∈ argumentReferences args, x.Spelled) := by
  induction args with
  | nil =>
    intro first t h
    simp only [argumentsText, pure_eq_ok] at h
    subst h
    exact iff_of_true (by rintro _ ⟨⟩) ⟨trivial, by rintro _ ⟨⟩⟩
  | cons arg args ih =>
    intro first t h
    cases arg with
    | none => cases h
    | some e =>
      simp only [argumentsText, bind_eq_ok, pure_eq_ok] at h
      obtain ⟨u, hu, rest, hrest, rfl⟩ := h
      have hcomma : Clean (if first then [] else [',', ' ']) := by cases first <;> decide
      have he := hargs e List.mem_cons_self u hu
      have hl := ih (fun e h => hargs e (List.mem_cons_of_mem _ h)) hrest
      simp only [clean_append, hcomma, true_and, he, hl, ArgumentsSpelled, argumentReferences,
        List.forall_mem_append]
      tauto

theorem writesClean_methodCall {m : Text} {args : List (Option (Expr JsVar))}
    (hargs : ∀ e, some e ∈ args → WritesClean fuel e) : WritesClean fuel (.methodCall m args) := by
  intro t h
  simp only [text, bind_eq_ok, pure_eq_ok] at h
  obtain ⟨u, hu, rfl⟩ := h
  have hopen : Clean "helpers['".toList := by decide
  have hclose : Clean "'](".toList := by decide
  have hend : Clean [')'] := by decide
  simp only [clean_append, hopen, hclose, hend, clean_argumentsText hargs hu, true_and, and_true,
    Spelled, references]
  tauto

theorem writesClean_comparison {l r : Expr JsVar} {op : ComparisonOperation}
    (hl : WritesClean fuel l) (hr : WritesClean fuel r) :
    WritesClean fuel (.comparison l r op) := by
  intro t h
  simp only [text, bind_eq_ok, pure_eq_ok] at h
  obtain ⟨left, hleft, right, hright, rfl⟩ := h
  have hspace : Clean [' '] := by decide
  simp only [clean_append, hspace, hl left hleft, hr right hright, clean_unpackUint16, Spelled,
    references, List.forall_mem_append, and_true]
  tauto

/-- The text of an expression is clean exactly if the expression and its variables are spelled
without a control byte. -/
theorem writesClean (fuel : Nat) (e : Expr JsVar) : WritesClean fuel e := by
  induction e with
  | variableReference x => exact writesClean_variableReference x
  | getAttribute v a hv => exact writesClean_getAttribute hv
  | methodCall m args hargs => exact writesClean_methodCall hargs
  | comparison l r op hl hr => exact writesClean_comparison hl hr
  | doubleLiteral v =>
    intro t h
    simp only [text, pure_eq_ok] at h
    subst h
    exact iff_of_true (clean_toText v) ⟨trivial, by rintro _ ⟨⟩⟩
  | integerLiteral v =>
    intro t h
    simp only [text, pure_eq_ok] at h
    subst h
    exact iff_of_true (clean_decimalInt _) ⟨trivial, by rintro _ ⟨⟩⟩
  | booleanLiteral v =>
    intro t h
    simp only [text, pure_eq_ok] at h
    subst h
    exact iff_of_true (by cases v <;> decide) ⟨trivial, by rintro _ ⟨⟩⟩
  | stringLiteral v =>
    intro t h
    simp only [text, bind_eq_ok, pure_eq_ok] at h
    obtain ⟨ret, hret, rfl⟩ := h
    have hquote : Clean ['\''] := by decide
    have hhead : IsClean '\'' := by decide
    simp only [List.cons_append, clean_cons, clean_append, hquote, hhead, clean_escape hret,
      true_and, and_true, Spelled, references, List.not_mem_nil, false_imp_iff, implies_true]
  | binaryOperation l r op _ _ =>
    intro t h
    simp only [text, bind_eq_ok, pure_eq_ok] at h
    obtain ⟨left, -, right, -, rfl⟩ := h
    simp only [clean_append, not_clean_unpackUint16, Spelled, and_false, false_and]
  | unaryOperation e op he =>
    intro t h
    simp only [text, bind_eq_ok, pure_eq_ok] at h
    obtain ⟨u, hu, rfl⟩ := h
    have hop : IsClean (Char.ofNat op.code) := by cases op <;> decide
    simp only [clean_cons, hop, true_and, he u hu, Spelled, references]

end

end Expr

/-! ## Lines that are written as clean text -/

def JsExpression.Spelled : JsExpression → Prop
  | .value e | .orEmpty e => e.Spelled
  | .text t => Escapable t
  | .boolean _ => True
  | .identifier name => Clean name
  | .notOwn object key | .element object key => Clean object ∧ Clean key

theorem JsExpression.clean_toText {fuel : Nat} {e : JsExpression} {t : Text}
    (h : e.toText fuel = .ok t) : Clean t ↔ e.Spelled ∧ ∀ x ∈ e.references, x.Spelled := by
  cases e with
  | value e => exact e.writesClean fuel t h
  | orEmpty e =>
    simp only [toText, bind_eq_ok, pure_eq_ok] at h
    obtain ⟨u, hu, rfl⟩ := h
    have htail : Clean " || ''".toList := by decide
    simp only [clean_append, htail, and_true, e.writesClean fuel u hu, Spelled, references]
  | text t =>
    simp only [toText, bind_eq_ok, pure_eq_ok] at h
    obtain ⟨ret, hret, rfl⟩ := h
    have hquote : Clean ['\''] := by decide
    have hhead : IsClean '\'' := by decide
    simp only [List.cons_append, clean_cons, clean_append, hquote, hhead, clean_escape hret,
      true_and, and_true, Spelled, references, List.not_mem_nil, false_imp_iff, implies_true]
  | boolean b =>
    simp only [toText, pure_eq_ok] at h
    subst h
    exact iff_of_true (by cases b <;> decide) ⟨trivial, by rintro _ ⟨⟩⟩
  | identifier name =>
    simp only [toText, pure_eq_ok] at h
    subst h
    simp only [Spelled, references, List.not_mem_nil, false_imp_iff, implies_true, and_true]
  | notOwn object key =>
    simp only [toText, pure_eq_ok] at h
    subst h
    have hnot : IsClean '!' := by decide
    have hcall : Clean ".hasOwnProperty(".toList := by decide
    have hend : Clean [')'] := by decide
    simp only [List.cons_append, clean_cons, clean_append, hnot, hcall, hend, true_and, and_true,
      Spelled, references, List.not_mem_nil, false_imp_iff, implies_true]
  | element object key =>
    simp only [toText, pure_eq_ok] at h
    subst h
    have hopen : IsClean '[' := by decide
    have hclose : Clean [']'] := by decide
    simp only [clean_cons, clean_append, hopen, hclose, true_and, and_true, Spelled,
      references, List.not_mem_nil, false_imp_iff, implies_true]

namespace CodeEmitter

variable {ce : CodeEmitter} {text : Text}

theorem clean_line : Clean (ce.line text).output ↔ Clean ce.output ∧ Clean text := by
  have hindent : Clean (List.replicate ce.indentationCount.toNat '\t') := fun c hc => by
    rw [List.eq_of_mem_replicate hc]
    decide
  have hend : Clean ['\n'] := by decide
  show Clean (ce.output ++ List.replicate ce.indentationCount.toNat '\t' ++ text ++ ['\n']) ↔ _
  simp only [clean_append, hindent, hend, and_true]

theorem clean_blankline : Clean ce.blankline.output ↔ Clean ce.output := by
  have hend : Clean ['\n'] := by decide
  show Clean (ce.output ++ ['\n']) ↔ _
  simp only [clean_append, hend, and_true]

end CodeEmitter

namespace JavascriptVisitor

/-- The names of a line and what is written for its expressions, variables apart. -/
def LineSpelled : Line JsExpression → Prop
  | .blank | .openElse | .close => True
  | .append e | .continueIf e | .openIf e | .elseIf e => e.Spelled
  | .declare x e | .assign x e => Clean x ∧ e.Spelled
  | .openFor x object => Clean x ∧ Clean object

section

variable {fuel : Nat} {ce ce' : CodeEmitter}

theorem clean_writeLine {l : Line JsExpression} (h : writeLine fuel ce l = .ok ce') :
    Clean ce'.output ↔ Clean ce.output ∧ LineSpelled l ∧ ∀ x ∈ lineReferences l, x.Spelled := by
  have hsemi : Clean [';'] := by decide
  have heq : Clean " = ".toList := by decide
  have hif : Clean "if (".toList := by decide
  have hopen : Clean ") \x7b".toList := by decide
  cases l with
  | blank =>
    simp only [writeLine, pure_eq_ok] at h
    subst h
    simp only [CodeEmitter.clean_blankline, LineSpelled, lineReferences, List.not_mem_nil,
      false_imp_iff, implies_true,
      and_true]
  | append e =>
    simp only [writeLine, bind_eq_ok, pure_eq_ok] at h
    obtain ⟨t, ht, rfl⟩ := h
    have hhead : Clean "buffer += ".toList := by decide
    simp only [CodeEmitter.clean_line, clean_append, hhead, hsemi, true_and, and_true,
      e.clean_toText ht, LineSpelled, lineReferences]
  | declare x e =>
    simp only [writeLine, bind_eq_ok, pure_eq_ok] at h
    obtain ⟨t, ht, rfl⟩ := h
    have hvar : Clean "var ".toList := by decide
    simp only [CodeEmitter.clean_line, clean_append, hvar, heq, hsemi, true_and, and_true,
      e.clean_toText ht, LineSpelled, lineReferences, and_assoc]
  | assign x e =>
    simp only [writeLine, bind_eq_ok, pure_eq_ok] at h
    obtain ⟨t, ht, rfl⟩ := h
    simp only [CodeEmitter.clean_line, clean_append, heq, hsemi, and_true,
      e.clean_toText ht, LineSpelled, lineReferences, and_assoc]
  | continueIf c =>
    simp only [writeLine, bind_eq_ok, pure_eq_ok] at h
    obtain ⟨t, ht, rfl⟩ := h
    have hcontinue : Clean ") continue;".toList := by decide
    simp only [CodeEmitter.clean_line, clean_append, hif, hcontinue, true_and, and_true,
      c.clean_toText ht, LineSpelled, lineReferences]
  | openFor x object =>
    simp only [writeLine, pure_eq_ok] at h
    subst h
    have hfor : Clean "for (var ".toList := by decide
    have hin : Clean " in ".toList := by decide
    simp only [CodeEmitter.indent, CodeEmitter.clean_line, clean_append, hfor, hin, hopen, true_and,
      and_true, LineSpelled, lineReferences, List.not_mem_nil, false_imp_iff, implies_true]
  | openIf c =>
    simp only [writeLine, bind_eq_ok, pure_eq_ok] at h
    obtain ⟨t, ht, rfl⟩ := h
    simp only [CodeEmitter.indent, CodeEmitter.clean_line, clean_append, hif, hopen, true_and,
      and_true, c.clean_toText ht, LineSpelled, lineReferences]
  | elseIf c =>
    simp only [writeLine, bind_eq_ok, pure_eq_ok] at h
    obtain ⟨t, ht, rfl⟩ := h
    have helse : Clean "\x7d else if (".toList := by decide
    simp only [CodeEmitter.indent, CodeEmitter.outdent, CodeEmitter.clean_line, clean_append, helse,
      hopen, true_and, and_true, c.clean_toText ht, LineSpelled, lineReferences]
  | openElse =>
    simp only [writeLine, pure_eq_ok] at h
    subst h
    have helse : Clean "\x7d else \x7b".toList := by decide
    simp only [CodeEmitter.indent, CodeEmitter.outdent, CodeEmitter.clean_line, helse, and_true,
      LineSpelled, lineReferences, List.not_mem_nil, false_imp_iff, implies_true]
  | close =>
    simp only [writeLine, pure_eq_ok] at h
    subst h
    have hclose : Clean ['}'] := by decide
    simp only [CodeEmitter.outdent, CodeEmitter.clean_line, hclose, and_true, LineSpelled,
      lineReferences, List.not_mem_nil, false_imp_iff, implies_true]

/-- A line of the generated function that is written as clean text. -/
def FunctionLineSpelled : FunctionLine → Prop
  | .statement l => LineSpelled l ∧ ∀ x ∈ lineReferences l, x.Spelled
  | _ => True

theorem clean_writeFunctionLine {l : FunctionLine} (h : writeFunctionLine fuel ce l = .ok ce') :
    Clean ce'.output ↔ Clean ce.output ∧ FunctionLineSpelled l := by
  cases l with
  | statement l => exact clean_writeLine h
  | openFunction | defaultData | declareBuffer | returnBuffer | closeFunction =>
    simp only [writeFunctionLine, pure_eq_ok] at h
    subst h
    refine CodeEmitter.clean_line.trans (and_congr_right' (iff_of_true ?_ trivial))
    decide

theorem clean_writeFunctionLines {lines : List FunctionLine} : ∀ {ce : CodeEmitter},
    lines.foldlM (writeFunctionLine fuel) ce = .ok ce' →
      (Clean ce'.output ↔ Clean ce.output ∧ ∀ l ∈ lines, FunctionLineSpelled l) := by
  induction lines with
  | nil =>
    intro ce h
    simp only [List.foldlM_nil, pure_eq_ok] at h
    subst h
    simp only [List.not_mem_nil, false_imp_iff, implies_true, and_true]
  | cons l lines ih =>
    intro ce h
    rw [List.foldlM_cons, bind_eq_ok] at h
    obtain ⟨ce₁, hline, hrest⟩ := h
    rw [ih hrest, clean_writeFunctionLine hline, List.forall_mem_cons, and_assoc]

end

end JavascriptVisitor

/-! ## Trees that are written as clean text -/

namespace AST

mutual

/-- The expressions and the raw texts of a tree are spelled without a control byte, variables
apart. -/
def Spelled : AST → Prop
  | .statements l => SpelledList l
  | .rawBlock t => Escapable t
  | .printBlock e => e.Spelled
  | .ifBlock c t none => c.Spelled ∧ t.Spelled
  | .ifBlock c t (some e) => c.Spelled ∧ t.Spelled ∧ e.Spelled
  | .forBlock _ _ i b none => i.Spelled ∧ b.Spelled
  | .forBlock _ _ i b (some e) => i.Spelled ∧ b.Spelled ∧ e.Spelled
  | .includeBlock .. => True

def SpelledList : List AST → Prop
  | [] => True
  | s :: l => s.Spelled ∧ SpelledList l

end

/-- The variables of a tree that are properties of the data are spelled without a control byte. -/
def DataSpelled (a : AST) : Prop :=
  ∀ o ∈ a.occurrences 0 [], o.binding = none → Escapable o.name

end AST

namespace JavascriptVisitor

def LinesSpelled (lines : List (Line JsExpression)) : Prop := ∀ l ∈ lines, LineSpelled l

section

variable {lines lines' : List (Line JsExpression)} {l : Line JsExpression}

theorem linesSpelled_append :
    LinesSpelled (lines ++ lines') ↔ LinesSpelled lines ∧ LinesSpelled lines' :=
  List.forall_mem_append

theorem linesSpelled_cons : LinesSpelled (l :: lines) ↔ LineSpelled l ∧ LinesSpelled lines :=
  List.forall_mem_cons

theorem linesSpelled_nil : LinesSpelled [] := nofun

end

section

variable (n : Nat)

theorem clean_iterableId : Clean (iterableId n) :=
  clean_append.2 ⟨by decide, clean_decimal n⟩

theorem clean_isEmptyId : Clean (isEmptyId n) :=
  clean_append.2 ⟨by decide, clean_decimal n⟩

theorem clean_keyId : Clean (keyId n) :=
  clean_append.2 ⟨by decide, clean_decimal n⟩

theorem clean_valueId : Clean (valueId n) :=
  clean_append.2 ⟨by decide, clean_decimal n⟩

theorem linesSpelled_forHeader (i : Expr JsVar) (has_else_body : Bool) :
    LinesSpelled (forHeader n i has_else_body) ↔ i.Spelled := by
  cases has_else_body <;>
    simp [forHeader, linesIf, linesSpelled_cons, linesSpelled_nil, LineSpelled,
      JsExpression.Spelled, clean_iterableId, clean_isEmptyId]

theorem linesSpelled_forLoop (has_value_variable has_else_body : Bool)
    (body : List (Line JsExpression)) :
    LinesSpelled (forLoop n has_value_variable has_else_body body) ↔ LinesSpelled body := by
  cases has_value_variable <;> cases has_else_body <;>
    simp [forLoop, linesIf, linesSpelled_cons, linesSpelled_append, linesSpelled_nil, LineSpelled,
      JsExpression.Spelled, clean_iterableId, clean_isEmptyId, clean_keyId, clean_valueId]

theorem linesSpelled_forElse (body : List (Line JsExpression)) :
    LinesSpelled (forElse n body) ↔ LinesSpelled body := by
  simp [forElse, linesSpelled_cons, linesSpelled_append, linesSpelled_nil, LineSpelled,
    JsExpression.Spelled, clean_isEmptyId]

end

section

variable {undefinedCheck : Bool}

theorem spelled_expression (m : Members) (e : Expression) :
    (m.expression e).Spelled ↔ e.Spelled := Expr.spelled_map _ e

/-- The lines of a tree are spelled as the tree is. -/
theorem linesSpelled_node (a : AST) : ∀ {is_elseif : Bool} {m m' : Members}
    {lines : List (Line JsExpression)}, node undefinedCheck is_elseif m a = .ok (lines, m') →
      (LinesSpelled lines ↔ a.Spelled) := by
  induction a with
  | statements l ih =>
    intro is_elseif m m' lines h
    simp only [node] at h
    induction l generalizing m m' lines with
    | nil =>
      cases h
      exact iff_of_true linesSpelled_nil trivial
    | cons s l ihl =>
      simp only [nodes, bind_eq_ok, pure_eq_ok, Prod.mk.injEq, Prod.exists] at h
      obtain ⟨here, m₁, hs, rest, m₂, hl, rfl, rfl⟩ := h
      have hrest := ihl (fun s' hs' => ih s' (List.mem_cons_of_mem _ hs')) hl
      rw [linesSpelled_append, ih s List.mem_cons_self hs, hrest]
      rfl
  | rawBlock t =>
    intro is_elseif m m' lines h
    cases h
    simp [linesSpelled_cons, linesSpelled_nil, LineSpelled, JsExpression.Spelled, AST.Spelled]
  | printBlock e =>
    intro is_elseif m m' lines h
    cases h
    cases undefinedCheck <;>
      simp [linesSpelled_cons, linesSpelled_nil, LineSpelled, JsExpression.Spelled, AST.Spelled,
        spelled_expression]
  | includeBlock name scope M =>
    intro is_elseif m m' lines h
    cases h
  | ifBlock c t e iht ihe =>
    intro is_elseif m m' lines h
    simp only [node, bind_eq_ok, Prod.exists] at h
    obtain ⟨then_lines, m₁, ht, h⟩ := h
    obtain ⟨head, hdef, hhead⟩ : ∃ head, head = (if is_elseif then
          [Line.elseIf (JsExpression.value (m.expression c))]
        else [.blank, .openIf (.value (m.expression c))]) ∧
        (LinesSpelled head ↔ c.Spelled) := by
      refine ⟨_, rfl, ?_⟩
      cases is_elseif <;>
        simp [linesSpelled_cons, linesSpelled_nil, LineSpelled, JsExpression.Spelled,
          spelled_expression]
    rw [← hdef] at h
    cases e with
    | none =>
      simp only [pure_eq_ok, Prod.mk.injEq] at h
      obtain ⟨rfl, rfl⟩ := h
      simp [linesSpelled_append, linesSpelled_cons, linesSpelled_nil, LineSpelled, hhead, iht ht,
        AST.Spelled]
    | some e =>
      simp only at h
      split at h
      · simp only [bind_eq_ok, pure_eq_ok, Prod.mk.injEq, Prod.exists] at h
        obtain ⟨else_lines, m₂, he, rfl, rfl⟩ := h
        simp [linesSpelled_append, hhead, iht ht, ihe e rfl he, AST.Spelled]
      · simp only [bind_eq_ok, pure_eq_ok, Prod.mk.injEq, Prod.exists] at h
        obtain ⟨else_lines, m₂, he, rfl, rfl⟩ := h
        simp [linesSpelled_append, linesSpelled_cons, linesSpelled_nil, LineSpelled, hhead,
          iht ht, ihe e rfl he, AST.Spelled]
  | forBlock k v i b e ihb ihe =>
    intro is_elseif m m' lines h
    simp only [node, bind_eq_ok, Prod.exists] at h
    obtain ⟨body_lines, m₁, hb, h⟩ := h
    cases e with
    | none =>
      simp only [pure_eq_ok, Prod.mk.injEq] at h
      obtain ⟨rfl, rfl⟩ := h
      rw [linesSpelled_append, linesSpelled_forHeader, linesSpelled_forLoop, ihb hb,
        spelled_expression]
      rfl
    | some e =>
      simp only [bind_eq_ok, pure_eq_ok, Prod.mk.injEq, Prod.exists] at h
      obtain ⟨else_lines, m₂, he, rfl, rfl⟩ := h
      rw [linesSpelled_append, linesSpelled_append, linesSpelled_forHeader, linesSpelled_forLoop,
        linesSpelled_forElse, ihb hb, ihe e rfl he, spelled_expression, and_assoc]
      rfl

theorem spelled_jsVar (o : Occurrence) :
    o.jsVar.Spelled ↔ (o.binding = none → Escapable o.name) := by
  unfold Occurrence.jsVar
  cases o.binding with
  | none => exact ⟨fun h _ => h, fun h => h rfl⟩
  | some b =>
    refine iff_of_true ?_ nofun
    cases b with
    | key n => exact clean_keyId _
    | value n => exact clean_valueId _

end

end JavascriptVisitor

end B2
