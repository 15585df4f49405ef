import B2.Ast.Ast
import B2.Parser.Steps

/-!
# Parsing one file after the other

`Parser::parse` on a scanner that outlives it. Where the parser stops, at the
end of a file or at an error, the scanner keeps its start condition, its line,
the flag `eat_whitespace` and the text it has read into its buffer and not
scanned; the next file comes after that text. The generated parser is a
parameter, as what it does with a sequence of tokens. A file is parsed as by a
fresh parser if it finds the scanner `Clean` for it.
-/

namespace B2

open Flex (Config)

/-- The parser bison generates: it asks for one token after the other. -/
structure GeneratedParser where
  State : Type
  start : State
  /-- After a token the parser asks for another one, or it reports an error. -/
  next : State → Token → State ⊕ Text
  /-- At the end of the file. -/
  finish : State → Except Text AST

namespace GeneratedParser

variable (P : GeneratedParser)

/-- The error is thrown with the line of the scanner. -/
def outcome (line : Nat) : Except Text AST → Run AST
  | .ok ast => .ok ast
  | .error message => .error (.syntaxError message line)

/-- `syntax_parse`. Every match of the scanner consumes something, so the length of the text
bounds their number. -/
def parseWithin : Nat → P.State → Config LexState → Run AST × Config LexState
  | 0, q, c => (outcome c.line (P.finish q), c)
  | fuel + 1, q, c =>
    match lexer.step c with
    | none => (outcome c.line (P.finish q), c)
    | some (none, c') => parseWithin fuel q c'
    | some (some t, c') =>
      match P.next q t with
      | .inl q' => parseWithin fuel q' c'
      | .inr message => (outcome c'.line (.error message), c')

/-- `Parser::parse` with the scanner `c`, which has unread text in its buffer. -/
def parse (c : Config LexState) (text : Text) : Run AST × Config LexState :=
  P.parseWithin (c.unread ++ text).length P.start { c with unread := c.unread ++ text }

/-- What a fresh parser gives. -/
def fresh (text : Text) : Run AST := (P.parse (lexStart []) text).1

/-- The scanner after a file of which at most `kept` characters that were not scanned had been
read into the buffer. -/
def after (c : Config LexState) (text : Text) (kept : Nat) : Config LexState :=
  let c' := (P.parse c text).2
  { c' with unread := c'.unread.take kept }

/-- The outcomes of files parsed one after the other, each with its `kept`. -/
def parseAll : Config LexState → List (Text × Nat) → List (Run AST)
  | _, [] => []
  | c, (text, kept) :: files => (P.parse c text).1 :: parseAll (P.after c text kept) files

/-- The tokens are those of a template without a syntax error. -/
def Accepts : P.State → List Token → Prop
  | q, [] => ∃ ast, P.finish q = .ok ast
  | q, t :: l => ∃ q', P.next q t = .inl q' ∧ Accepts q' l

/-- The state of the scanner does not matter for the file: nothing unread is left, it is outside
tags and comments, the flag `eat_whitespace` meets no blanks that it would eat, and the line is
the first one if an error will be reported. -/
structure Clean (c : Config LexState) (text : Text) : Prop where
  unread : c.unread = []
  condition : c.state.condition = .initial
  eatWhitespace : c.state.eatWhitespace = true →
    ¬LateBlank (trims (untilOpener text).2) (untilOpener text).1
  line : c.line = 1 ∨ P.Accepts P.start (lexer.tokens (lexStart text))

/-- Every file finds the scanner clean. -/
def Undisturbed : Config LexState → List (Text × Nat) → Prop
  | _, [] => True
  | c, (text, kept) :: files => P.Clean c text ∧ Undisturbed (P.after c text kept) files

variable {P}

/-- The line of an outcome further down. -/
def laterLine (n : Nat) : Run AST → Run AST
  | .error (.syntaxError message line) => .error (.syntaxError message (line + n))
  | r => r

theorem outcome_line (line n : Nat) (r : Except Text AST) :
    outcome (line + n) r = laterLine n (outcome line r) := by
  cases r <;> rfl

/-- Parsing from a later line. -/
theorem parseWithin_line (n : Nat) (fuel : Nat) : ∀ (q : P.State) (s : LexState) (line : Nat)
    (t : Text), (P.parseWithin fuel q ⟨s, line + n, t⟩).1 =
      laterLine n (P.parseWithin fuel q ⟨s, line, t⟩).1 := by
  induction fuel with
  | zero => exact fun q s line t => outcome_line line n _
  | succ fuel ih =>
    intro q s line t
    rw [parseWithin, parseWithin, Flex.Scanner.step_line]
    cases lexer.step ⟨s, line, t⟩ with
    | none => exact outcome_line line n _
    | some p =>
      obtain ⟨_ | tok, s', line', t'⟩ := p
      · exact ih q s' line' t'
      · simp only [Option.map_some]
        cases P.next q tok with
        | inl q' => exact ih q' s' line' t'
        | inr message => exact outcome_line line' n (.error message)

/-- Accepted tokens give a tree. -/
theorem parseWithin_of_accepts (fuel : Nat) : ∀ (q : P.State) (c : Config LexState),
    c.unread.length ≤ fuel → P.Accepts q (lexer.tokens c) →
      ∃ ast, (P.parseWithin fuel q c).1 = .ok ast := by
  induction fuel with
  | zero =>
    intro q c hle h
    rw [Flex.Scanner.tokens_of_nil (List.length_eq_zero_iff.1 (Nat.le_zero.1 hle))] at h
    obtain ⟨ast, hast⟩ := h
    exact ⟨ast, by rw [parseWithin, hast]; rfl⟩
  | succ fuel ih =>
    intro q c hle h
    rw [parseWithin]
    cases hstep : lexer.step c with
    | none =>
      rw [Flex.Scanner.tokens_of_nil (Flex.Scanner.step_eq_none_iff.1 hstep)] at h
      obtain ⟨ast, hast⟩ := h
      exact ⟨ast, by simp only [hast]; rfl⟩
    | some p =>
      obtain ⟨tok, c'⟩ := p
      have hlt := Flex.Scanner.length_of_step hstep
      rw [Flex.Scanner.tokens_of_step hstep] at h
      cases tok with
      | none => exact ih q c' (by omega) h
      | some t =>
        obtain ⟨q', hnext, h⟩ := h
        simp only [hnext]
        exact ih q' c' (by omega) h

/-- Blanks at the start of a text that are not late are directly before a `{-%`. -/
theorem trims_of_not_lateBlank {w t : Text} (hne : w ≠ []) (hw : ∀ c ∈ w, isBlank c = true)
    (ht : ∀ c ∈ t.head?, isBlank c = false)
    (h : ¬LateBlank (trims (untilOpener (w ++ t)).2) (untilOpener (w ++ t)).1) :
    trims (untilOpener t).2 = true ∧ (untilOpener t).1 = [] := by
  have hnobrace : ∀ c ∈ w, c ≠ '\x7b' := by
    rintro c hc rfl
    exact absurd (hw _ hc) (by decide)
  obtain ⟨c, v, rfl⟩ := List.exists_cons_of_ne_nil hne
  rw [untilOpener_append hnobrace, List.cons_append, lateBlank_cons, not_or, not_and] at h
  have hlate := Classical.not_imp.1 (h.1 (hw c List.mem_cons_self))
  rw [List.all_append, Bool.not_eq_false, Bool.and_eq_true] at hlate
  refine ⟨hlate.1, ?_⟩
  cases hchunk : (untilOpener t).1 with
  | nil => rfl
  | cons d x =>
    have hd : d ∈ t.head? := head_untilOpener (by rw [hchunk]; rfl)
    have hall := hlate.2.2
    rw [hchunk, List.all_cons, ht d hd] at hall
    cases hall

/-- The flag does not matter where it meets no blanks that it would eat. -/
theorem parseWithin_eat (fuel : Nat) : ∀ (q : P.State) (line : Nat) (t : Text),
    ¬LateBlank (trims (untilOpener t).2) (untilOpener t).1 →
      (P.parseWithin fuel q ⟨⟨.initial, true⟩, line, t⟩).1 =
        (P.parseWithin fuel q ⟨⟨.initial, false⟩, line, t⟩).1 := by
  induction fuel with
  | zero => exact fun q line t _ => rfl
  | succ fuel ih =>
    intro q line t hlate
    rw [parseWithin, parseWithin]
    cases t with
    | nil =>
      have hend : ∀ eat, lexer.step ⟨⟨.initial, eat⟩, line, []⟩ = none := fun eat =>
        Flex.Scanner.step_eq_none_iff.2 rfl
      rw [hend, hend]
    | cons c u =>
      cases hopen : openerAt (c :: u) with
      | some r =>
        obtain ⟨o, rest⟩ := r
        obtain ⟨tok, -, hstep⟩ := step_opener hopen
        rw [hstep, hstep]
        cases tok <;> rfl
      | none =>
        by_cases hblank : isBlank c = true
        · obtain ⟨w, rest, hsplit, hne, hw, hhead⟩ := Flex.Regex.exists_run hblank u
          -- blanks that the flag would eat are directly before a `{-%`
          obtain ⟨htrims, hnil⟩ := trims_of_not_lateBlank hne hw hhead (hsplit ▸ hlate)
          have htrim : "\x7b-%".toList <+: rest := (trim_prefix_iff rest).2 ⟨hnil, htrims⟩
          rw [hsplit, step_blank true line hne hw hhead, step_blank false line hne hw hhead,
            decide_eq_true htrim]
          refine ih q _ rest ?_
          rw [hnil]
          rintro ⟨_, _, _, h, -⟩
          simp at h
        · by_cases hbrace : c = '\x7b'
          · subst hbrace
            rw [step_brace true line hopen, step_brace false line hopen]
            rw [untilOpener, hopen] at hlate
            simp only
            cases P.next q (.raw ['\x7b']) with
            | inl q' => exact ih q' line u fun h => hlate (lateBlank_cons.2 (.inr ⟨.inr rfl, h⟩))
            | inr message => rfl
          · have hword : isWord c = true := by simp [isWord, hblank, hbrace]
            obtain ⟨w, rest, hsplit, hne, hw, hhead⟩ := Flex.Regex.exists_run hword u
            rw [hsplit, step_word true line hne hw hhead, step_word false line hne hw hhead]

/-- A file that finds the scanner clean is parsed as by a fresh parser. -/
theorem parse_eq_fresh {c : Config LexState} {text : Text} (h : P.Clean c text) :
    (P.parse c text).1 = P.fresh text := by
  obtain ⟨⟨condition, eat⟩, line, unread⟩ := c
  obtain ⟨hunread, hcondition, heat, hline⟩ := h
  simp only at hunread hcondition heat hline
  subst hunread hcondition
  have hflag : (P.parse ⟨⟨.initial, eat⟩, line, []⟩ text).1 =
      (P.parse ⟨⟨.initial, false⟩, line, []⟩ text).1 := by
    cases eat with
    | false => rfl
    | true => exact parseWithin_eat _ _ _ _ (heat rfl)
  rw [hflag]
  rcases hline with rfl | haccepts
  · rfl
  · have hzero : ∀ line, (P.parse ⟨⟨.initial, false⟩, line, []⟩ text).1 =
        laterLine line (P.parse ⟨⟨.initial, false⟩, 0, []⟩ text).1 := fun line => by
      have := parseWithin_line (P := P) line text.length P.start ⟨.initial, false⟩ 0 text
      rwa [Nat.zero_add] at this
    obtain ⟨ast, hast⟩ := parseWithin_of_accepts text.length P.start (lexStart text) le_rfl haccepts
    have hast : (P.parse ⟨⟨.initial, false⟩, 1, []⟩ text).1 = .ok ast := hast
    change _ = (P.parse ⟨⟨.initial, false⟩, 1, []⟩ text).1
    rw [hast, hzero]
    rw [hzero] at hast
    cases hr : (P.parse ⟨⟨.initial, false⟩, 0, []⟩ text).1 with
    | ok ast' =>
      rw [hr] at hast
      exact hast
    | error failure =>
      rw [hr] at hast
      cases failure <;> cases hast

/-- Files that all find the scanner clean are parsed as by fresh parsers. -/
theorem parseAll_eq_fresh {c : Config LexState} {files : List (Text × Nat)}
    (h : P.Undisturbed c files) : P.parseAll c files = files.map fun f => P.fresh f.1 := by
  induction files generalizing c with
  | nil => rfl
  | cons f files ih =>
    obtain ⟨text, kept⟩ := f
    rw [parseAll, parse_eq_fresh h.1, ih h.2, List.map_cons]

/-- A parser of raw text only, which is what the examples below hold. -/
def rawParser : GeneratedParser where
  State := List AST
  start := []
  next
    | l, .raw str => .inl (l ++ [.rawBlock str])
    | _, _ => .inr "syntax error".toList
  finish l := .ok (.fromStatementsArray l)

/-- The files `a` and `b` one after the other, with a scanner on its seventh line that a `-%}`
has told to eat whitespace. -/
theorem parseAll_letters :
    rawParser.parseAll ⟨⟨.initial, true⟩, 7, []⟩ [("a".toList, 0), ("b".toList, 0)] =
      [rawParser.fresh "a".toList, rawParser.fresh "b".toList] := by
  have hword : ∀ {c : Char} {b : Bool}, isBlank c = false → c ≠ '\x7b' → ¬LateBlank b [c] := by
    intro c b hblank hbrace h
    simp [lateBlank_cons, hblank, hbrace] at h
  refine parseAll_eq_fresh ⟨⟨rfl, rfl, fun _ => ?_, .inr ⟨_, rfl, _, rfl⟩⟩,
    ⟨by decide, by decide, fun _ => ?_, .inr ⟨_, rfl, _, rfl⟩⟩, trivial⟩
  · exact hword (by decide) (by decide)
  · exact hword (by decide) (by decide)

/-- After a file that ends in a comment, the file `a` is a part of the comment. -/
theorem parseAll_ne_fresh : rawParser.parseAll (lexStart []) [("\x7b#".toList, 0), ("a".toList, 0)] ≠
    [rawParser.fresh "\x7b#".toList, rawParser.fresh "a".toList] := by
  intro h
  have hsecond : (rawParser.parse (rawParser.after (lexStart []) "\x7b#".toList 0) "a".toList).1 =
      rawParser.fresh "a".toList := (List.cons.inj (List.cons.inj h).2).1
  have hstatements : (rawParser.parse (rawParser.after (lexStart []) "\x7b#".toList 0)
      "a".toList).1 = .ok (.statements []) := rfl
  have hraw : rawParser.fresh "a".toList = .ok (.rawBlock "a".toList) := rfl
  rw [hstatements, hraw] at hsecond
  cases hsecond

end GeneratedParser

end B2
