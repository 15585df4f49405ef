import B2.Parser.Derivation
import B2.Parser.Steps
import B2.Parser.StringLiteral

/-!
# What is read of a tag

In a tag the scanner drops a byte at which no rule matches, so a malformed tag can be
read as another one. It drops nothing but blanks and line breaks exactly if wherever
it stands in a tag a blank, a line break or a token begins (`keepsTags_iff`).
-/

namespace B2

open Flex (Rule Regex)

/-! ## Where a token can start -/

/-- The characters that are operators by themselves. -/
def operators : Text := ['=', '!', '>', '<', '+', '-', '*', '/', '%', '(', ')', '.', ',']

/-- A token of a tag begins here. -/
inductive StartsToken (condition : Condition) : Text → Prop
  | letter {a : Char} {t : Text} (h : a.isAlpha = true) : StartsToken condition (a :: t)
  | digit {a : Char} {t : Text} (h : a.isDigit = true) : StartsToken condition (a :: t)
  | operator {a : Char} {t : Text} (h : a ∈ operators) : StartsToken condition (a :: t)
  /-- `&&` and `||` -/
  | doubled {a : Char} {t : Text} (h : a = '&' ∨ a = '|') : StartsToken condition (a :: a :: t)
  /-- a quote, and the same quote somewhere after it -/
  | quote {a : Char} {t : Text} (h : a = '"' ∨ a = '\'') (hclosed : a ∈ t) :
      StartsToken condition (a :: t)
  | underscores {b : Char} {t : Text} (n : Nat) (h : b.isAlpha = true) :
      StartsToken condition (List.replicate (n + 1) '_' ++ b :: t)
  /-- `}}` -/
  | closer {t : Text} (h : condition = .inVariable) : StartsToken condition ('\x7d' :: '\x7d' :: t)

/-- A blank, a line break or a token begins here. -/
def Readable (condition : Condition) (t : Text) : Prop :=
  (∃ a ∈ t.head?, isBlank a = true) ∨ StartsToken condition t

def InTag (s : LexState) : Prop := s.condition = .inVariable ∨ s.condition = .inBlock

instance (s : LexState) : Decidable (InTag s) := inferInstanceAs (Decidable (_ ∨ _))

/-- The matches are the template, and their tokens are what the parser is handed. -/
theorem pieces_lexStart (text : Text) :
    (lexer.pieces (lexStart text)).flatMap Flex.Scanner.Piece.text = text ∧
      (lexer.pieces (lexStart text)).flatMap (·.token.toList) = lexer.tokens (lexStart text) :=
  ⟨Flex.Scanner.pieces_text (lexStart text), Flex.Scanner.pieces_token (lexStart text)⟩

/-- Every byte of a tag that is not a blank or a line break belongs to a token, and a template is
rejected if a tag holds a byte at which no token can start. -/
structure KeepsTags (text : Text) : Prop where
  kept : ∀ p ∈ lexer.pieces (lexStart text), InTag p.start.state → p.token = none →
    ∀ c ∈ p.text, isBlank c = true
  rejected : ∀ p ∈ lexer.pieces (lexStart text), InTag p.start.state →
    ¬Readable p.start.state.condition p.start.unread → ¬Accepts text

/-! ## Rules of a tag -/

section

variable {condition : Condition} {t : Text}

theorem longest_ne_none {r : Regex Char} {n : Nat} (hn : n ≤ t.length)
    (h : t.take n ∈ r.language) : r.longest t ≠ none := fun hnone =>
  Regex.longest_eq_none_iff.1 hnone n hn h

/-- The texts of keywords and operators. -/
def opens : Text → Bool
  | [] => false
  | a :: w => a.isAlpha || a ∈ operators || ((a = '&' || a = '|') && w.head? = some a)

theorem startsToken_of_opens {w : Text} (hw : opens w = true) (h : w <+: t) :
    StartsToken condition t := by
  obtain ⟨rest, rfl⟩ := h
  cases w with
  | nil => cases hw
  | cons a w =>
    simp only [opens, Bool.or_eq_true, Bool.and_eq_true, decide_eq_true_eq] at hw
    rcases hw with (halpha | hop) | ⟨hdouble, hhead⟩
    · exact .letter halpha
    · exact .operator hop
    · obtain ⟨u, rfl⟩ := List.head?_eq_some_iff.1 hhead
      exact .doubled hdouble

/-- The rules that are keywords and operators. -/
def IsWord (r : Rule Char Action) : Prop :=
  ∃ w action, r = word w action ∧ opens w.toList = true ∧
    ∀ text s, (action text s).1 ≠ none

theorem isWord_operatorRules : ∀ r ∈ operatorRules, IsWord r := by
  simp only [operatorRules, List.forall_mem_cons]
  and_intros <;> first
    | exact ⟨_, _, rfl, by decide, by rintro _ _ ⟨⟩⟩
    | exact fun r hr => absurd hr List.not_mem_nil

/-- `blanks` is the third rule. -/
theorem isWord_blockRules : ∀ r ∈ blockRules, r = blanks ∨ IsWord r := by
  simp only [blockRules, List.forall_mem_cons]
  and_intros <;> first
    | exact .inl trivial
    | exact .inr ⟨_, _, rfl, by decide, by rintro _ _ ⟨⟩⟩
    | exact fun r hr => absurd hr List.not_mem_nil

/-- A rule that returns a token where it matches, which a token can start with. -/
def IsTokenRule (condition : Condition) (r : Rule Char Action) : Prop :=
  (∀ text s, (r.action text s).1 ≠ none) ∧
    ∀ t n, r.pattern.longest t = some n → StartsToken condition t

theorem isTokenRule_word {r : Rule Char Action} (h : IsWord r) : IsTokenRule condition r := by
  obtain ⟨w, action, rfl, hopens, haction⟩ := h
  refine ⟨haction, fun t n hlongest => startsToken_of_opens hopens ?_⟩
  by_contra hprefix
  rw [longest_word hprefix] at hlongest
  cases hlongest

theorem isTokenRule_closer :
    IsTokenRule .inVariable (word "\x7d\x7d" (begins .initial (some .variableEnd))) := by
  refine ⟨fun _ _ => nofun, fun t n hlongest => ?_⟩
  by_cases hprefix : "\x7d\x7d".toList <+: t
  · obtain ⟨rest, rfl⟩ := hprefix
    exact .closer rfl
  · rw [longest_word hprefix] at hlongest
    cases hlongest

/-- What a pattern without the empty text matches is the start of a text that is not empty. -/
theorem exists_cons_of_longest {r : Rule Char Action} {n : Nat}
    (h : r.pattern.longest t = some n) :
    ∃ a u v, t = a :: (u ++ v) ∧ a :: u ∈ r.pattern.language := by
  obtain ⟨hle, hmem, -⟩ := Regex.longest_eq_some_iff.1 h
  have hadvances := r.advances _ hmem
  cases ht : t.take n with
  | nil =>
    rw [ht] at hadvances
    exact absurd hadvances (Nat.not_lt_zero _)
  | cons a u =>
    rw [ht] at hmem
    refine ⟨a, u, t.drop n, ?_, hmem⟩
    rw [← List.cons_append, ← ht, List.take_append_drop]

theorem isTokenRule_quoted {q : Char} (hq : q = '"' ∨ q = '\'') :
    IsTokenRule condition (quotedRule q) := by
  refine ⟨fun _ _ => nofun, fun t n hlongest => ?_⟩
  obtain ⟨a, u, v, rfl, hmem⟩ := exists_cons_of_longest hlongest
  obtain ⟨w, -, hw⟩ := (mem_quoted (quote_ne_backslash hq)).1 hmem
  obtain ⟨rfl, rfl⟩ := List.cons.inj hw
  exact .quote hq (by simp)

theorem cons_mem_digits {a : Char} {u : Text} (h : a :: u ∈ digits.language) :
    a.isDigit = true := (Regex.mem_plus_cls.1 h).2 a List.mem_cons_self

theorem isTokenRule_digits {action : Action} (haction : ∀ text s, (action text s).1 ≠ none) :
    IsTokenRule condition (.of digits action rfl) := by
  refine ⟨haction, fun t n hlongest => ?_⟩
  obtain ⟨a, u, v, rfl, hmem⟩ := exists_cons_of_longest hlongest
  exact .digit (cons_mem_digits hmem)

theorem isTokenRule_double {action : Action} (haction : ∀ text s, (action text s).1 ≠ none) :
    IsTokenRule condition (.of double action rfl) := by
  refine ⟨haction, fun t n hlongest => ?_⟩
  obtain ⟨a, u, v, rfl, hmem⟩ := exists_cons_of_longest hlongest
  obtain ⟨x, hx, y, -, hxy⟩ := Regex.mem_seq.1 hmem
  have hdot : ∀ {x : Text} {p : Regex Char}, x ∈ (Regex.seq digits p).language →
      ∃ b w, x = b :: w ∧ b.isDigit = true := by
    intro x p hx
    obtain ⟨y, hy, z, -, rfl⟩ := Regex.mem_seq.1 hx
    obtain ⟨hne, hall⟩ := Regex.mem_plus_cls.1 hy
    obtain ⟨b, w, rfl⟩ := List.exists_cons_of_ne_nil hne
    exact ⟨b, w ++ z, rfl, hall b List.mem_cons_self⟩
  have hstart : ∃ b w, x = b :: w ∧ (b.isDigit = true ∨ b = '.') := by
    rcases Regex.mem_alt.1 hx with hx | hx
    · obtain ⟨b, w, rfl, hb⟩ := hdot hx
      exact ⟨b, w, rfl, .inl hb⟩
    · rcases Regex.mem_alt.1 hx with hx | hx
      · obtain ⟨y, hy, z, -, rfl⟩ := Regex.mem_seq.1 hx
        rw [Regex.mem_str.1 hy]
        exact ⟨'.', z, rfl, .inr rfl⟩
      · obtain ⟨hne, hall⟩ := Regex.mem_plus_cls.1 hx
        obtain ⟨b, w, rfl⟩ := List.exists_cons_of_ne_nil hne
        exact ⟨b, w, rfl, .inl (hall b List.mem_cons_self)⟩
  obtain ⟨b, w, rfl, hb⟩ := hstart
  obtain ⟨rfl, -⟩ := List.cons.inj hxy
  rcases hb with hb | rfl
  · exact .digit hb
  · exact .operator (by decide)

theorem isTokenRule_identifier :
    IsTokenRule condition (.of identifier (returnsText .identifier) rfl) := by
  refine ⟨fun _ _ => nofun, fun t n hlongest => ?_⟩
  obtain ⟨a, u, v, rfl, hmem⟩ := exists_cons_of_longest hlongest
  rcases Regex.mem_alt.1 hmem with hmem | hmem
  · exact .letter (Regex.cons_mem_cls.1 hmem).1
  rcases Regex.mem_alt.1 hmem with hmem | hmem
  · obtain ⟨x, hx, y, hy, hxy⟩ := Regex.mem_seq.1 hmem
    obtain ⟨z, hz, w, -, rfl⟩ := Regex.mem_seq.1 hy
    obtain ⟨b, hb, rfl⟩ := Regex.mem_cls.1 hz
    obtain ⟨hne, hall⟩ := Regex.mem_plus_cls.1 hx
    have hrun : x = List.replicate (x.length - 1 + 1) '_' := by
      rw [Nat.sub_add_cancel (List.length_pos_iff.2 hne)]
      exact List.eq_replicate_of_mem fun c hc => of_decide_eq_true (hall c hc)
    have hsplit : a :: (u ++ v) = List.replicate (x.length - 1 + 1) '_' ++ b :: (w ++ v) := by
      rw [← hrun, ← List.cons_append, ← hxy]
      simp
    rw [hsplit]
    exact .underscores _ hb
  · obtain ⟨x, hx, y, -, hxy⟩ := Regex.mem_seq.1 hmem
    obtain ⟨b, hb, rfl⟩ := Regex.mem_cls.1 hx
    obtain ⟨rfl, -⟩ := List.cons.inj hxy
    exact .letter hb

theorem isTokenRule_tagRules : ∀ r ∈ tagRules, IsTokenRule condition r := by
  simp only [tagRules, literalRules, List.forall_mem_append, List.forall_mem_cons]
  refine ⟨fun r hr => isTokenRule_word (isWord_operatorRules r hr), isTokenRule_quoted (.inl rfl),
    isTokenRule_quoted (.inr rfl), isTokenRule_digits (by rintro _ _ ⟨⟩),
    isTokenRule_double (by rintro _ _ ⟨⟩), ?_, ?_, ?_, ?_, isTokenRule_identifier,
    fun r hr => absurd hr List.not_mem_nil⟩ <;>
  exact isTokenRule_word ⟨_, _, rfl, by decide, by rintro _ _ ⟨⟩⟩

theorem isTokenRule_rules {s : LexState} (hs : InTag s) :
    ∀ r ∈ lexer.rules s, r = blanks ∨ IsTokenRule s.condition r := by
  obtain ⟨condition, eat⟩ := s
  rcases hs with hs | hs <;> cases hs
  · show ∀ r ∈ variableRules ++ tagRules, _
    simp only [variableRules, List.forall_mem_append, List.forall_mem_cons]
    exact ⟨⟨.inr isTokenRule_closer, .inl trivial, fun r hr => absurd hr List.not_mem_nil⟩,
      fun r hr => .inr (isTokenRule_tagRules r hr)⟩
  · show ∀ r ∈ blockRules ++ tagRules, _
    exact List.forall_mem_append.2
      ⟨fun r hr => (isWord_blockRules r hr).imp_right isTokenRule_word,
        fun r hr => .inr (isTokenRule_tagRules r hr)⟩

/-! ## A rule where a token can start -/

theorem exists_operator {a : Char} (h : a ∈ operators) :
    ∃ w action, w.toList = [a] ∧ word w action ∈ operatorRules := by
  simp only [operators, List.mem_cons, List.not_mem_nil, or_false] at h
  rcases h with rfl | rfl | rfl | rfl | rfl | rfl | rfl | rfl | rfl | rfl | rfl | rfl | rfl
  · exact ⟨"=", returns .assign, rfl, by simp [operatorRules]⟩
  · exact ⟨"!", returns .not, rfl, by simp [operatorRules]⟩
  · exact ⟨">", returns .gt, rfl, by simp [operatorRules]⟩
  · exact ⟨"<", returns .lt, rfl, by simp [operatorRules]⟩
  · exact ⟨"+", returns .plus, rfl, by simp [operatorRules]⟩
  · exact ⟨"-", returns .minus, rfl, by simp [operatorRules]⟩
  · exact ⟨"*", returns .mul, rfl, by simp [operatorRules]⟩
  · exact ⟨"/", returns .div, rfl, by simp [operatorRules]⟩
  · exact ⟨"%", returns .mod, rfl, by simp [operatorRules]⟩
  · exact ⟨"(", returns .openParen, rfl, by simp [operatorRules]⟩
  · exact ⟨")", returns .closeParen, rfl, by simp [operatorRules]⟩
  · exact ⟨".", returns .attributeSeparator, rfl, by simp [operatorRules]⟩
  · exact ⟨",", returns .comma, rfl, by simp [operatorRules]⟩

theorem longest_word_append {w : String} {action : Action} {t : Text} (hw : w.toList ≠ []) :
    (word w action).pattern.longest (w.toList ++ t) ≠ none := by
  show (Regex.literal w.toList).longest _ ≠ none
  rw [Regex.longest_literal hw, if_pos (List.prefix_append _ _)]
  exact nofun

/-- The rules of both kinds of tags. -/
theorem tagRules_subset {s : LexState} (hs : InTag s) : tagRules ⊆ lexer.rules s := by
  obtain ⟨condition, eat⟩ := s
  rcases hs with hs | hs <;> cases hs
  · exact List.subset_append_right variableRules tagRules
  · exact List.subset_append_right blockRules tagRules

theorem exists_rule {s : LexState} (hs : InTag s) {t : Text} (h : StartsToken s.condition t) :
    ∃ r ∈ lexer.rules s, r.pattern.longest t ≠ none := by
  have htag : ∀ {r : Rule Char Action}, r ∈ tagRules → r.pattern.longest t ≠ none →
      ∃ r ∈ lexer.rules s, r.pattern.longest t ≠ none := fun hr h => ⟨_, tagRules_subset hs hr, h⟩
  have hliteral : ∀ {r : Rule Char Action}, r ∈ literalRules → r ∈ tagRules := fun hr =>
    List.mem_append_right _ (List.mem_cons_of_mem _ (List.mem_cons_of_mem _ hr))
  cases h with
  | letter h =>
    refine htag (hliteral (List.mem_of_getElem? (i := 6) rfl)) (longest_ne_none (n := 1) ?_ ?_)
    · simp
    · exact Regex.mem_alt.2 (.inl (Regex.cons_mem_cls.2 ⟨h, rfl⟩))
  | digit h =>
    refine htag (hliteral (List.mem_of_getElem? (i := 0) rfl)) (longest_ne_none (n := 1) ?_ ?_)
    · simp
    · exact Regex.mem_plus_cls.2 ⟨by simp, by simpa using h⟩
  | @operator a t h =>
    obtain ⟨w, action, hw, hmem⟩ := exists_operator h
    have hne : w.toList ≠ [] := by simp [hw]
    refine htag (List.mem_append_left _ hmem) ?_
    rw [← List.singleton_append, ← hw]
    exact longest_word_append hne
  | @doubled a t h =>
    rcases h with rfl | rfl
    · exact htag (List.mem_append_left _ (List.mem_of_getElem? (i := 6) rfl))
        (longest_word_append (w := "&&") (t := t) (by decide))
    · exact htag (List.mem_append_left _ (List.mem_of_getElem? (i := 9) rfl))
        (longest_word_append (w := "||") (t := t) (by decide))
  | @quote q t hq hclosed =>
    obtain ⟨u, v, rfl, hu⟩ : ∃ u v, t = u ++ q :: v ∧ q ∉ u := by
      obtain ⟨u, v, hsplit, hu⟩ := List.eq_append_cons_of_mem hclosed
      exact ⟨u, v, hsplit, hu⟩
    have hmem : (q :: (u ++ q :: v)).take (u.length + 2) ∈ (quoted q).language := by
      refine (mem_quoted (quote_ne_backslash hq)).2 ⟨u, guarded_of_not_mem hu false, ?_⟩
      rw [List.take_succ_cons, List.take_append, List.take_of_length_le (by omega)]
      simp
    have hlongest := longest_ne_none (by simp) hmem
    rcases hq with rfl | rfl
    · exact htag (List.mem_append_right _ List.mem_cons_self) hlongest
    · exact htag (List.mem_append_right _ (List.mem_cons_of_mem _ List.mem_cons_self)) hlongest
  | @underscores b t n h =>
    have hmem : (List.replicate (n + 1) '_' ++ b :: t).take (n + 2) ∈ identifier.language := by
      have htake : (List.replicate (n + 1) '_' ++ b :: t).take (n + 2) =
          List.replicate (n + 1) '_' ++ [b] := by
        rw [List.take_append, List.take_of_length_le (by simp), List.length_replicate]
        simp
      rw [htake]
      refine Regex.mem_alt.2 (.inr (Regex.mem_alt.2 (.inl (Regex.mem_seq.2 ?_))))
      refine ⟨List.replicate (n + 1) '_', ?_, [b], ?_, rfl⟩
      · exact Regex.mem_plus_cls.2 ⟨by simp, fun c hc => by simp [List.eq_of_mem_replicate hc]⟩
      · exact Regex.mem_seq.2 ⟨[b], ⟨b, h, rfl⟩, [], Regex.nil_mem_star, rfl⟩
    exact htag (hliteral (List.mem_of_getElem? (i := 6) rfl)) (longest_ne_none (by simp; omega) hmem)
  | @closer t h =>
    obtain ⟨condition, eat⟩ := s
    cases h
    exact ⟨_, List.mem_append_left _ List.mem_cons_self,
      longest_word_append (w := "\x7d\x7d") (t := t) (by decide)⟩

/-! ## Matches in a tag -/

/-- Where no rule matches, one byte is dropped. -/
theorem readable_of_none {s : LexState} (hs : InTag s) {a : Char} {u : Text}
    (h : Flex.best (lexer.rules s) (a :: u) = none) :
    Readable s.condition (a :: u) ↔ isBlank a = true := by
  constructor
  · rintro (⟨b, hb, hblank⟩ | hstart)
    · cases hb
      exact hblank
    · obtain ⟨r, hr, hlongest⟩ := exists_rule hs hstart
      exact absurd (Flex.best_eq_none_iff.1 h r hr) hlongest
  · intro hblank
    exact .inl ⟨a, rfl, hblank⟩

/-- A match in a tag drops nothing but blanks and line breaks exactly if it begins where the text
is readable. -/
theorem kept_iff {c : Flex.Config LexState} {p : Flex.Scanner.Piece LexState Token}
    (hp : p ∈ lexer.pieces c) (hs : InTag p.start.state) :
    (p.token = none → ∀ a ∈ p.text, isBlank a = true) ↔
      Readable p.start.state.condition p.start.unread := by
  obtain ⟨c', hstep, hunread⟩ := Flex.Scanner.step_of_mem_pieces hp
  have hne : p.start.unread ≠ [] := fun hnil => by
    rw [Flex.Scanner.step_eq_none_iff.2 hnil] at hstep
    cases hstep
  cases hbest : Flex.best (lexer.rules p.start.state) p.start.unread with
  | none =>
    obtain ⟨a, u, hau⟩ := List.exists_cons_of_ne_nil hne
    rw [Flex.Scanner.step, if_neg hne, hbest] at hstep
    simp only [Option.some.injEq, Prod.mk.injEq] at hstep
    obtain ⟨htoken, hc'⟩ := hstep
    have htext : p.text = [a] := by
      rw [← hc', hau] at hunread
      have hsplit : [a] ++ u = p.text ++ u := hunread
      exact (List.append_cancel_right hsplit).symm
    rw [hau] at hbest ⊢
    rw [readable_of_none hs hbest, ← htoken, htext]
    simp
  | some q =>
    obtain ⟨n, r⟩ := q
    obtain ⟨hr, hlongest⟩ := Flex.best_spec hbest
    rw [Flex.Scanner.step_of_best hne hbest] at hstep
    simp only [Option.some.injEq, Prod.mk.injEq] at hstep
    obtain ⟨htoken, hc'⟩ := hstep
    rcases isTokenRule_rules hs r hr with rfl | ⟨haction, hstarts⟩
    · -- blanks are a token of their own that is not returned
      have htext : p.text = p.start.unread.take n := by
        rw [← hc'] at hunread
        have hsplit := List.take_append_drop n p.start.unread
        exact List.append_cancel_right (hunread.symm.trans hsplit.symm)
      obtain ⟨hle, hmem, -⟩ := Regex.longest_eq_some_iff.1 hlongest
      obtain ⟨hnil, hall⟩ := Regex.mem_plus_cls.1 hmem
      have hblank : ∀ a ∈ p.start.unread.take n, isBlank a = true := by
        intro a ha
        have hspace := hall a ha
        simp only [Bool.or_eq_true, decide_eq_true_eq] at hspace
        rcases hspace with rfl | rfl <;> decide
      refine iff_of_true (fun _ => htext ▸ hblank) (.inl ?_)
      obtain ⟨a, u, hau⟩ := List.exists_cons_of_ne_nil hnil
      refine ⟨a, ?_, hblank a (by rw [hau]; exact List.mem_cons_self)⟩
      rw [← List.take_append_drop n p.start.unread, hau]
      rfl
    · exact iff_of_true (fun hnone => absurd (htoken.trans hnone) (haction _ _))
        (.inr (hstarts _ n hlongest))

end

/-- Nothing of the tags is dropped exactly if the text is readable wherever the scanner stands in
a tag. -/
theorem keepsTags_iff (text : Text) : KeepsTags text ↔
    ∀ p ∈ lexer.pieces (lexStart text), InTag p.start.state →
      Readable p.start.state.condition p.start.unread := by
  constructor
  · intro h p hp hs
    exact (kept_iff hp hs).1 (h.kept p hp hs)
  · intro h
    refine ⟨fun p hp hs => (kept_iff hp hs).2 (h p hp hs), ?_⟩
    intro p hp hs hnot
    exact absurd (h p hp hs) hnot

/-- `{{ a @ }}` is read as `{{ a }}`. -/
theorem not_keepsTags_at :
    lexer.tokens (lexStart "\x7b\x7b a @ \x7d\x7d".toList) =
        lexer.tokens (lexStart "\x7b\x7b a \x7d\x7d".toList) ∧
      Accepts "\x7b\x7b a @ \x7d\x7d".toList ∧
      ¬KeepsTags "\x7b\x7b a @ \x7d\x7d".toList := by
  refine ⟨by decide +kernel, ?_, ?_⟩
  · refine ⟨.statements (.one (.printBlock (.varRef (.identifier ['a'])))), ⟨trivial, ?_⟩, ?_⟩
    · decide +kernel
    · intro x line message l h
      cases h
  · intro h
    have hmem : (lexer.pieces (lexStart "\x7b\x7b a @ \x7d\x7d".toList))[4]? =
        some ⟨⟨⟨.inVariable, false⟩, 1, "@ \x7d\x7d".toList⟩, ['@'], none⟩ := by decide +kernel
    have hblank := h.kept _ (List.mem_of_getElem? hmem) (.inl rfl) rfl '@' List.mem_cons_self
    revert hblank
    decide

end B2
