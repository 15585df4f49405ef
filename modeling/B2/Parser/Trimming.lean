import B2.Parser.Tags

/-!
# Trimming delimiters

A template in which some of the `%}` and `{%` around its blocks are replaced by `%-}`
and `{-%`. The scanner makes the same steps as before and returns the same tokens,
less some raw text of blanks (`trimTokens_drops`).
-/

namespace B2

open Flex (Rule Regex)
open Flex.Scanner (Piece)

/-! ## The new template -/

/-- What `%-}` and `{-%` are in the place of. -/
def trimmed (p : Piece LexState Token) : Text :=
  if p.token = some .blockEnd ∧ p.text = "%\x7d".toList then "%-\x7d".toList
  else if p.token = some .blockStart ∧ p.text = "\x7b%".toList then "\x7b-%".toList
  else p.text

/-- How a match is spelled. The delimiters are those that the scanner takes for one. -/
def spelled (chosen : Piece LexState Token → Bool) (p : Piece LexState Token) : Text :=
  if chosen p then trimmed p else p.text

def trimDelimiters (chosen : Piece LexState Token → Bool) (l : List (Piece LexState Token)) :
    Text :=
  l.flatMap (spelled chosen)

/-! ## Its tokens -/

/-- The blanks between tags that no token is returned for, before `rest`. -/
def eats (condition : Condition) (eat : Bool) (text rest : Text) : Bool :=
  condition = .initial && text.head?.any isBlank && (eat || decide ("\x7b-%".toList <+: rest))

/-- `eat_whitespace` after a match. -/
def eatAfter (condition : Condition) (eat : Bool) (text : Text) : Bool :=
  match condition with
  | .initial => eat && (text = ['\x7b'] || text.head?.any isBlank)
  | .inBlock => eat || text = "%-\x7d".toList
  | _ => eat

/-- The tokens of the matches, less the blanks that the new delimiters eat. -/
def trimTokens (chosen : Piece LexState Token → Bool) : Bool → List (Piece LexState Token) →
    List Token
  | _, [] => []
  | eat, p :: l =>
    (if eats p.start.state.condition eat (spelled chosen p) (trimDelimiters chosen l) then []
      else p.token.toList) ++
    trimTokens chosen (eatAfter p.start.state.condition eat (spelled chosen p)) l

/-- The tokens without some raw text of blanks. -/
inductive Drops : List Token → List Token → Prop
  | nil : Drops [] []
  | keep {l l' : List Token} (token : Token) (h : Drops l l') : Drops (token :: l) (token :: l')
  | drop {l l' : List Token} {w : Text} (hw : ∀ c ∈ w, isBlank c = true) (h : Drops l l') :
    Drops (.raw w :: l) l'

/-- A match is spelled as before, or it is a delimiter. -/
theorem spelled_cases (chosen : Piece LexState Token → Bool) (p : Piece LexState Token) :
    spelled chosen p = p.text ∨
    (p.token = some .blockEnd ∧ p.text = ['%', '\x7d'] ∧
      spelled chosen p = ['%', '-', '\x7d']) ∨
    (p.token = some .blockStart ∧ p.text = ['\x7b', '%'] ∧
      spelled chosen p = ['\x7b', '-', '%']) := by
  unfold spelled trimmed
  split_ifs with _ hend hstart
  · exact .inr (.inl ⟨hend.1, hend.2, rfl⟩)
  · exact .inr (.inr ⟨hstart.1, hstart.2, rfl⟩)
  · exact .inl rfl
  · exact .inl rfl

/-! ## How far the texts agree -/

def Signless (v : Text) : Prop := ∀ c ∈ v, c ≠ '%' ∧ c ≠ '\x7b'

instance (v : Text) : Decidable (Signless v) := List.decidableBAll (fun c => c ≠ '%' ∧ c ≠ '\x7b') v

/-- Two texts agree up to the first `%` or `{`, and that character too. -/
def Alike (x y : Text) : Prop := ∀ v : Text, Signless v.dropLast → (v <+: x ↔ v <+: y)

section

variable {a : Char} {v w x y : Text}

theorem Signless.of_cons (h : Signless (a :: v).dropLast) : Signless v.dropLast := by
  cases v with
  | nil => nofun
  | cons b v => exact fun c hc => h c (List.mem_cons_of_mem _ hc)

theorem alike_refl : Alike x x := fun _ _ => Iff.rfl

theorem Alike.append (h : Alike x y) : Alike (w ++ x) (w ++ y) := by
  induction w with
  | nil => exact h
  | cons b w ih =>
    intro v hv
    cases v with
    | nil => exact iff_of_true List.nil_prefix List.nil_prefix
    | cons a v =>
      rw [List.cons_append, List.cons_append, List.cons_prefix_cons, List.cons_prefix_cons,
        ih v hv.of_cons]

/-- After a character that both have, one more may be any. -/
theorem Alike.prefix_iff (h : Alike x y) (hw : w ≠ []) (hv : Signless v.tail.dropLast) :
    v <+: w ++ x ↔ v <+: w ++ y := by
  obtain ⟨b, w, rfl⟩ := List.exists_cons_of_ne_nil hw
  cases v with
  | nil => exact iff_of_true List.nil_prefix List.nil_prefix
  | cons a v =>
    rw [List.cons_append, List.cons_append, List.cons_prefix_cons, List.cons_prefix_cons,
      h.append v hv]

theorem Alike.head? (h : Alike x y) : x.head? = y.head? := by
  have hsingle : ∀ {z : Text} {c : Char}, [c] <+: z ↔ z.head? = some c := by
    intro z c
    cases z with
    | nil => simp
    | cons d z => simp [List.cons_prefix_cons, eq_comm]
  ext c
  rw [← hsingle, ← hsingle]
  exact h [c] nofun

end

section

variable {chosen : Piece LexState Token → Bool} {l : List (Piece LexState Token)}
  {p : Piece LexState Token}

/-- A match is spelled as before, or it is a delimiter. -/
theorem trimDelimiters_cons (chosen : Piece LexState Token → Bool) (p : Piece LexState Token)
    (l : List (Piece LexState Token)) : ∃ w, trimDelimiters chosen (p :: l) =
      w ++ trimDelimiters chosen l ∧ (w = p.text ∨
    (p.token = some .blockEnd ∧ p.text = ['%', '\x7d'] ∧ w = ['%', '-', '\x7d']) ∨
    (p.token = some .blockStart ∧ p.text = ['\x7b', '%'] ∧ w = ['\x7b', '-', '%'])) :=
  ⟨spelled chosen p, List.flatMap_cons, spelled_cases chosen p⟩

theorem trimDelimiters_alike (chosen : Piece LexState Token → Bool) :
    ∀ l : List (Piece LexState Token), Alike (l.flatMap Piece.text) (trimDelimiters chosen l)
  | [] => alike_refl
  | p :: l => by
    have ih := trimDelimiters_alike chosen l
    obtain ⟨w, hw, hcases⟩ := trimDelimiters_cons chosen p l
    have hdelimiter : ∀ {a b c : Char} {x y : Text}, a = '%' ∨ a = '\x7b' →
        Alike (a :: b :: x) (a :: c :: y) := by
      intro a b c x y ha v hv
      match v with
      | [] => exact iff_of_true List.nil_prefix List.nil_prefix
      | [d] => simp [List.cons_prefix_cons]
      | d :: e :: v =>
        have hd := hv d List.mem_cons_self
        have hne : d ≠ a := by
          rintro rfl
          exact ha.elim hd.1 hd.2
        simp [List.cons_prefix_cons, hne]
    rw [hw, List.flatMap_cons]
    rcases hcases with rfl | ⟨-, htext, rfl⟩ | ⟨-, htext, rfl⟩
    · exact ih.append
    · rw [htext]
      exact hdelimiter (.inl rfl)
    · rw [htext]
      exact hdelimiter (.inr rfl)

/-- Nothing is added but signs. -/
theorem mem_of_mem_trimDelimiters {c : Char} (hc : c ≠ '-') (h : c ∈ trimDelimiters chosen l) :
    c ∈ l.flatMap Piece.text := by
  induction l with
  | nil => cases h
  | cons p l ih =>
    obtain ⟨w, hw, hcases⟩ := trimDelimiters_cons chosen p l
    rw [hw, List.mem_append] at h
    rw [List.flatMap_cons, List.mem_append]
    refine h.imp (fun h => ?_) ih
    rcases hcases with rfl | ⟨-, htext, rfl⟩ | ⟨-, htext, rfl⟩
    · exact h
    · rw [htext]
      simp only [List.mem_cons, List.not_mem_nil, or_false] at h ⊢
      tauto
    · rw [htext]
      simp only [List.mem_cons, List.not_mem_nil, or_false] at h ⊢
      tauto

end

/-! ## Rules that stop at a delimiter -/

/-- What the rule matches after a first character stands in the part in which the texts agree. -/
def Local (r : Rule Char Action) : Prop := ∀ u ∈ r.pattern.language, Signless u.tail.dropLast

theorem Local.longest {r : Rule Char Action} (h : Local r) {w x y : Text} (hw : w ≠ [])
    (hxy : Alike x y) : r.pattern.longest (w ++ x) = r.pattern.longest (w ++ y) :=
  Regex.longest_congr fun u hu => hxy.prefix_iff hw (h u hu)

theorem local_word {w : String} {action : Action} (h : Signless w.toList.tail.dropLast) :
    Local (word w action) := by
  intro u hu
  have hmem : ∀ l : Text, u ∈ (Regex.literal l).language → u = l := by
    intro l hl
    cases l with
    | nil => cases hl
    | cons a l => exact Regex.mem_str.1 hl
  rwa [hmem w.toList hu]

theorem local_over {r : Rule Char Action}
    (h : r.pattern.Over fun c => c ≠ '%' ∧ c ≠ '\x7b') : Local r := fun _ hu c hc =>
  h.of_mem hu c (List.mem_of_mem_tail (List.mem_of_mem_dropLast hc))

theorem local_any {action : Action} : Local (.of any action rfl) := by
  intro u hu
  obtain ⟨a, -, rfl⟩ := Regex.mem_cls.1 hu
  nofun

theorem signless_of_class {q : Char → Bool} (h : q '%' = false ∧ q '\x7b' = false) :
    ∀ a, q a = true → a ≠ '%' ∧ a ≠ '\x7b' := by
  intro a ha
  constructor
  · rintro rfl
    rw [h.1] at ha
    cases ha
  · rintro rfl
    rw [h.2] at ha
    cases ha

theorem local_blanks : Local blanks :=
  local_over ⟨signless_of_class (by decide), signless_of_class (by decide)⟩

theorem local_operatorRules : ∀ r ∈ operatorRules, Local r := by
  simp only [operatorRules, List.forall_mem_cons]
  and_intros <;> first
    | exact local_word (by decide)
    | exact fun r hr => absurd hr List.not_mem_nil

theorem local_variableRules : ∀ r ∈ variableRules, Local r := by
  simp only [variableRules, List.forall_mem_cons]
  exact ⟨local_word (by decide), local_blanks, fun r hr => absurd hr List.not_mem_nil⟩

theorem local_blockRules : ∀ r ∈ blockRules, Local r := by
  simp only [blockRules, List.forall_mem_cons]
  and_intros <;> first
    | exact local_word (by decide)
    | exact local_blanks
    | exact fun r hr => absurd hr List.not_mem_nil

theorem over_digits : digits.Over fun c => c ≠ '%' ∧ c ≠ '\x7b' :=
  ⟨signless_of_class (by decide), signless_of_class (by decide)⟩

theorem over_double : double.Over fun c => c ≠ '%' ∧ c ≠ '\x7b' := by
  have hdot : (Regex.str ['.']).Over fun c => c ≠ '%' ∧ c ≠ '\x7b' :=
    ⟨signless_of_class (by decide), trivial⟩
  exact ⟨⟨⟨over_digits, hdot, over_digits⟩, ⟨hdot, over_digits⟩, over_digits⟩,
    ⟨signless_of_class (by decide), ⟨signless_of_class (by decide), trivial⟩, over_digits⟩, trivial⟩

theorem over_identifier : identifier.Over fun c => c ≠ '%' ∧ c ≠ '\x7b' :=
  ⟨signless_of_class (by decide),
    ⟨⟨signless_of_class (by decide), signless_of_class (by decide)⟩, signless_of_class (by decide),
      signless_of_class (by decide)⟩, signless_of_class (by decide), signless_of_class (by decide)⟩

theorem local_literalRules : ∀ r ∈ literalRules, Local r := by
  simp only [literalRules, List.forall_mem_cons]
  refine ⟨local_over over_digits, local_over over_double, ?_, ?_, ?_, ?_,
    local_over over_identifier, fun r hr => absurd hr List.not_mem_nil⟩ <;>
  exact local_word (by decide)

/-- All rules of a tag but those of string literals. -/
theorem local_rules {s : LexState} (hs : InTag s) : ∀ r ∈ lexer.rules s,
    Local r ∨ r = quotedRule '"' ∨ r = quotedRule '\'' := by
  have htag : ∀ r ∈ tagRules, Local r ∨ r = quotedRule '"' ∨ r = quotedRule '\'' := by
    simp only [tagRules, List.forall_mem_append, List.forall_mem_cons]
    exact ⟨fun r hr => .inl (local_operatorRules r hr), .inr (.inl trivial), .inr (.inr trivial),
      fun r hr => .inl (local_literalRules r hr)⟩
  obtain ⟨condition, eat⟩ := s
  rcases hs with hs | hs <;> cases hs
  · exact List.forall_mem_append.2 ⟨fun r hr => .inl (local_variableRules r hr), htag⟩
  · exact List.forall_mem_append.2 ⟨fun r hr => .inl (local_blockRules r hr), htag⟩

/-! ## The same match -/

theorem longest_quoted_other {q c : Char} (h : c ≠ q) (t : Text) :
    (quotedRule q).pattern.longest (c :: t) = none :=
  Regex.longest_eq_none_of_deriv (by
    simp [quotedRule, Rule.of, quoted, Regex.deriv, Regex.nullable, Regex.concat, Regex.isEmpty, h])
    rfl t

section

variable {q : Char} {w x y : Text}

/-- A literal ends where it ended if there is no new quote. -/
theorem longest_quoted_append (hq : q ≠ '\\') (hmem : q ∈ y → q ∈ x)
    (h : (quoted q).longest (q :: (w ++ x)) = some (w.length + 1)) :
    (quoted q).longest (q :: (w ++ y)) = some (w.length + 1) := by
  obtain ⟨e, t, hsplit, he, hn⟩ := exists_guarded_of_longest hq h
  have hlength : w.length = e.length + 1 := by omega
  obtain ⟨rfl, rfl⟩ : w = e ++ [q] ∧ x = t := by
    rw [← List.singleton_append, ← List.append_assoc] at hsplit
    exact List.append_inj hsplit (by simp [hlength])
  have hassoc : ∀ z : Text, e ++ [q] ++ z = e ++ q :: z := fun z => by simp
  rw [hassoc, hlength] at h ⊢
  have hends := (longest_guarded hq he x).1 h
  exact (longest_guarded hq he y).2 fun hback => hends ⟨hback.1, hmem hback.2⟩

/-- In a tag, the same rule is taken before the new rest. -/
theorem best_tag {s : LexState} (hs : InTag s) (hw : w ≠ []) (hxy : Alike x y)
    (hquotes : ∀ q, q = '"' ∨ q = '\'' → q ∈ y → q ∈ x) {line : Nat} {tok : Option Token}
    {c : Flex.Config LexState} (hstep : lexer.step ⟨s, line, w ++ x⟩ = some (tok, c))
    (hrest : c.unread = x) :
    Flex.best (lexer.rules s) (w ++ y) = Flex.best (lexer.rules s) (w ++ x) := by
  obtain ⟨a, w, rfl⟩ := List.exists_cons_of_ne_nil hw
  by_cases hquote : a = '"' ∨ a = '\''
  · obtain ⟨condition, eat⟩ := s
    have hback := quote_ne_backslash hquote
    have hbest := best_quoted hquote hs eat
    rw [List.cons_append, List.cons_append, hbest, hbest]
    congr 1
    rw [Flex.Scanner.step, if_neg (by simp)] at hstep
    simp only [List.cons_append, hbest] at hstep
    cases hlongest : (quoted a).longest (a :: (w ++ x)) with
    | none =>
      rw [hlongest] at hstep
      obtain rfl : w = [] := by
        have hunread : (a :: (w ++ x)).drop 1 = x :=
          (congrArg Flex.Config.unread (Prod.mk.inj (Option.some.inj hstep)).2).trans hrest
        simpa using hunread
      rw [longest_quoted_eq_none_iff hback] at hlongest ⊢
      exact fun h => hlongest (hquotes a hquote h)
    | some n =>
      rw [hlongest] at hstep
      have hunread : (a :: (w ++ x)).drop n = x :=
        (congrArg Flex.Config.unread (Prod.mk.inj (Option.some.inj hstep)).2).trans hrest
      obtain ⟨hle, -⟩ := Regex.longest_eq_some_iff.1 hlongest
      have hn : n = w.length + 1 := by
        have := congrArg List.length hunread
        simp only [List.length_drop, List.length_cons, List.length_append] at this hle
        omega
      rw [hn] at hlongest ⊢
      exact longest_quoted_append hback (hquotes a hquote) hlongest
  · rw [not_or] at hquote
    refine Flex.best_congr fun r hr => ?_
    rcases local_rules hs r hr with hlocal | rfl | rfl
    · exact (hlocal.longest hw hxy).symm
    · rw [List.cons_append, List.cons_append, longest_quoted_other hquote.1,
        longest_quoted_other hquote.1]
    · rw [List.cons_append, List.cons_append, longest_quoted_other hquote.2,
        longest_quoted_other hquote.2]

end

/-! ## The same step -/

theorem eq_of_longest_word {v : String} {action : Action} {w x : Text} (hv : v.toList ≠ [])
    (h : (word v action).pattern.longest (w ++ x) = some w.length) : w = v.toList := by
  change (Regex.literal v.toList).longest (w ++ x) = some w.length at h
  rw [Regex.longest_literal hv] at h
  split_ifs at h with hprefix
  obtain ⟨rest, hrest⟩ := hprefix
  exact (List.append_inj hrest (Option.some.inj h)).1.symm

/-- The scanner is at the same place, and the flag may be set in addition. -/
structure LexState.Le (s s' : LexState) : Prop where
  condition : s.condition = s'.condition
  eat : s.eatWhitespace = true → s'.eatWhitespace = true

theorem LexState.Le.rules {s s' : LexState} (h : s.Le s') : lexer.rules s' = lexer.rules s := by
  obtain ⟨condition, eat⟩ := s
  obtain ⟨condition', eat'⟩ := s'
  obtain rfl : condition = condition' := h.condition
  rfl

/-- An action that neither looks at the flag nor sets it. -/
def Steady (action : Action) : Prop :=
  ∀ text s s', s.condition = s'.condition → (action text s).1 = (action text s').1 ∧
    (action text s).2.condition = (action text s').2.condition ∧
    (action text s').2.eatWhitespace = s'.eatWhitespace

theorem steady_ignore : Steady ignore := fun _ _ _ h => ⟨rfl, h, rfl⟩

theorem steady_begins (c : Condition) (t : Option Token) : Steady (begins c t) :=
  fun _ _ _ _ => ⟨rfl, rfl, rfl⟩

theorem steady_operatorRules : ∀ r ∈ operatorRules, Steady r.action := by
  simp only [operatorRules, List.forall_mem_cons]
  and_intros <;> first
    | exact fun _ _ _ h => ⟨rfl, h, rfl⟩
    | exact fun r hr => absurd hr List.not_mem_nil

/-- All rules of tags and comments but the one of `%-}`. -/
theorem steady_rules {s : LexState} (hs : s.condition ≠ .initial) :
    ∀ r ∈ lexer.rules s, Steady r.action ∨ (s.condition = .inBlock ∧
      r = word "%-\x7d" (setEat true (begins .initial (some .blockEnd)))) := by
  have htag : ∀ r ∈ tagRules, Steady r.action := by
    simp only [tagRules, literalRules, List.forall_mem_append, List.forall_mem_cons]
    refine ⟨steady_operatorRules, ?_⟩
    and_intros <;> first
      | exact fun _ _ _ h => ⟨rfl, h, rfl⟩
      | exact fun r hr => absurd hr List.not_mem_nil
  obtain ⟨condition, eat⟩ := s
  cases condition with
  | initial => exact absurd rfl hs
  | inVariable =>
    refine List.forall_mem_append.2 ⟨?_, fun r hr => .inl (htag r hr)⟩
    simp only [variableRules, List.forall_mem_cons]
    exact ⟨.inl (steady_begins _ _), .inl steady_ignore,
      fun r hr => absurd hr List.not_mem_nil⟩
  | inBlock =>
    refine List.forall_mem_append.2 ⟨?_, fun r hr => .inl (htag r hr)⟩
    simp only [blockRules, List.forall_mem_cons]
    refine ⟨.inl (steady_begins _ _), .inr ⟨trivial, trivial⟩, .inl steady_ignore, ?_⟩
    and_intros <;> first
      | exact .inl fun _ _ _ h => ⟨rfl, h, rfl⟩
      | exact fun r hr => absurd hr List.not_mem_nil
  | inComment =>
    show ∀ r ∈ commentRules, _
    simp only [commentRules, List.forall_mem_cons]
    exact ⟨.inl (steady_begins _ _), .inl steady_ignore, .inl steady_ignore,
      fun r hr => absurd hr List.not_mem_nil⟩

section

variable {s s' : LexState} {line : Nat} {w x y : Text} {tok : Option Token}
  {c : Flex.Config LexState}

/-- In a comment, the same rule is taken before the new rest. -/
theorem best_comment (hs : s.condition = .inComment) (hw : w ≠ []) (hxy : Alike x y)
    (hstep : lexer.step ⟨s, line, w ++ x⟩ = some (tok, c)) (hrest : c.unread = x) :
    Flex.best (lexer.rules s) (w ++ y) = Flex.best (lexer.rules s) (w ++ x) := by
  obtain ⟨condition, eat⟩ := s
  obtain rfl : condition = .inComment := hs
  have hbound : ∀ m ∈ (Regex.plus (.cls (· ≠ '#'))).longest (w ++ x), m ≤ w.length := by
    intro m hm
    have hrun : (Rule.run (· ≠ '#') ignore : Rule Char Action) ∈ commentRules := by
      simp [commentRules]
    cases hbest : Flex.best commentRules (w ++ x) with
    | none =>
      have hnone : (Regex.plus (.cls (· ≠ '#'))).longest (w ++ x) = none :=
        Flex.best_eq_none_iff.1 hbest _ hrun
      rw [hnone] at hm
      cases hm
    | some p =>
      obtain ⟨n, r⟩ := p
      have hmax := Flex.best_max hbest _ hrun m hm
      obtain ⟨hmem, hlongest⟩ := Flex.best_spec hbest
      have htrailing : r.trailing = 0 := by
        simp only [commentRules, List.mem_cons, List.not_mem_nil, or_false] at hmem
        rcases hmem with rfl | rfl | rfl <;> rfl
      have hspec := Flex.Scanner.step_of_best (L := lexer) (r := r) (n := n)
        (c := ⟨⟨.inComment, eat⟩, line, w ++ x⟩) (by simp [hw]) hbest
      rw [hstep, htrailing] at hspec
      simp only [Option.some.injEq, Prod.mk.injEq] at hspec
      have hlength := congrArg List.length (hspec.2 ▸ hrest)
      obtain ⟨hle, -⟩ := Regex.longest_eq_some_iff.1 hlongest
      simp only [List.length_drop, List.length_append] at hlength hle
      omega
  refine Flex.best_congr fun r hr => ?_
  change r ∈ commentRules at hr
  simp only [commentRules, List.mem_cons, List.not_mem_nil, or_false] at hr
  rcases hr with rfl | rfl | rfl
  · exact ((local_word (by decide)).longest hw hxy).symm
  · exact (Regex.longest_run_congr hxy.head? hbound).symm
  · exact (local_any.longest hw hxy).symm

/-- The end of a step is known. -/
theorem step_split {u : Text} {line₁ : Nat} {s₁ : LexState} {tok₁ : Option Token}
    {v : Text} (h : lexer.step ⟨s, line, u⟩ = some (tok₁, ⟨s₁, line₁, v⟩))
    (hstep : lexer.step ⟨s, line, u⟩ = some (tok, c)) (hrest : c.unread = x) :
    tok = tok₁ ∧ c.state = s₁ ∧ x = v := by
  rw [h] at hstep
  simp only [Option.some.injEq, Prod.mk.injEq] at hstep
  obtain ⟨rfl, rfl⟩ := hstep
  exact ⟨rfl, rfl, hrest.symm⟩

theorem eatAfter_eq_self {condition : Condition} (hs : condition ≠ .initial) (eat : Bool)
    (hw : ¬(condition = .inBlock ∧ w = ['%', '-', '\x7d'])) : eatAfter condition eat w = eat := by
  cases condition with
  | initial => exact absurd rfl hs
  | inVariable | inComment => rfl
  | inBlock =>
    have hne : w ≠ ['%', '-', '\x7d'] := fun h => hw ⟨rfl, h⟩
    show (eat || decide (w = ['%', '-', '\x7d'])) = eat
    rw [decide_eq_false hne, Bool.or_false]

/-- A step outside the text between tags. -/
theorem step_keep_tag (hs : s.condition ≠ .initial) (hle : s.Le s') (hw : w ≠ [])
    (hxy : Alike x y) (hquotes : ∀ q, q = '"' ∨ q = '\'' → q ∈ y → q ∈ x)
    (hstep : lexer.step ⟨s, line, w ++ x⟩ = some (tok, c)) (hrest : c.unread = x) (line' : Nat) :
    ∃ line'', lexer.step ⟨s', line', w ++ y⟩ = some (tok, ⟨⟨c.state.condition,
        eatAfter s.condition s'.eatWhitespace w⟩, line'', y⟩) ∧
      (c.state.eatWhitespace = true → eatAfter s.condition s'.eatWhitespace w = true) := by
  by_cases htrim : s.condition = .inBlock ∧ w = ['%', '-', '\x7d']
  · obtain ⟨condition, eat⟩ := s
    obtain ⟨condition', eat'⟩ := s'
    obtain ⟨rfl, rfl⟩ := htrim
    obtain rfl : Condition.inBlock = condition' := hle.condition
    have hrules : ∀ eat, lexer.rules ⟨.inBlock, eat⟩ = blockRules ++ tagRules := fun _ => rfl
    have hold := @step_fixed ⟨.inBlock, eat⟩ line _ (hrules eat) 1 ['%', '-', '\x7d'] _ rfl (by decide)
      (by decide) x
    have hnew := @step_fixed ⟨.inBlock, eat'⟩ line' _ (hrules eat') 1 ['%', '-', '\x7d'] _ rfl (by decide)
      (by decide) y
    have heat : eatAfter .inBlock eat' ['%', '-', '\x7d'] = true := Bool.or_true eat'
    obtain ⟨rfl, hstate, -⟩ := step_split hold hstep hrest
    show ∃ line'', _ = some (_, Flex.Config.mk (LexState.mk _ (eatAfter .inBlock eat' _)) _ _) ∧
      (_ → eatAfter .inBlock eat' _ = true)
    rw [heat, hstate]
    exact ⟨_, hnew, fun _ => rfl⟩
  rw [eatAfter_eq_self hs s'.eatWhitespace htrim]
  have hbest : Flex.best (lexer.rules s) (w ++ y) = Flex.best (lexer.rules s) (w ++ x) := by
    cases hcondition : s.condition with
    | initial => exact absurd hcondition hs
    | inVariable => exact best_tag (.inl hcondition) hw hxy hquotes hstep hrest
    | inBlock => exact best_tag (.inr hcondition) hw hxy hquotes hstep hrest
    | inComment => exact best_comment hcondition hw hxy hstep hrest
  rcases Flex.Scanner.step_same hw hbest hstep hrest with ⟨rfl, hstate, hnew⟩ |
    ⟨r, hr, rfl, hstate, hnew⟩
  · obtain ⟨line'', hnew⟩ := hnew s' line' hle.rules
    rw [hstate, hle.condition]
    exact ⟨line'', hnew, hle.eat⟩
  · obtain ⟨hmem, hlongest⟩ := Flex.best_spec hr
    obtain ⟨line'', hnew⟩ := hnew s' line' hle.rules
    rcases steady_rules hs r hmem with hsteady | ⟨hblock, rfl⟩
    · obtain ⟨htoken, hcondition, heat⟩ := hsteady w s s' hle.condition
      obtain ⟨-, -, hkept⟩ := hsteady w s s rfl
      rw [htoken, hstate, hcondition, hkept, ← heat]
      exact ⟨line'', hnew, fun h => heat ▸ hle.eat h⟩
    · exact absurd ⟨hblock, eq_of_longest_word (by decide) hlongest⟩ htrim

/-- Blanks leave the flag as it is. -/
theorem eats_of_blank (hne : w ≠ []) (hw : ∀ c ∈ w, isBlank c = true) (eat : Bool) (y : Text) :
    eatAfter .initial eat w = eat ∧
      eats .initial eat w y = (eat || decide ("\x7b-%".toList <+: y)) := by
  obtain ⟨a, v, rfl⟩ := List.exists_cons_of_ne_nil hne
  have ha : isBlank a = true := hw a List.mem_cons_self
  simp [eatAfter, eats, ha]

/-- Other text between tags clears it. -/
theorem eats_of_word (hne : w ≠ []) (hw : ∀ c ∈ w, isWord c = true) (eat : Bool) (y : Text) :
    eatAfter .initial eat w = false ∧ eats .initial eat w y = false := by
  obtain ⟨a, v, rfl⟩ := List.exists_cons_of_ne_nil hne
  have ha : a ≠ '\x7b' ∧ isBlank a = false := by simpa [isWord] using hw a List.mem_cons_self
  simp [eatAfter, eats, ha]

/-- A sign too. -/
theorem eats_of_sign {sign rest : Text} {o : Opener} (h : openerAt (sign ++ rest) = some (o, rest))
    (eat : Bool) (y : Text) :
    eatAfter .initial eat sign = false ∧ eats .initial eat sign y = false := by
  unfold openerAt at h
  split at h <;> cases h
  all_goals
    rename_i heq
    first
      | obtain rfl : sign = ['\x7b', '\x7b'] := List.append_cancel_right heq
        exact ⟨Bool.and_false eat, rfl⟩
      | obtain rfl : sign = ['\x7b', '%'] := List.append_cancel_right heq
        exact ⟨Bool.and_false eat, rfl⟩
      | obtain rfl : sign = ['\x7b', '-', '%'] := List.append_cancel_right heq
        exact ⟨Bool.and_false eat, rfl⟩
      | obtain rfl : sign = ['\x7b', '#'] := List.append_cancel_right heq
        exact ⟨Bool.and_false eat, rfl⟩

theorem eats_of_tag {condition : Condition} (hs : condition ≠ .initial) (eat : Bool) :
    eats condition eat w y = false := by
  simp [eats, hs]

theorem openerAt_brace {t : Text} : openerAt ('\x7b' :: t) = none ↔
    ¬['\x7b'] <+: t ∧ ¬['%'] <+: t ∧ ¬['#'] <+: t ∧ ¬['-', '%'] <+: t := by
  constructor
  · intro h
    refine ⟨?_, ?_, ?_, ?_⟩ <;>
    · rintro ⟨rest, rfl⟩
      cases h
  · rintro ⟨hbrace, hpercent, hhash, htrim⟩
    unfold openerAt
    split
    · rename_i rest heq
      obtain ⟨-, rfl⟩ := List.cons.inj heq
      exact absurd ⟨rest, rfl⟩ hbrace
    · rename_i rest heq
      obtain ⟨-, rfl⟩ := List.cons.inj heq
      exact absurd ⟨rest, rfl⟩ hpercent
    · rename_i rest heq
      obtain ⟨-, rfl⟩ := List.cons.inj heq
      exact absurd ⟨rest, rfl⟩ htrim
    · rename_i rest heq
      obtain ⟨-, rfl⟩ := List.cons.inj heq
      exact absurd ⟨rest, rfl⟩ hhash
    · rfl

/-- A step between tags. -/
theorem step_keep_initial (hs : s.condition = .initial) (hle : s.Le s') (hw : w ≠ [])
    (hxy : Alike x y)
    (htrim : c.state.condition = .initial → "\x7b-%".toList <+: x → "\x7b-%".toList <+: y)
    (hstep : lexer.step ⟨s, line, w ++ x⟩ = some (tok, c)) (hrest : c.unread = x) (line' : Nat) :
    ∃ line'', lexer.step ⟨s', line', w ++ y⟩ =
        some (if eats .initial s'.eatWhitespace w y then none else tok,
          ⟨⟨c.state.condition, eatAfter .initial s'.eatWhitespace w⟩, line'', y⟩) ∧
      (c.state.eatWhitespace = true → eatAfter .initial s'.eatWhitespace w = true) := by
  obtain ⟨condition, eat⟩ := s
  obtain rfl : condition = .initial := hs
  obtain ⟨condition', eat'⟩ := s'
  obtain rfl : Condition.initial = condition' := hle.condition
  obtain ⟨a, u, hau⟩ := List.exists_cons_of_ne_nil (show w ++ x ≠ [] by simp [hw])
  cases hopen : openerAt (w ++ x) with
  | some r =>
    obtain ⟨o, rest⟩ := r
    obtain ⟨sign, hsign, hany⟩ := openerAt_append hopen
    obtain ⟨rfl, hstate, rfl⟩ := step_split (step_sign eat line hopen) hstep hrest
    obtain rfl := List.append_cancel_right hsign
    obtain ⟨hafter, heats⟩ := eats_of_sign hopen eat' y
    rw [hstate, hafter, heats]
    exact ⟨_, step_sign eat' line' (hany y), by rintro ⟨⟩⟩
  | none =>
    by_cases hblank : isBlank a = true
    · obtain ⟨w₀, rest, hsplit, hne, hall, hhead⟩ := Regex.exists_run hblank u
      rw [← hau] at hsplit
      have hold := step_blank eat line hne hall hhead
      rw [← hsplit] at hold
      obtain ⟨rfl, hstate, rfl⟩ := step_split hold hstep hrest
      obtain rfl := List.append_cancel_right hsplit
      rw [hxy.head?] at hhead
      have hnew := step_blank eat' line' hne hall hhead
      obtain ⟨hafter, heats⟩ := eats_of_blank hne hall eat' y
      rw [hstate, hafter, heats]
      have hsame : (if (eat' || decide ("\x7b-%".toList <+: y)) = true then none
          else if (eat || decide ("\x7b-%".toList <+: x)) = true then none
            else some (Token.raw (cString w))) =
          if (eat' || decide ("\x7b-%".toList <+: y)) = true then none
            else some (Token.raw (cString w)) := by
        by_cases hdropped : (eat' || decide ("\x7b-%".toList <+: y)) = true
        · rw [if_pos hdropped, if_pos hdropped]
        · have hkept : ¬(eat || decide ("\x7b-%".toList <+: x)) = true := by
            simp only [Bool.or_eq_true, decide_eq_true_eq] at hdropped ⊢
            exact fun h => hdropped (h.imp hle.eat (htrim (by rw [hstate])))
          rw [if_neg hdropped, if_neg hdropped, if_neg hkept]
      rw [hsame]
      exact ⟨_, hnew, hle.eat⟩
    · by_cases hbrace : a = '\x7b'
      · subst hbrace
        rw [hau] at hopen
        have hold := step_brace eat line hopen
        rw [← hau] at hold
        obtain ⟨rfl, hstate, rfl⟩ := step_split hold hstep hrest
        obtain rfl : w = ['\x7b'] := List.append_cancel_right hau
        have hopen' : openerAt ('\x7b' :: y) = none := by
          rw [openerAt_brace] at hopen ⊢
          rwa [← hxy ['\x7b'] (by decide), ← hxy ['%'] (by decide), ← hxy ['#'] (by decide),
            ← hxy ['-', '%'] (by decide)]
        have hafter : eatAfter .initial eat' ['\x7b'] = eat' := Bool.and_true eat'
        rw [hstate, hafter]
        exact ⟨_, step_brace eat' line' hopen', hle.eat⟩
      · have hword : isWord a = true := by simp [isWord, hblank, hbrace]
        obtain ⟨w₀, rest, hsplit, hne, hall, hhead⟩ := Regex.exists_run hword u
        rw [← hau] at hsplit
        have hold := step_word eat line hne hall hhead
        rw [← hsplit] at hold
        obtain ⟨rfl, hstate, rfl⟩ := step_split hold hstep hrest
        obtain rfl := List.append_cancel_right hsplit
        rw [hxy.head?] at hhead
        obtain ⟨hafter, heats⟩ := eats_of_word hne hall eat' y
        rw [hstate, hafter, heats]
        exact ⟨_, step_word eat' line' hne hall hhead, by rintro ⟨⟩⟩

end

/-! ## The tokens -/

/-- The action returns no sign of a block tag. -/
def ReturnsInner (action : Action) : Prop :=
  ∀ text s, (action text s).1 ≠ some .blockStart ∧ (action text s).1 ≠ some .blockEnd

theorem returnsInner_tagRules : ∀ r ∈ tagRules, ReturnsInner r.action := by
  simp only [tagRules, operatorRules, literalRules, List.forall_mem_append, List.forall_mem_cons]
  and_intros <;> first
    | exact fun _ _ => ⟨by rintro ⟨⟩, by rintro ⟨⟩⟩
    | exact fun r hr => absurd hr List.not_mem_nil

theorem returnsInner_variableRules : ∀ r ∈ variableRules ++ tagRules, ReturnsInner r.action := by
  refine List.forall_mem_append.2 ⟨?_, returnsInner_tagRules⟩
  simp only [variableRules, List.forall_mem_cons]
  and_intros <;> first
    | exact fun _ _ => ⟨by rintro ⟨⟩, by rintro ⟨⟩⟩
    | exact fun r hr => absurd hr List.not_mem_nil

theorem returnsInner_commentRules : ∀ r ∈ commentRules, ReturnsInner r.action := by
  simp only [commentRules, List.forall_mem_cons]
  and_intros <;> first
    | exact fun _ _ => ⟨by rintro ⟨⟩, by rintro ⟨⟩⟩
    | exact fun r hr => absurd hr List.not_mem_nil

/-- Only the rules of block tags return the end of one. -/
theorem condition_of_blockEnd {c c' : Flex.Config LexState}
    (h : lexer.step c = some (some .blockEnd, c')) : c.state.condition = .inBlock := by
  obtain ⟨r, hr, text, htoken⟩ := Flex.Scanner.exists_action_of_step h
  obtain ⟨⟨condition, eat⟩, line, t⟩ := c
  cases condition with
  | inBlock => rfl
  | inVariable => exact absurd htoken (returnsInner_variableRules r hr _ _).2
  | inComment => exact absurd htoken (returnsInner_commentRules r hr _ _).2
  | initial =>
    have hrun : ∀ (text : Text) (s : LexState),
        (if s.eatWhitespace then (none, s) else returnsText .raw text s).1 ≠ some .blockEnd := by
      intro text s
      split_ifs <;> rintro ⟨⟩
    have hinitial : ∀ r ∈ initialRules, ∀ text s, (r.action text s).1 ≠ some .blockEnd := by
      simp only [initialRules, List.forall_mem_cons]
      and_intros <;> first
        | exact fun r hr => absurd hr List.not_mem_nil
        | exact hrun
        | rintro _ _ ⟨⟩
    exact absurd htoken (hinitial r hr _ _)

/-- Only the rules outside tags return the start of a block tag. -/
theorem condition_of_blockStart {c c' : Flex.Config LexState}
    (h : lexer.step c = some (some .blockStart, c')) : c.state.condition = .initial := by
  obtain ⟨r, hr, text, htoken⟩ := Flex.Scanner.exists_action_of_step h
  obtain ⟨⟨condition, eat⟩, line, t⟩ := c
  cases condition with
  | initial => rfl
  | inVariable => exact absurd htoken (returnsInner_variableRules r hr _ _).1
  | inComment => exact absurd htoken (returnsInner_commentRules r hr _ _).1
  | inBlock =>
    have hblock : ∀ r ∈ blockRules, ∀ text s, (r.action text s).1 ≠ some .blockStart := by
      simp only [blockRules, List.forall_mem_cons]
      and_intros <;> first
        | exact fun r hr => absurd hr List.not_mem_nil
        | rintro _ _ ⟨⟩
    rcases List.mem_append.1 hr with hr | hr
    · exact absurd htoken (hblock r hr _ _)
    · exact absurd htoken (returnsInner_tagRules r hr _ _).1

section

variable (chosen : Piece LexState Token → Bool) {c c₁ : Flex.Config LexState}
  {tok : Option Token}

/-- A `{-%` at which the scanner stands is kept. -/
theorem trim_prefix_trimDelimiters (hs : c.state.condition = .initial)
    (h : "\x7b-%".toList <+: c.unread) :
    "\x7b-%".toList <+: trimDelimiters chosen (lexer.pieces c) := by
  obtain ⟨⟨condition, eat⟩, line, t⟩ := c
  obtain rfl : condition = .initial := hs
  obtain ⟨rest, rfl⟩ := h
  have hopen : openerAt ("\x7b-%".toList ++ rest) = some (.trimmingBlockTag, rest) := rfl
  obtain ⟨w, -, hw, hpieces⟩ := Flex.Scanner.pieces_of_step (step_sign eat line hopen)
  obtain rfl := List.append_cancel_right hw
  obtain ⟨w', hw', hcases⟩ := trimDelimiters_cons chosen
    ⟨⟨⟨.initial, eat⟩, line, "\x7b-%".toList ++ rest⟩, "\x7b-%".toList, some .blockStart⟩
    (lexer.pieces ⟨⟨.inBlock, false⟩, line, rest⟩)
  rw [hpieces]
  show _ <+: trimDelimiters chosen (_ :: _)
  refine hw' ▸ ?_
  rcases hcases with rfl | ⟨-, htext, -⟩ | ⟨-, htext, -⟩
  · exact List.prefix_append _ _
  · exact absurd (show ['\x7b', '-', '%'] = ['%', '\x7d'] from htext) (by decide)
  · exact absurd (show ['\x7b', '-', '%'] = ['\x7b', '%'] from htext) (by decide)

/-- One step on the new template. -/
theorem step_trimDelimiters (hstep : lexer.step c = some (tok, c₁)) {w : Text} (hne : w ≠ [])
    (hw : c.unread = w ++ c₁.unread) {s : LexState} (hle : c.state.Le s) (line : Nat) :
    ∃ line₁, lexer.step ⟨s, line, spelled chosen ⟨c, w, tok⟩ ++
          trimDelimiters chosen (lexer.pieces c₁)⟩ =
        some (if eats c.state.condition s.eatWhitespace (spelled chosen ⟨c, w, tok⟩)
            (trimDelimiters chosen (lexer.pieces c₁)) then none else tok,
          ⟨⟨c₁.state.condition,
            eatAfter c.state.condition s.eatWhitespace (spelled chosen ⟨c, w, tok⟩)⟩,
            line₁, trimDelimiters chosen (lexer.pieces c₁)⟩) ∧
      (c₁.state.eatWhitespace = true →
        eatAfter c.state.condition s.eatWhitespace (spelled chosen ⟨c, w, tok⟩) = true) := by
  have hxy := trimDelimiters_alike chosen (lexer.pieces c₁)
  rw [Flex.Scanner.pieces_text] at hxy
  have hquotes : ∀ q, q = '"' ∨ q = '\'' →
      q ∈ trimDelimiters chosen (lexer.pieces c₁) → q ∈ c₁.unread := by
    intro q hq h
    rw [← Flex.Scanner.pieces_text (L := lexer) c₁]
    refine mem_of_mem_trimDelimiters ?_ h
    rcases hq with rfl | rfl <;> decide
  have htrim := trim_prefix_trimDelimiters chosen (c := c₁)
  generalize trimDelimiters chosen (lexer.pieces c₁) = y at hxy hquotes htrim
  obtain ⟨⟨condition, eat⟩, line₀, t⟩ := c
  obtain rfl : t = w ++ c₁.unread := hw
  rcases spelled_cases chosen ⟨⟨⟨condition, eat⟩, line₀, w ++ c₁.unread⟩, w, tok⟩ with
    hspelled | ⟨htoken, htext, hspelled⟩ | ⟨htoken, htext, hspelled⟩
  · rw [hspelled]
    by_cases hs : condition = .initial
    · subst hs
      exact step_keep_initial rfl hle hne hxy htrim hstep rfl line
    · rw [eats_of_tag hs]
      exact step_keep_tag hs hle hne hxy hquotes hstep rfl line
  · obtain rfl : tok = some .blockEnd := htoken
    obtain rfl : condition = .inBlock := condition_of_blockEnd hstep
    obtain rfl : w = ['%', '\x7d'] := htext
    obtain ⟨condition, eat'⟩ := s
    obtain rfl : Condition.inBlock = condition := hle.condition
    have hrules : ∀ eat, lexer.rules ⟨.inBlock, eat⟩ = blockRules ++ tagRules := fun _ => rfl
    have hold := @step_fixed ⟨.inBlock, eat⟩ line₀ _ (hrules eat) 0 ['%', '\x7d'] _ rfl (by decide)
      (by decide) c₁.unread
    have hnew := @step_fixed ⟨.inBlock, eat'⟩ line _ (hrules eat') 1 ['%', '-', '\x7d'] _ rfl (by decide)
      (by decide) y
    obtain ⟨-, hstate, -⟩ := step_split hold hstep rfl
    have heat : eatAfter .inBlock eat' ['%', '-', '\x7d'] = true := Bool.or_true eat'
    rw [hspelled, hstate, heat]
    exact ⟨_, hnew, fun _ => rfl⟩
  · obtain rfl : tok = some .blockStart := htoken
    obtain rfl : condition = .initial := condition_of_blockStart hstep
    obtain rfl : w = ['\x7b', '%'] := htext
    obtain ⟨condition, eat'⟩ := s
    obtain rfl : Condition.initial = condition := hle.condition
    have hold := step_sign eat line₀ (t := ['\x7b', '%'] ++ c₁.unread) rfl
    have hnew := step_sign eat' line (t := ['\x7b', '-', '%'] ++ y) rfl
    obtain ⟨-, hstate, -⟩ := step_split hold hstep rfl
    have heat : eatAfter .initial eat' ['\x7b', '-', '%'] = false := Bool.and_false eat'
    rw [hspelled, hstate, heat]
    exact ⟨_, hnew, nofun⟩

/-- What is eaten is raw text of blanks, or was eaten before. -/
theorem token_of_eats (hstep : lexer.step c = some (tok, c₁)) {w rest : Text}
    (hw : c.unread = w ++ c₁.unread) {eat : Bool}
    (h : eats c.state.condition eat (spelled chosen ⟨c, w, tok⟩) rest = true) :
    tok = none ∨ ∃ v, tok = some (.raw v) ∧ ∀ b ∈ v, isBlank b = true := by
  simp only [eats, Bool.and_eq_true, decide_eq_true_eq] at h
  obtain ⟨⟨hcondition, hhead⟩, -⟩ := h
  obtain ⟨⟨condition, eat⟩, line, t⟩ := c
  obtain rfl : condition = .initial := hcondition
  obtain rfl : t = w ++ c₁.unread := hw
  rcases spelled_cases chosen ⟨⟨⟨.initial, eat⟩, line, w ++ c₁.unread⟩, w, tok⟩ with
    hspelled | ⟨-, -, hspelled⟩ | ⟨-, -, hspelled⟩
  · rw [hspelled] at hhead
    obtain ⟨a, u, rfl⟩ : ∃ a u, w = a :: u := by
      cases w with
      | nil => cases hhead
      | cons a u => exact ⟨a, u, rfl⟩
    obtain ⟨w₀, x, hsplit, hne, hall, hx⟩ := Regex.exists_run (p := isBlank) hhead (u ++ c₁.unread)
    have hold := step_blank eat line hne hall hx
    rw [← hsplit] at hold
    obtain ⟨rfl, -, -⟩ := step_split hold hstep rfl
    split_ifs
    · exact .inl rfl
    · exact .inr ⟨_, rfl, fun b hb => hall b ((List.takeWhile_prefix _).subset hb)⟩
  · rw [hspelled] at hhead
    cases hhead
  · rw [hspelled] at hhead
    cases hhead

/-- The tokens of the new template, from wherever the scanner stands. -/
theorem tokens_trimDelimiters {s : LexState} (hle : c.state.Le s) (line : Nat) :
    lexer.tokens ⟨s, line, trimDelimiters chosen (lexer.pieces c)⟩ =
      trimTokens chosen s.eatWhitespace (lexer.pieces c) := by
  induction hn : c.unread.length using Nat.strong_induction_on generalizing c s line with
  | _ n ih =>
    cases hstep : lexer.step c with
    | none =>
      have hnil := Flex.Scanner.step_eq_none_iff.1 hstep
      rw [Flex.Scanner.pieces_of_nil hnil, Flex.Scanner.tokens_of_nil rfl]
      rfl
    | some p =>
      obtain ⟨tok, c₁⟩ := p
      obtain ⟨w, hne, hw, hpieces⟩ := Flex.Scanner.pieces_of_step hstep
      obtain ⟨line₁, hnew, hnext⟩ := step_trimDelimiters chosen hstep hne hw hle line
      have hlt := Flex.Scanner.length_of_step hstep
      have htext : trimDelimiters chosen (lexer.pieces c) =
          spelled chosen ⟨c, w, tok⟩ ++ trimDelimiters chosen (lexer.pieces c₁) := by
        rw [hpieces]
        rfl
      have hrest := ih c₁.unread.length (hn ▸ hlt) (c := c₁)
        (s := ⟨c₁.state.condition, eatAfter c.state.condition s.eatWhitespace
          (spelled chosen ⟨c, w, tok⟩)⟩) ⟨rfl, hnext⟩ line₁ rfl
      rw [htext, Flex.Scanner.tokens_of_step hnew, hrest, hpieces, trimTokens]
      split_ifs <;> rfl

/-- Only raw text of blanks is gone. -/
theorem trimTokens_drops (eat : Bool) :
    Drops (lexer.tokens c) (trimTokens chosen eat (lexer.pieces c)) := by
  induction hn : c.unread.length using Nat.strong_induction_on generalizing c eat with
  | _ n ih =>
    cases hstep : lexer.step c with
    | none =>
      have hnil := Flex.Scanner.step_eq_none_iff.1 hstep
      rw [Flex.Scanner.tokens_of_nil hnil, Flex.Scanner.pieces_of_nil hnil]
      exact .nil
    | some p =>
      obtain ⟨tok, c₁⟩ := p
      obtain ⟨w, -, hw, hpieces⟩ := Flex.Scanner.pieces_of_step hstep
      have hlt := Flex.Scanner.length_of_step hstep
      have hrest := ih c₁.unread.length (hn ▸ hlt) (eatAfter c.state.condition eat
        (spelled chosen ⟨c, w, tok⟩)) rfl
      rw [Flex.Scanner.tokens_of_step hstep, hpieces, trimTokens]
      split_ifs with heats
      · rcases token_of_eats chosen hstep hw heats with rfl | ⟨v, rfl, hv⟩
        · exact hrest
        · exact .drop hv hrest
      · cases tok with
        | none => exact hrest
        | some token => exact .keep token hrest

end

end B2
