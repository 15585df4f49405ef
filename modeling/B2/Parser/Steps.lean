import B2.Parser.Chunk

/-!
# Steps of the lexer

What one step of the scanner reads, and the state it leaves it in: outside
tags at an opening sign, in a word, in blanks and at a lone brace; in a
comment; in a tag at a closing sign and elsewhere.
-/

namespace B2

open Flex (Rule Regex Config)

/-- The values of the raw tokens, one after the other. -/
def rawText (l : List Token) : Text :=
  l.flatMap fun
    | .raw str => str
    | _ => []

/-! ## One step outside tags -/

theorem longest_word {w : String} {action : Action} {t : Text} (h : ¬w.toList <+: t) :
    (word w action).pattern.longest t = none := by
  change (Regex.literal w.toList).longest t = none
  cases hw : w.toList with
  | nil => exact absurd (hw ▸ List.nil_prefix) h
  | cons a l => rw [Regex.longest_literal (List.cons_ne_nil a l), if_neg (hw ▸ h)]

theorem longest_word_cons {w : String} {action : Action} {c d : Char} {v t : Text}
    (hw : w.toList = d :: v) (h : c ≠ d) : (word w action).pattern.longest (c :: t) = none := by
  refine longest_word fun hprefix => h ?_
  rw [hw] at hprefix
  exact (List.cons_prefix_cons.1 hprefix).1.symm

/-- A step at a fixed text that only one rule reads to its end. -/
theorem step_fixed {s : LexState} {line : Nat} {rules : List (Rule Char Action)}
    (hrules : lexer.rules s = rules) (k : Nat) (w : Text) {action : Action}
    (h : rules[k]? = some (.literal w action)) (hne : w ≠ [])
    (hothers : (rules.eraseIdx k).all fun r => (r.pattern.derivs w).isEmpty)
    (rest : Text) : lexer.step ⟨s, line, w ++ rest⟩ =
      some ((action w s).1, ⟨(action w s).2, line + Flex.newlines w, rest⟩) := by
  have hbest : Flex.best (lexer.rules s) (w ++ rest) = some (w.length, .literal w action) :=
    hrules ▸ Flex.best_literal k h hne hothers rest
  exact Flex.Scanner.step_append hne hbest rfl

section

variable (eat : Bool) (line : Nat)

/-- The rules of the opening signs. -/
def openerRules : List (Rule Char Action) := initialRules.take 4

theorem longest_opener {t : Text} (h : openerAt t = none) :
    ∀ r ∈ openerRules, r.pattern.longest t = none := by
  intro r hr
  simp only [openerRules, initialRules, List.take_succ_cons, List.take_zero, List.mem_cons,
    List.not_mem_nil, or_false] at hr
  rcases hr with rfl | rfl | rfl | rfl <;>
  · refine longest_word ?_
    rintro ⟨rest, rfl⟩
    cases h

def Opener.token : Opener → Option Token
  | .variableTag => some .variableStart
  | .blockTag | .trimmingBlockTag => some .blockStart
  | .comment => none

/-- The sign does not depend on what comes after it. -/
theorem openerAt_append {t rest : Text} {o : Opener} (h : openerAt t = some (o, rest)) :
    ∃ sign, t = sign ++ rest ∧ ∀ rest', openerAt (sign ++ rest') = some (o, rest') := by
  unfold openerAt at h
  split at h <;> cases h
  · exact ⟨['\x7b', '\x7b'], rfl, fun _ => rfl⟩
  · exact ⟨['\x7b', '%'], rfl, fun _ => rfl⟩
  · exact ⟨['\x7b', '-', '%'], rfl, fun _ => rfl⟩
  · exact ⟨['\x7b', '#'], rfl, fun _ => rfl⟩

theorem step_sign {t rest : Text} {o : Opener} (h : openerAt t = some (o, rest)) :
    lexer.step ⟨⟨.initial, eat⟩, line, t⟩ =
      some (o.token, ⟨⟨o.condition, false⟩, line, rest⟩) := by
  have hrules : lexer.rules ⟨.initial, eat⟩ = initialRules := rfl
  unfold openerAt at h
  split at h <;> cases h
  · exact step_fixed hrules 0 ['\x7b', '\x7b'] rfl (by decide) (by decide) rest
  · exact step_fixed hrules 1 ['\x7b', '%'] rfl (by decide) (by decide) rest
  · exact step_fixed hrules 2 ['\x7b', '-', '%'] rfl (by decide) (by decide) rest
  · exact step_fixed hrules 3 ['\x7b', '#'] rfl (by decide) (by decide) rest

/-- What is read at an opening sign. -/
theorem step_opener {t rest : Text} {o : Opener} (h : openerAt t = some (o, rest)) :
    ∃ tok, rawText tok.toList = [] ∧ ∀ eat line, lexer.step ⟨⟨.initial, eat⟩, line, t⟩ =
      some (tok, ⟨⟨o.condition, false⟩, line, rest⟩) :=
  ⟨o.token, by cases o <;> rfl, fun eat line => step_sign eat line h⟩

theorem longest_any_le {t : Text} : ∀ m ∈ any.longest t, m ≤ 1 := by
  intro m hm
  obtain ⟨hle, hmem, -⟩ := Regex.longest_eq_some_iff.1 hm
  obtain ⟨a, -, ha⟩ := Regex.mem_cls.1 hmem
  have := congrArg List.length ha
  rw [List.length_take, Nat.min_eq_left hle] at this
  exact this.le

theorem longest_run_cons {p : Char → Bool} {action : Action} {c : Char} (h : p c = false)
    (t : Text) : (Rule.run p action).pattern.longest (c :: t) = none :=
  Regex.longest_eq_none_of_deriv (by simp [Rule.run, Rule.of, Regex.plus, Regex.deriv, h,
    Regex.nullable, Regex.concat, Regex.isEmpty]) rfl t

theorem longest_before_cons {p : Char → Bool} {v : Text} {action : Action} {c : Char}
    (h : p c = false) (t : Text) : (Rule.before p v action).pattern.longest (c :: t) = none :=
  Regex.longest_eq_none_of_deriv (by simp [Rule.before, Regex.plus, Regex.deriv, h,
    Regex.nullable, Regex.concat, Regex.isEmpty]) (Rule.nullable_eq_false _) t

/-- Away from an opening sign, a rule after theirs is taken where none between them and it
matches and the later ones match no more. -/
theorem best_initial {t : Text} {n : Nat} (k : Nat) {r : Rule Char Action}
    (hr : initialRules[k]? = some r) (ht : openerAt t = none)
    (hbefore : ∀ r' ∈ (initialRules.take k).drop 4, r'.pattern.longest t = none)
    (h : r.pattern.longest t = some n)
    (hafter : ∀ r' ∈ initialRules.drop (k + 1), ∀ m ∈ r'.pattern.longest t, m ≤ n) :
    Flex.best initialRules t = some (n, r) := by
  obtain ⟨hk, hget⟩ := List.getElem?_eq_some_iff.1 hr
  have hsplit : initialRules = initialRules.take k ++ r :: initialRules.drop (k + 1) := by
    rw [← hget, List.getElem_cons_drop, List.take_append_drop]
  rw [hsplit]
  refine Flex.best_of_split h (fun r' hr' m hm => ?_) hafter
  have hnone : r'.pattern.longest t = none := by
    rw [← List.take_append_drop 4 (initialRules.take k), List.mem_append] at hr'
    rcases hr' with hr' | hr'
    · rw [List.take_take] at hr'
      exact longest_opener ht r' (List.take_subset_take_left _ (Nat.min_le_left 4 k) hr')
    · exact hbefore r' hr'
  rw [hnone] at hm
  cases hm

theorem step_initial {w rest : Text} {n : Nat} {r : Rule Char Action} {tok : Option Token}
    {s : LexState} (hne : w ≠ []) (h : Flex.best initialRules (w ++ rest) = some (n, r))
    (hn : n = w.length + r.trailing) (haction : r.action w ⟨.initial, eat⟩ = (tok, s)) :
    lexer.step ⟨⟨.initial, eat⟩, line, w ++ rest⟩ =
      some (tok, ⟨s, line + Flex.newlines w, rest⟩) := by
  have hbest : Flex.best (lexer.rules ⟨.initial, eat⟩) (w ++ rest) = some (n, r) := h
  refine (Flex.Scanner.step_append hne hbest hn).trans ?_
  rw [haction]

theorem step_word {w t : Text} (hne : w ≠ []) (hw : ∀ c ∈ w, isWord c = true)
    (ht : ∀ c ∈ t.head?, isWord c = false) :
    lexer.step ⟨⟨.initial, eat⟩, line, w ++ t⟩ =
      some (some (.raw (cString w)), ⟨⟨.initial, false⟩, line + Flex.newlines w, t⟩) := by
  obtain ⟨c, v, rfl⟩ := List.exists_cons_of_ne_nil hne
  have hc : c ≠ '\x7b' ∧ isBlank c = false := by
    simpa [isWord] using hw c List.mem_cons_self
  have hbest := best_initial 4 rfl (openerAt_cons_of_ne hc.1 (v ++ t)) (by rintro _ ⟨⟩)
    (Regex.longest_plus_cls hne hw ht) <| by
      intro r' hr' m hm
      simp only [initialRules, List.drop_succ_cons, List.drop_zero, List.mem_cons,
        List.not_mem_nil, or_false] at hr'
      rcases hr' with rfl | rfl | rfl
      · rw [longest_before_cons hc.2] at hm
        cases hm
      · rw [longest_run_cons hc.2] at hm
        cases hm
      · exact (longest_any_le m hm).trans (by simp)
  exact step_initial eat line hne hbest rfl rfl

theorem step_blank {w t : Text} (hne : w ≠ []) (hw : ∀ c ∈ w, isBlank c = true)
    (ht : ∀ c ∈ t.head?, isBlank c = false) :
    lexer.step ⟨⟨.initial, eat⟩, line, w ++ t⟩ =
      some (if eat || decide ("\x7b-%".toList <+: t) then none else some (.raw (cString w)),
        ⟨⟨.initial, eat⟩, line + Flex.newlines w, t⟩) := by
  obtain ⟨c, v, rfl⟩ := List.exists_cons_of_ne_nil hne
  have hc : isBlank c = true := hw c List.mem_cons_self
  have hopener : openerAt (c :: (v ++ t)) = none := by
    refine openerAt_cons_of_ne ?_ _
    rintro rfl
    exact absurd hc (by decide)
  have hword : ∀ r' ∈ (initialRules.take 5).drop 4, r'.pattern.longest (c :: (v ++ t)) = none := by
    intro r' hr'
    simp only [initialRules, List.take_succ_cons, List.take_zero, List.drop_succ_cons,
      List.drop_zero, List.mem_singleton] at hr'
    subst hr'
    exact longest_run_cons (by simp [isWord, hc]) _
  have hbefore := Regex.longest_seq_plus_str (v := "\x7b-%".toList) hne hw ht
    ⟨'\x7b', rfl, by decide⟩
  have hrun := Regex.longest_plus_cls hne hw ht
  by_cases htrim : "\x7b-%".toList <+: t
  · rw [if_pos htrim] at hbefore
    have hbest := best_initial 5 rfl hopener hword hbefore <| by
      intro r' hr' m hm
      simp only [initialRules, List.drop_succ_cons, List.drop_zero, List.mem_cons,
        List.not_mem_nil, or_false] at hr'
      rcases hr' with rfl | rfl
      · cases hrun.symm.trans hm
        exact Nat.le_add_right _ _
      · exact (longest_any_le m hm).trans (by simp)
    exact step_initial eat line hne hbest rfl (by
      rw [decide_eq_true htrim, Bool.or_true]
      rfl)
  · rw [if_neg htrim] at hbefore
    have hbest := best_initial 6 rfl hopener (by
      intro r' hr'
      simp only [initialRules, List.take_succ_cons, List.take_zero, List.drop_succ_cons,
        List.drop_zero, List.mem_cons, List.not_mem_nil, or_false] at hr'
      rcases hr' with rfl | rfl
      · exact hword _ List.mem_cons_self
      · exact hbefore) hrun <| by
        intro r' hr' m hm
        simp only [initialRules, List.drop_succ_cons, List.drop_zero, List.mem_singleton] at hr'
        subst hr'
        exact (longest_any_le m hm).trans (by simp)
    exact step_initial eat line hne hbest rfl (by
      rw [decide_eq_false htrim, Bool.or_false]
      cases eat <;> rfl)

theorem step_brace {t : Text} (h : openerAt ('\x7b' :: t) = none) :
    lexer.step ⟨⟨.initial, eat⟩, line, '\x7b' :: t⟩ =
      some (some (.raw ['\x7b']), ⟨⟨.initial, eat⟩, line, t⟩) := by
  have hbest := best_initial 7 rfl h (by
    intro r' hr'
    simp only [initialRules, List.take_succ_cons, List.take_zero, List.drop_succ_cons,
      List.drop_zero, List.mem_cons, List.not_mem_nil, or_false] at hr'
    rcases hr' with rfl | rfl | rfl
    · exact longest_run_cons (by decide) _
    · exact longest_before_cons (by decide) _
    · exact longest_run_cons (by decide) _) (Regex.longest_cls_cons (by decide) t) nofun
  exact step_initial eat line (w := ['\x7b']) (by simp) hbest rfl rfl

end

/-! ## Comments and tags -/

theorem afterComment_append {w t : Text} (hw : ∀ c ∈ w, c ≠ '#') :
    afterComment (w ++ t) = afterComment t := by
  induction w with
  | nil => rfl
  | cons c w ih =>
    rw [List.cons_append, afterComment]
    · exact ih fun d hd => hw d (List.mem_cons_of_mem _ hd)
    · rintro u rfl
      exact absurd rfl (hw '#' List.mem_cons_self)

/-- One step in a comment. -/
theorem step_comment (eat : Bool) (line : Nat) (t : Text) (hne : t ≠ []) :
    ∃ line', (∃ rest, afterComment t = some rest ∧
      lexer.step ⟨⟨.inComment, eat⟩, line, t⟩ = some (none, ⟨⟨.initial, eat⟩, line', rest⟩)) ∨
    ∃ rest, afterComment t = afterComment rest ∧
      lexer.step ⟨⟨.inComment, eat⟩, line, t⟩ = some (none, ⟨⟨.inComment, eat⟩, line', rest⟩) := by
  have hrules : lexer.rules ⟨.inComment, eat⟩ = commentRules := rfl
  obtain ⟨c, u, rfl⟩ := List.exists_cons_of_ne_nil hne
  by_cases hc : c = '#'
  · subst hc
    by_cases hend : "#\x7d".toList <+: '#' :: u
    · obtain ⟨rest, hrest⟩ := hend
      rw [← hrest]
      exact ⟨_, .inl ⟨rest, rfl,
        step_fixed hrules 0 ['#', '\x7d'] rfl (by decide) (by decide) rest⟩⟩
    · have hbest : Flex.best (lexer.rules ⟨.inComment, eat⟩) ('#' :: u) =
          some (1, .of any ignore rfl) := by
        rw [hrules, commentRules, Flex.best_cons_of_none (longest_word hend),
          Flex.best_cons_of_none (longest_run_cons (by decide) u),
          Flex.best_cons_of_later_none rfl]
        exact congrArg (Option.map (·, Rule.of any ignore rfl))
          (Regex.longest_cls_cons (by decide) u)
      refine ⟨_, .inr ⟨u, ?_, Flex.Scanner.step_append (w := ['#']) (by simp) hbest rfl⟩⟩
      rw [afterComment]
      rintro rest - rfl
      exact hend ⟨rest, rfl⟩
  · obtain ⟨w, rest, hsplit, hne', hw, hrest⟩ :=
      Regex.exists_run (p := (· ≠ '#')) (decide_eq_true hc) u
    have hbest : Flex.best (lexer.rules ⟨.inComment, eat⟩) (w ++ rest) =
        some (w.length, .run (· ≠ '#') ignore) := by
      have hlongest := Regex.longest_plus_cls hne' hw hrest
      rw [hrules, commentRules, Flex.best_cons_of_none]
      · refine Flex.best_of_split (n := w.length) hlongest
          (fun _ hr => absurd hr List.not_mem_nil) fun r' hr' m hm => ?_
        rw [List.mem_singleton.1 hr'] at hm
        exact (longest_any_le m hm).trans (List.length_pos_iff.2 hne')
      · rw [← hsplit]
        exact longest_word_cons rfl hc
    rw [hsplit, afterComment_append fun d hd => of_decide_eq_true (hw d hd)]
    exact ⟨_, .inr ⟨rest, rfl, Flex.Scanner.step_append hne' hbest rfl⟩⟩

/-- What is read at a closing sign. -/
theorem step_closer {c : Condition} (eat : Bool) (line : Nat) {t rest : Text} {trim : Bool}
    (h : closerAt c t = some (trim, rest)) :
    ∃ tok line', rawText tok.toList = [] ∧ lexer.step ⟨⟨c, eat⟩, line, t⟩ =
      some (tok, ⟨⟨.initial, trim || eat⟩, line', rest⟩) := by
  unfold closerAt at h
  split at h <;> cases h
  · have hrules : lexer.rules ⟨.inVariable, eat⟩ = variableRules ++ tagRules := rfl
    exact ⟨some .variableEnd, _, rfl,
      step_fixed hrules 0 ['\x7d', '\x7d'] rfl (by decide) (by decide) rest⟩
  · have hrules : lexer.rules ⟨.inBlock, eat⟩ = blockRules ++ tagRules := rfl
    exact ⟨some .blockEnd, _, rfl,
      step_fixed hrules 0 ['%', '\x7d'] rfl (by decide) (by decide) rest⟩
  · have hrules : lexer.rules ⟨.inBlock, eat⟩ = blockRules ++ tagRules := rfl
    exact ⟨some .blockEnd, _, rfl,
      step_fixed hrules 1 ['%', '-', '\x7d'] rfl (by decide) (by decide) rest⟩

/-- An action that stays in the tag and returns no raw text. -/
def TagAction (r : Rule Char Action) : Prop :=
  ∀ text s, (r.action text s).2 = s ∧ rawText (r.action text s).1.toList = []

theorem tagAction_tagRules : ∀ r ∈ tagRules, TagAction r := by
  simp only [tagRules, operatorRules, literalRules, List.forall_mem_append, List.forall_mem_cons]
  simp only [TagAction, word, Rule.literal, Rule.of, quotedRule, returns, returnsText]
  simp [rawText]

theorem tagAction_blockRules : ∀ r ∈ blockRules.drop 2, TagAction r := by
  simp only [blockRules, List.drop_succ_cons, List.drop_zero, List.forall_mem_cons]
  simp only [TagAction, word, blanks, Rule.literal, Rule.run, Rule.of, returns, ignore]
  simp [rawText]

/-- Within a tag the scanner stays in it, and what it returns is not raw text. -/
theorem step_tag {c : Condition} (hc : c = .inVariable ∨ c = .inBlock) {eat : Bool} {line : Nat}
    {t : Text} (h : closerAt c t = none) {tok : Option Token} {c' : Config LexState}
    (hstep : lexer.step ⟨⟨c, eat⟩, line, t⟩ = some (tok, c')) :
    c'.state = ⟨c, eat⟩ ∧ rawText tok.toList = [] := by
  rw [Flex.Scanner.step] at hstep
  split_ifs at hstep
  cases hb : Flex.best (lexer.rules ⟨c, eat⟩) t with
  | none =>
    rw [hb] at hstep
    cases hstep
    exact ⟨rfl, rfl⟩
  | some p =>
    rw [hb] at hstep
    cases hstep
    obtain ⟨hmem, hlongest⟩ := Flex.best_spec (n := p.1) (r := p.2) hb
    have hword : ∀ w action, p.2 = word w action → w.toList <+: t := by
      intro w action hp
      by_contra hprefix
      rw [hp, longest_word hprefix] at hlongest
      cases hlongest
    suffices TagAction p.2 from this _ _
    rcases hc with rfl | rfl
    · rcases List.mem_append.1 hmem with hmem | hmem
      · rcases List.mem_cons.1 hmem with hp | hmem
        · obtain ⟨rest, rfl⟩ := hword _ _ hp
          cases h
        · rw [List.mem_singleton.1 hmem]
          exact fun _ _ => ⟨rfl, rfl⟩
      · exact tagAction_tagRules _ hmem
    · rcases List.mem_append.1 hmem with hmem | hmem
      · rcases List.mem_cons.1 hmem with hp | hmem
        · obtain ⟨rest, rfl⟩ := hword _ _ hp
          cases h
        · rcases List.mem_cons.1 hmem with hp | hmem
          · obtain ⟨rest, rfl⟩ := hword _ _ hp
            cases h
          · exact tagAction_blockRules _ hmem
      · exact tagAction_tagRules _ hmem

end B2
