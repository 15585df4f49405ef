import B2.Parser.Lexer

/-!
# String literals

What the scanner reads at the start of a string literal. The pattern lets a
backslash be a character of its own, so the match goes on past every quote
that has a backslash before it, escaped or not (`Guarded`), to the last quote
it can reach.
-/

namespace B2

open Flex (Rule Regex Config best)
open Flex.Regex (language)

/-- `t` as it is written in a literal with the quotes `q`. -/
def escapeQuotes (q : Char) : Text → Text
  | [] => []
  | c :: t => if c = q ∨ c = '\\' then '\\' :: c :: escapeQuotes q t else c :: escapeQuotes q t

/-- Every `q` comes directly after a backslash; `before` says whether one comes before the
first character. -/
def Guarded (q : Char) : Bool → Text → Prop
  | _, [] => True
  | before, c :: t => (c = q → before = true) ∧ Guarded q (c = '\\') t

/-! ## The pattern -/

section

variable {q : Char}

theorem Guarded.mono {t : Text} {before : Bool} (h : Guarded q before t) : Guarded q true t := by
  cases t with
  | nil => trivial
  | cons c t => exact ⟨fun _ => rfl, h.2⟩

theorem guarded_of_not_mem {t : Text} (h : q ∉ t) : ∀ before, Guarded q before t := by
  induction t with
  | nil => exact fun _ => trivial
  | cons c t ih =>
    rw [List.mem_cons, not_or] at h
    exact fun before => ⟨fun hc => absurd hc.symm h.1, ih h.2 _⟩

/-- Whether a backslash comes before what follows `t`. -/
def endsInBackslash (before : Bool) (t : Text) : Bool :=
  match t.getLast? with
  | some c => c = '\\'
  | none => before

theorem endsInBackslash_cons (before : Bool) (c : Char) (t : Text) :
    endsInBackslash before (c :: t) = endsInBackslash (c = '\\') t := by
  cases t with
  | nil => rfl
  | cons d t =>
    rw [endsInBackslash, endsInBackslash, List.getLast?_cons_cons]
    cases h : (d :: t).getLast? with
    | none => simp at h
    | some _ => rfl

theorem guarded_append (t u : Text) : ∀ before, Guarded q before (t ++ u) ↔
    Guarded q before t ∧ Guarded q (endsInBackslash before t) u := by
  induction t with
  | nil => simp [Guarded, endsInBackslash]
  | cons c t ih =>
    intro before
    rw [List.cons_append, Guarded, ih, Guarded, endsInBackslash_cons, and_assoc]

/-- The pattern between the quotes. -/
def inner (q : Char) : Regex Char :=
  .alt (.cls (· ≠ q)) (.alt (.str ['\\', q]) (.str ['\\', '\\']))

theorem cons_mem_inner {c : Char} {u : Text} : c :: u ∈ (inner q).language ↔
    (c ≠ q ∧ u = []) ∨ (c = '\\' ∧ (u = [q] ∨ u = ['\\'])) := by
  simp only [inner, Regex.mem_alt, Regex.cons_mem_cls, Regex.mem_str, List.cons.injEq,
    decide_eq_true_eq, and_or_left]

theorem mem_star_inner (hq : q ≠ '\\') : ∀ t : Text,
    t ∈ (Regex.star (inner q)).language ↔ Guarded q false t
  | [] => iff_of_true Regex.nil_mem_star trivial
  | c :: t => by
    have ht := mem_star_inner hq t
    rw [Regex.cons_mem_star, Guarded]
    simp only [cons_mem_inner, Bool.false_eq_true, imp_false]
    constructor
    · rintro ⟨u, v, ⟨hc, rfl⟩ | ⟨rfl, rfl | rfl⟩, hv, rfl⟩
      · have := ht.1 hv
        by_cases hb : c = '\\'
        · exact ⟨hc, by simpa [hb] using this.mono⟩
        · exact ⟨hc, by simpa [hb] using this⟩
      · have hv := (mem_star_inner hq v).1 hv
        refine ⟨hq.symm, fun _ => by simp, ?_⟩
        simpa [hq] using hv
      · have hv := (mem_star_inner hq v).1 hv
        exact ⟨hq.symm, fun h => absurd h hq.symm, by simpa using hv.mono⟩
    · rintro ⟨hc, hguarded⟩
      by_cases hb : c = '\\'
      · subst hb
        match t with
        | [] => exact ⟨[], [], .inl ⟨hc, rfl⟩, Regex.nil_mem_star, rfl⟩
        | d :: t =>
          obtain ⟨-, hguarded⟩ := hguarded
          by_cases hd : d = q
          · rw [hd] at hguarded ⊢
            refine ⟨[q], t, .inr ⟨rfl, .inl rfl⟩, (mem_star_inner hq t).2 ?_, rfl⟩
            simpa [hq] using hguarded
          · exact ⟨[], d :: t, .inl ⟨hc, rfl⟩, ht.2 ⟨fun h => absurd h hd, hguarded⟩, rfl⟩
      · exact ⟨[], t, .inl ⟨hc, rfl⟩, ht.2 (by simpa [hb] using hguarded), rfl⟩
termination_by t => t.length

theorem mem_quoted (hq : q ≠ '\\') {w : Text} : w ∈ (quoted q).language ↔
    ∃ t, Guarded q false t ∧ w = q :: (t ++ [q]) := by
  have hinner : quoted q = .seq (.cls (· = q)) (.seq (.star (inner q)) (.cls (· = q))) := rfl
  simp only [hinner, Regex.mem_seq, Regex.mem_cls, decide_eq_true_eq, mem_star_inner hq]
  constructor
  · rintro ⟨_, ⟨_, rfl, rfl⟩, _, ⟨t, ht, _, ⟨_, rfl, rfl⟩, rfl⟩, rfl⟩
    exact ⟨t, ht, rfl⟩
  · rintro ⟨t, ht, rfl⟩
    exact ⟨[q], ⟨q, rfl, rfl⟩, t ++ [q], ⟨t, ht, [q], ⟨q, rfl, rfl⟩, rfl⟩, rfl⟩

/-! ## Where a literal ends -/

theorem guarded_escapeQuotes (hq : q ≠ '\\') (t : Text) :
    Guarded q false (escapeQuotes q t) := by
  induction t with
  | nil => trivial
  | cons c t ih =>
    rw [escapeQuotes]
    split_ifs with h
    · refine ⟨fun h => absurd h hq.symm, fun _ => by simp, ?_⟩
      rcases h with rfl | rfl
      · simpa [hq] using ih
      · simpa using ih.mono
    · rw [not_or] at h
      exact ⟨fun hc => absurd hc h.1, by simpa [h.2] using ih⟩

theorem endsInBackslash_escapeQuotes (t : Text) : ∀ before,
    endsInBackslash before (escapeQuotes q t) = endsInBackslash before t := by
  induction t with
  | nil => exact fun _ => rfl
  | cons c t ih =>
    intro before
    rw [escapeQuotes]
    split_ifs
    · rw [endsInBackslash_cons, endsInBackslash_cons, endsInBackslash_cons, ih]
    · rw [endsInBackslash_cons, endsInBackslash_cons, ih]

theorem endsInBackslash_false (t : Text) :
    endsInBackslash false t = true ↔ t.getLast? = some '\\' := by
  rw [endsInBackslash]
  cases t.getLast? <;> simp

/-- A prefix of the text after the opening quote that matches. -/
theorem take_mem_quoted (hq : q ≠ '\\') {x : Text} {m : Nat} (hm : m ≤ (q :: x).length) :
    (q :: x).take m ∈ (quoted q).language ↔
      ∃ body rest, Guarded q false body ∧ x = body ++ q :: rest ∧ m = body.length + 2 := by
  rw [mem_quoted hq]
  constructor
  · rintro ⟨body, hbody, htake⟩
    obtain ⟨rest, hrest⟩ : ∃ rest, q :: x = q :: (body ++ [q]) ++ rest :=
      ⟨(q :: x).drop m, by rw [← htake, List.take_append_drop]⟩
    have hlength := congrArg List.length htake
    rw [List.length_take, Nat.min_eq_left hm] at hlength
    exact ⟨body, rest, hbody, by simpa using hrest, by simpa using hlength⟩
  · rintro ⟨body, rest, hbody, rfl, rfl⟩
    refine ⟨body, hbody, ?_⟩
    have hsplit : q :: (body ++ q :: rest) = q :: (body ++ [q]) ++ rest := by simp
    rw [hsplit]
    exact List.take_left' (by simp)

/-- A literal without an end of its own goes on to the next quote. -/
theorem longest_guarded (hq : q ≠ '\\') {e : Text} (hguarded : Guarded q false e) (t : Text) :
    (quoted q).longest (q :: (e ++ q :: t)) = some (e.length + 2) ↔
      ¬(endsInBackslash false e = true ∧ q ∈ t) := by
  rw [Regex.longest_eq_some_iff]
  constructor
  · rintro ⟨-, -, hmax⟩ ⟨hback, ht⟩
    obtain ⟨t₁, t₂, rfl, hnot⟩ := List.eq_append_cons_of_mem ht
    have hbody : Guarded q false (e ++ q :: t₁) := by
      rw [guarded_append]
      exact ⟨hguarded, fun _ => hback, guarded_of_not_mem hnot _⟩
    have := hmax ((e ++ q :: t₁).length + 2) (by simp)
      ((take_mem_quoted hq (by simp)).2 ⟨e ++ q :: t₁, t₂, hbody, by simp, rfl⟩)
    simp only [List.length_append, List.length_cons] at this
    omega
  · intro h
    refine ⟨by simp, (take_mem_quoted hq (by simp)).2 ⟨e, t, hguarded, rfl, rfl⟩, ?_⟩
    intro m hm hmem
    obtain ⟨body, rest, hbody, hsplit, rfl⟩ := (take_mem_quoted hq hm).1 hmem
    by_contra hlt
    -- a longer match takes the closing quote for a part of the literal
    obtain ⟨t₁, rfl⟩ : e ++ [q] <+: body := by
      have he : e ++ [q] <+: e ++ q :: t := ⟨t, by simp⟩
      refine List.prefix_of_prefix_length_le he ⟨q :: rest, hsplit.symm⟩ ?_
      rw [List.length_append, List.length_singleton]
      omega
    have ht : t = t₁ ++ q :: rest := by simpa using hsplit
    rw [List.append_assoc, guarded_append] at hbody
    exact h ⟨hbody.2.1 rfl, by simp [ht]⟩

/-- The match ends at the closing quote unless the text ends in a backslash and another quote
comes after it; then it is longer. -/
theorem longest_quoted (hq : q ≠ '\\') (s t : Text) :
    (quoted q).longest (q :: (escapeQuotes q s ++ q :: t)) =
      some ((escapeQuotes q s).length + 2) ↔ ¬(s.getLast? = some '\\' ∧ q ∈ t) := by
  rw [longest_guarded hq (guarded_escapeQuotes hq s) t, endsInBackslash_escapeQuotes,
    endsInBackslash_false]

/-- What is matched is a literal. -/
theorem exists_guarded_of_longest (hq : q ≠ '\\') {x : Text} {n : Nat}
    (h : (quoted q).longest (q :: x) = some n) :
    ∃ e t, x = e ++ q :: t ∧ Guarded q false e ∧ n = e.length + 2 := by
  obtain ⟨hle, hmem, -⟩ := Regex.longest_eq_some_iff.1 h
  obtain ⟨e, t, he, hx, hn⟩ := (take_mem_quoted hq hle).1 hmem
  exact ⟨e, t, hx, he, hn⟩

/-- A quote that is not closed. -/
theorem longest_quoted_eq_none_iff (hq : q ≠ '\\') {x : Text} :
    (quoted q).longest (q :: x) = none ↔ q ∉ x := by
  rw [Regex.longest_eq_none_iff]
  constructor
  · intro h hmem
    obtain ⟨u, v, rfl, hu⟩ := List.eq_append_cons_of_mem hmem
    exact h (u.length + 2) (by simp)
      ((take_mem_quoted hq (by simp)).2 ⟨u, v, guarded_of_not_mem hu false, rfl, rfl⟩)
  · intro h n hn hmem
    obtain ⟨e, t, -, rfl, -⟩ := (take_mem_quoted hq hn).1 hmem
    exact h (by simp)

/-! ## Removing the escapes -/

theorem unescapeFrom_escapeQuotes (t : Text) : ∀ done : Text,
    unescapeFrom done.length (done ++ escapeQuotes q t) = done ++ t := by
  induction t with
  | nil =>
    intro done
    rw [escapeQuotes, unescapeFrom, dif_neg (by simp)]
  | cons c t ih =>
    intro done
    have ih := ih (done ++ [c])
    rw [List.append_assoc, List.append_assoc, List.length_append, List.length_singleton,
      List.singleton_append, List.singleton_append] at ih
    rw [escapeQuotes, unescapeFrom, ← ih]
    split_ifs <;> grind

theorem processStringLiteral_escapeQuotes {t : Text} (ht : '\x00' ∉ t) :
    processStringLiteral (q :: (escapeQuotes q t ++ [q])) = t := by
  have hloop := unescapeFrom_escapeQuotes (q := q) t []
  rw [List.nil_append, List.nil_append, List.length_nil] at hloop
  rw [processStringLiteral, List.drop_succ_cons, List.drop_zero, List.dropLast_concat, hloop,
    cString_eq_self ht]

/-! ## The token -/

/-- In a tag, no rule but that of the literal can start with its quote. -/
theorem best_quoted (hq : q = '"' ∨ q = '\'') {c : Condition}
    (hc : c = .inVariable ∨ c = .inBlock) (eat : Bool) (x : Text) :
    best (lexer.rules ⟨c, eat⟩) (q :: x) =
      ((quoted q).longest (q :: x)).map (·, quotedRule q) := by
  have hrules : ∃ rules rest, lexer.rules ⟨c, eat⟩ = rules ++ quotedRule q :: rest ∧
      rules.all (fun r => (r.pattern.deriv q).isEmpty) ∧
      rest.all (fun r => (r.pattern.deriv q).isEmpty) := by
    rcases hq with rfl | rfl <;> rcases hc with rfl | rfl
    · exact ⟨variableRules ++ operatorRules, quotedRule '\'' :: literalRules,
        by simp [lexer, tagRules], by decide, by decide⟩
    · exact ⟨blockRules ++ operatorRules, quotedRule '\'' :: literalRules,
        by simp [lexer, tagRules], by decide, by decide⟩
    · exact ⟨variableRules ++ operatorRules ++ [quotedRule '"'], literalRules,
        by simp [lexer, tagRules], by decide, by decide⟩
    · exact ⟨blockRules ++ operatorRules ++ [quotedRule '"'], literalRules,
        by simp [lexer, tagRules], by decide, by decide⟩
  obtain ⟨rules, rest, hrules, hbefore, hafter⟩ := hrules
  rw [hrules, Flex.best_append_of_none (Flex.longest_eq_none_of_all hbefore x),
    Flex.best_cons_of_later_none (Flex.best_eq_none (Flex.longest_eq_none_of_all hafter x))]
  rfl

/-- In a tag, the scanner returns the text of a literal and leaves what follows it. -/
def ReadsBack (q : Char) (s t : Text) : Prop :=
  ∀ (c : Condition) (eat : Bool) (line : Nat), c = .inVariable ∨ c = .inBlock →
    ∃ c' : Config LexState, c'.unread = t ∧
      lexer.step ⟨⟨c, eat⟩, line, q :: (escapeQuotes q s ++ q :: t)⟩ =
        some (some (.stringLiteral s), c')

/-- The literal is read back when the match ends at its closing quote. -/
theorem readsBack_iff_longest (hq : q = '"' ∨ q = '\'') {s : Text} (hs : '\x00' ∉ s) (t : Text) :
    ReadsBack q s t ↔ (quoted q).longest (q :: (escapeQuotes q s ++ q :: t)) =
      some ((escapeQuotes q s).length + 2) := by
  rw [ReadsBack]
  generalize hx : escapeQuotes q s ++ q :: t = x
  have hlength : (q :: x).length = (escapeQuotes q s).length + 2 + t.length := by
    rw [← hx, List.length_cons, List.length_append, List.length_cons]
    omega
  constructor
  · intro h
    obtain ⟨c', hunread, hstep⟩ := h .inVariable false 1 (.inl rfl)
    rw [Flex.Scanner.step, if_neg (by simp)] at hstep
    simp only [best_quoted hq (.inl rfl)] at hstep
    cases hlongest : (quoted q).longest (q :: x) with
    | none =>
      rw [hlongest] at hstep
      cases hstep
    | some n =>
      rw [hlongest] at hstep
      obtain ⟨hle, -⟩ := Regex.longest_eq_some_iff.1 hlongest
      have hdrop : (q :: x).drop n = t := by
        rw [← hunread]
        exact congrArg Config.unread (Prod.mk.inj (Option.some.inj hstep)).2
      have := congrArg List.length hdrop
      rw [List.length_drop] at this
      exact congrArg some (by omega)
  · intro hlongest c eat line hc
    have hsplit : q :: x = q :: (escapeQuotes q s ++ [q]) ++ t := by simp [← hx]
    have htake : (q :: x).take ((escapeQuotes q s).length + 2) = q :: (escapeQuotes q s ++ [q]) := by
      rw [hsplit]
      exact List.take_left' (by simp)
    have hdrop : (q :: x).drop ((escapeQuotes q s).length + 2) = t := by
      rw [hsplit]
      exact List.drop_left' (by simp)
    have hbest := best_quoted hq hc eat x
    rw [hlongest] at hbest
    have hstep := Flex.Scanner.step_of_best (L := lexer) (c := ⟨⟨c, eat⟩, line, q :: x⟩)
      (List.cons_ne_nil q x) hbest
    refine ⟨⟨⟨c, eat⟩, line + Flex.newlines (q :: (escapeQuotes q s ++ [q])), t⟩, rfl,
      hstep.trans ?_⟩
    simp only [quotedRule, Rule.of, Nat.sub_zero, htake, hdrop,
      processStringLiteral_escapeQuotes hs]

theorem quote_ne_backslash (hq : q = '"' ∨ q = '\'') : q ≠ '\\' := by
  rcases hq with rfl | rfl <;> decide

/-- A literal is read back exactly when its text does not end in a backslash or no quote
comes after it. -/
theorem readsBack_iff (hq : q = '"' ∨ q = '\'') {s : Text} (hs : '\x00' ∉ s) (t : Text) :
    ReadsBack q s t ↔ ¬(s.getLast? = some '\\' ∧ q ∈ t) := by
  rw [readsBack_iff_longest hq hs, longest_quoted (quote_ne_backslash hq)]

end

/-- `"a\\"` is read back before a text without double quotes. -/
theorem readsBack_backslash : ReadsBack '"' "a\\".toList " == b".toList :=
  (readsBack_iff (.inl rfl) (by decide) _).2 (by decide)

/-- Before `"b"` it goes on to the next quote. -/
theorem not_readsBack_backslash : ¬ReadsBack '"' "a\\".toList " == \"b\"".toList := by
  rw [readsBack_iff_longest (.inl rfl) (by decide), longest_quoted (by decide)]
  decide

end B2
