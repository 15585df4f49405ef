import B2.Flex.Regex

/-!
# Scanners

How a scanner generated by flex reads its text: the rule with the longest match
is taken, the first one of several, the text it matches less its trailing
context is consumed, and its action may return a token. Where no rule matches,
the default rule consumes one character. A rule carries the proof that it
consumes something, so a scanner reads every text to its end.
-/

namespace Flex

/-- A rule; of what the pattern matches the last `trailing` characters are not consumed. -/
structure Rule (α β : Type) where
  pattern : Regex α
  trailing : Nat
  action : β
  advances : ∀ w ∈ pattern.language, trailing < w.length

namespace Rule

variable {α β : Type}

/-- A rule without trailing context. -/
def of (pattern : Regex α) (action : β) (h : pattern.nullable = false) : Rule α β where
  pattern := pattern
  trailing := 0
  action := action
  advances w hw := by
    rw [List.length_pos_iff]
    rintro rfl
    rw [← Regex.nullable_iff, h] at hw
    cases hw

def literal [DecidableEq α] (w : List α) (action : β) : Rule α β :=
  .of (.literal w) action (Regex.nullable_literal w)

def run (p : α → Bool) (action : β) : Rule α β := .of (.plus (.cls p)) action rfl

theorem nullable_eq_false (r : Rule α β) : r.pattern.nullable = false := by
  rw [Bool.eq_false_iff, Ne, Regex.nullable_iff]
  exact fun h => absurd (r.advances [] h) (Nat.not_lt_zero _)

/-- A run of one class before a fixed text. -/
def before [DecidableEq α] (p : α → Bool) (context : List α) (action : β) : Rule α β where
  pattern := .seq (.plus (.cls p)) (.str context)
  trailing := context.length
  action := action
  advances w hw := by
    obtain ⟨u, hu, v, hv, rfl⟩ := Language.mem_mul.1 hw
    have hne := (Regex.mem_plus_cls.1 hu).1
    rw [Regex.mem_str.1 hv, List.length_append]
    exact Nat.lt_add_of_pos_left (List.length_pos_iff.2 hne)

end Rule

/-- The first rule with the longest match, and the length of the match. -/
def best {α β : Type} : List (Rule α β) → List α → Option (Nat × Rule α β)
  | [], _ => none
  | r :: rules, l =>
    match r.pattern.longest l, best rules l with
    | none, later => later
    | some n, none => some (n, r)
    | some n, some (m, r') => if m ≤ n then some (n, r) else some (m, r')

section

variable {α β : Type} {rules : List (Rule α β)} {r : Rule α β} {l : List α} {n : Nat}

theorem best_spec (h : best rules l = some (n, r)) : r ∈ rules ∧ r.pattern.longest l = some n := by
  induction rules with
  | nil => cases h
  | cons r₀ rules ih =>
    rw [best] at h
    split at h
    · exact ⟨List.mem_cons_of_mem _ (ih h).1, (ih h).2⟩
    · rename_i hn _
      cases h
      exact ⟨List.mem_cons_self, hn⟩
    · rename_i hn hlater
      split_ifs at h
      · cases h
        exact ⟨List.mem_cons_self, hn⟩
      · cases h
        exact ⟨List.mem_cons_of_mem _ (ih hlater).1, (ih hlater).2⟩

theorem best_congr {l' : List α} (h : ∀ r ∈ rules, r.pattern.longest l = r.pattern.longest l') :
    best rules l = best rules l' := by
  induction rules with
  | nil => rfl
  | cons r rules ih =>
    rw [best, best, h r List.mem_cons_self, ih fun r hr => h r (List.mem_cons_of_mem _ hr)]

theorem best_cons_of_none (h : r.pattern.longest l = none) : best (r :: rules) l = best rules l := by
  rw [best, h]

theorem best_eq_none (h : ∀ r ∈ rules, r.pattern.longest l = none) : best rules l = none := by
  induction rules with
  | nil => rfl
  | cons r rules ih =>
    rw [best_cons_of_none (h r List.mem_cons_self)]
    exact ih fun r hr => h r (List.mem_cons_of_mem _ hr)

theorem best_eq_none_iff : best rules l = none ↔ ∀ r ∈ rules, r.pattern.longest l = none := by
  refine ⟨fun h => ?_, best_eq_none⟩
  induction rules with
  | nil => exact fun r hr => absurd hr List.not_mem_nil
  | cons r rules ih =>
    rw [best] at h
    split at h
    · rename_i hn
      exact List.forall_mem_cons.2 ⟨hn, ih h⟩
    · cases h
    · split_ifs at h

/-- No rule matches more than the one that is taken. -/
theorem best_max (h : best rules l = some (n, r)) :
    ∀ r' ∈ rules, ∀ m ∈ r'.pattern.longest l, m ≤ n := by
  induction rules generalizing n r with
  | nil => cases h
  | cons r₀ rules ih =>
    rw [best] at h
    refine List.forall_mem_cons.2 ?_
    split at h
    · rename_i hnone
      refine ⟨fun m hm => ?_, ih h⟩
      rw [hnone] at hm
      cases hm
    · rename_i n₀ hn₀ hlater
      cases h
      refine ⟨fun m hm => ?_, fun r' hr' m hm => ?_⟩
      · cases hn₀.symm.trans hm
        exact le_rfl
      · rw [best_eq_none_iff.1 hlater r' hr'] at hm
        cases hm
    · rename_i n₀ m₀ r₁ hn₀ hlater
      have hrest := ih hlater
      split_ifs at h with hle <;> cases h
      · refine ⟨fun m hm => ?_, fun r' hr' m hm => (hrest r' hr' m hm).trans hle⟩
        cases hn₀.symm.trans hm
        exact le_rfl
      · refine ⟨fun m hm => ?_, hrest⟩
        cases hn₀.symm.trans hm
        omega

theorem best_append_of_none {rules' : List (Rule α β)}
    (h : ∀ r ∈ rules, r.pattern.longest l = none) :
    best (rules ++ rules') l = best rules' l := by
  induction rules with
  | nil => rfl
  | cons r rules ih =>
    rw [List.cons_append, best_cons_of_none (h r List.mem_cons_self)]
    exact ih fun r hr => h r (List.mem_cons_of_mem _ hr)

theorem best_cons_of_later_none (h : best rules l = none) :
    best (r :: rules) l = (r.pattern.longest l).map (·, r) := by
  rw [best, h]
  cases r.pattern.longest l <;> rfl

/-- Rules none of which can start with the character. -/
theorem longest_eq_none_of_all {a : α} (h : rules.all (fun r => (r.pattern.deriv a).isEmpty))
    (l : List α) : ∀ r ∈ rules, r.pattern.longest (a :: l) = none := fun r hr =>
  Regex.longest_eq_none_of_deriv (List.all_eq_true.1 h r hr) r.nullable_eq_false l

/-- The rule that matches where the rules before it match less and those after it no more. -/
theorem best_of_split {after : List (Rule α β)} (h : r.pattern.longest l = some n)
    (hbefore : ∀ r' ∈ rules, ∀ m ∈ r'.pattern.longest l, m < n)
    (hafter : ∀ r' ∈ after, ∀ m ∈ r'.pattern.longest l, m ≤ n) :
    best (rules ++ r :: after) l = some (n, r) := by
  induction rules with
  | nil =>
    rw [List.nil_append, best, h]
    cases hb : best after l with
    | none => rfl
    | some p =>
      obtain ⟨hmem, hm⟩ := best_spec (n := p.1) (r := p.2) hb
      simp [hafter p.2 hmem p.1 hm]
  | cons r₀ rules ih =>
    have ih := ih fun r' hr' => hbefore r' (List.mem_cons_of_mem _ hr')
    rw [List.cons_append, best, ih]
    cases h₀ : r₀.pattern.longest l with
    | none => rfl
    | some m =>
      have := hbefore r₀ List.mem_cons_self m h₀
      simp only [if_neg (Nat.not_le.2 this)]

/-- A fixed text that no rule but one can go on with or match. -/
theorem best_literal [DecidableEq α] {w : List α} {action : β} (k : Nat)
    (h : rules[k]? = some (.literal w action)) (hne : w ≠ [])
    (hothers : (rules.eraseIdx k).all fun r => (r.pattern.derivs w).isEmpty) (l : List α) :
    best rules (w ++ l) = some (w.length, .literal w action) := by
  obtain ⟨hk, hget⟩ := List.getElem?_eq_some_iff.1 h
  have hsplit : rules = rules.take k ++ .literal w action :: rules.drop (k + 1) := by
    rw [← hget, List.getElem_cons_drop, List.take_append_drop]
  rw [List.eraseIdx_eq_take_drop_succ, List.all_append, Bool.and_eq_true] at hothers
  have hless : ∀ {rs : List (Rule α β)}, (rs.all fun r => (r.pattern.derivs w).isEmpty) →
      ∀ r' ∈ rs, ∀ m ∈ r'.pattern.longest (w ++ l), m < w.length :=
    fun h r' hr' m hm => Regex.longest_lt_of_derivs (List.all_eq_true.1 h r' hr') hm
  rw [hsplit]
  refine best_of_split ?_ (hless hothers.1) fun r' hr' m hm => (hless hothers.2 r' hr' m hm).le
  exact (Regex.longest_literal hne).trans (if_pos (List.prefix_append w l))

end

/-- Where a scanner is: its own state, its line, and the text it has not read. -/
structure Config (S : Type) where
  state : S
  line : Nat
  unread : List Char
  deriving DecidableEq

/-- The rules in every state. An action is given the text of the match. -/
structure Scanner (S T : Type) where
  rules : S → List (Rule Char (List Char → S → Option T × S))

def newlines (text : List Char) : Nat := text.count '\n'

namespace Scanner

variable {S T : Type} (L : Scanner S T)

/-- One match, and the token it returns if it does. At the end of the text there is none. -/
def step (c : Config S) : Option (Option T × Config S) :=
  if c.unread = [] then none
  else
    match best (L.rules c.state) c.unread with
    | none => some (none, ⟨c.state, c.line + newlines (c.unread.take 1), c.unread.drop 1⟩)
    | some (n, r) =>
      let text := c.unread.take (n - r.trailing)
      let result := r.action text c.state
      some (result.1, ⟨result.2, c.line + newlines text, c.unread.drop (n - r.trailing)⟩)

/-- The tokens up to the end of the text. -/
def tokensWithin : Nat → Config S → List T
  | 0, _ => []
  | fuel + 1, c =>
    match L.step c with
    | none => []
    | some (t, c') => t.toList ++ tokensWithin fuel c'

def tokens (c : Config S) : List T := L.tokensWithin c.unread.length c

/-- A match: where the scanner stands before it, the text that it consumes, and its token if it
returns one. -/
structure Piece (S T : Type) where
  start : Config S
  text : List Char
  token : Option T
  deriving DecidableEq

/-- The matches up to the end of the text. -/
def piecesWithin : Nat → Config S → List (Piece S T)
  | 0, _ => []
  | fuel + 1, c =>
    match L.step c with
    | none => []
    | some (t, c') =>
      ⟨c, c.unread.take (c.unread.length - c'.unread.length), t⟩ :: piecesWithin fuel c'

def pieces (c : Config S) : List (Piece S T) := L.piecesWithin c.unread.length c

variable {L} {c c' : Config S} {t : Option T}

theorem step_eq_none_iff : L.step c = none ↔ c.unread = [] := by
  rw [step]
  split_ifs with h
  · simp [h]
  · cases best (L.rules c.state) c.unread <;> simp [h]

/-- A match consumes a part of the text that is not empty. -/
theorem step_consumes (h : L.step c = some (t, c')) :
    ∃ text, text ≠ [] ∧ c.unread = text ++ c'.unread ∧ c'.line = c.line + newlines text := by
  rw [step] at h
  split_ifs at h with hne
  cases hb : best (L.rules c.state) c.unread with
  | none =>
    rw [hb] at h
    cases h
    exact ⟨c.unread.take 1, by simpa using hne, (List.take_append_drop _ _).symm, rfl⟩
  | some p =>
    rw [hb] at h
    cases h
    obtain ⟨-, hlongest⟩ := best_spec (n := p.1) (r := p.2) hb
    obtain ⟨hle, hmem, -⟩ := Regex.longest_eq_some_iff.1 hlongest
    have hlt := p.2.advances _ hmem
    rw [List.length_take, Nat.min_eq_left hle] at hlt
    refine ⟨c.unread.take (p.1 - p.2.trailing), ?_, (List.take_append_drop _ _).symm, rfl⟩
    rw [← List.length_pos_iff, List.length_take]
    omega

theorem length_of_step (h : L.step c = some (t, c')) : c'.unread.length < c.unread.length := by
  obtain ⟨text, hne, htext, -⟩ := step_consumes h
  rw [htext, List.length_append]
  exact Nat.lt_add_of_pos_left (List.length_pos_iff.2 hne)

theorem tokensWithin_eq {fuel : Nat} (h : c.unread.length ≤ fuel) :
    L.tokensWithin fuel c = L.tokens c := by
  have hall : ∀ (m n : Nat) (c : Config S), c.unread.length ≤ m → c.unread.length ≤ n →
      L.tokensWithin m c = L.tokensWithin n c := by
    intro m
    induction m with
    | zero =>
      intro n c hm hn
      have hnil := step_eq_none_iff (L := L).2 (List.length_eq_zero_iff.1 (Nat.le_zero.1 hm))
      cases n <;> simp [tokensWithin, hnil]
    | succ m ih =>
      intro n c hm hn
      cases hstep : L.step c with
      | none => cases n <;> simp [tokensWithin, hstep]
      | some p =>
        have hlt := length_of_step hstep
        cases n with
        | zero => omega
        | succ n => simp only [tokensWithin, hstep, ih n p.2 (by omega) (by omega)]
  exact hall _ _ c h le_rfl

theorem tokens_of_nil (h : c.unread = []) : L.tokens c = [] := by
  rw [tokens, h]
  rfl

theorem tokens_of_step (h : L.step c = some (t, c')) : L.tokens c = t.toList ++ L.tokens c' := by
  have hlt := length_of_step h
  obtain ⟨fuel, hfuel⟩ : ∃ fuel, c.unread.length = fuel + 1 := ⟨c.unread.length - 1, by omega⟩
  rw [tokens, hfuel, tokensWithin, h]
  exact congrArg _ (tokensWithin_eq (by omega))

theorem piecesWithin_text (fuel : Nat) : ∀ c : Config S, c.unread.length ≤ fuel →
    (L.piecesWithin fuel c).flatMap Piece.text = c.unread := by
  induction fuel with
  | zero => exact fun c hle => (List.length_eq_zero_iff.1 (Nat.le_zero.1 hle)).symm
  | succ fuel ih =>
    intro c hle
    rw [piecesWithin]
    cases hstep : L.step c with
    | none => exact (step_eq_none_iff.1 hstep).symm
    | some p =>
      obtain ⟨text, hne, htext, -⟩ := step_consumes hstep
      have hlt := length_of_step hstep
      have htake : c.unread.take (c.unread.length - p.2.unread.length) = text := by
        rw [htext, List.length_append, Nat.add_sub_cancel, List.take_left]
      rw [List.flatMap_cons, ih p.2 (by omega), htake, htext]

/-- The matches are the whole text. -/
theorem pieces_text (c : Config S) : (L.pieces c).flatMap Piece.text = c.unread :=
  piecesWithin_text _ c le_rfl

theorem pieces_token (c : Config S) : (L.pieces c).flatMap (·.token.toList) = L.tokens c := by
  have hwithin : ∀ (fuel : Nat) (c : Config S),
      (L.piecesWithin fuel c).flatMap (·.token.toList) = L.tokensWithin fuel c := by
    intro fuel
    induction fuel with
    | zero => exact fun _ => rfl
    | succ fuel ih =>
      intro c
      rw [piecesWithin, tokensWithin]
      cases L.step c with
      | none => rfl
      | some p => exact congrArg _ (ih p.2)
  exact hwithin _ c

theorem pieces_of_nil (h : c.unread = []) : L.pieces c = [] := by
  rw [pieces, h]
  rfl

theorem piecesWithin_eq {fuel : Nat} (h : c.unread.length ≤ fuel) :
    L.piecesWithin fuel c = L.pieces c := by
  have hall : ∀ (m n : Nat) (c : Config S), c.unread.length ≤ m → c.unread.length ≤ n →
      L.piecesWithin m c = L.piecesWithin n c := by
    intro m
    induction m with
    | zero =>
      intro n c hm hn
      have hnil := step_eq_none_iff (L := L).2 (List.length_eq_zero_iff.1 (Nat.le_zero.1 hm))
      cases n <;> simp [piecesWithin, hnil]
    | succ m ih =>
      intro n c hm hn
      cases hstep : L.step c with
      | none => cases n <;> simp [piecesWithin, hstep]
      | some p =>
        have hlt := length_of_step hstep
        cases n with
        | zero => omega
        | succ n => simp only [piecesWithin, hstep, ih n p.2 (by omega) (by omega)]
  exact hall _ _ c h le_rfl

/-- The first match, and those after it. -/
theorem pieces_of_step (h : L.step c = some (t, c')) : ∃ w, w ≠ [] ∧ c.unread = w ++ c'.unread ∧
    L.pieces c = ⟨c, w, t⟩ :: L.pieces c' := by
  obtain ⟨w, hne, hw, -⟩ := step_consumes h
  have hlt := length_of_step h
  obtain ⟨fuel, hfuel⟩ : ∃ fuel, c.unread.length = fuel + 1 := ⟨c.unread.length - 1, by omega⟩
  refine ⟨w, hne, hw, ?_⟩
  have htake : c.unread.take (c.unread.length - c'.unread.length) = w := by
    rw [hw, List.length_append, Nat.add_sub_cancel, List.take_left]
  rw [pieces, hfuel, piecesWithin, h]
  show _ :: L.piecesWithin fuel c' = _
  rw [htake, piecesWithin_eq (by omega)]

/-- A match is a step of the scanner. -/
theorem step_of_mem_pieces {p : Piece S T} (h : p ∈ L.pieces c) :
    ∃ c', L.step p.start = some (p.token, c') ∧ p.start.unread = p.text ++ c'.unread := by
  have hwithin : ∀ (fuel : Nat) (c : Config S), p ∈ L.piecesWithin fuel c →
      ∃ c', L.step p.start = some (p.token, c') ∧ p.start.unread = p.text ++ c'.unread := by
    intro fuel
    induction fuel with
    | zero => exact fun c h => absurd h List.not_mem_nil
    | succ fuel ih =>
      intro c h
      rw [piecesWithin] at h
      cases hstep : L.step c with
      | none =>
        rw [hstep] at h
        exact absurd h List.not_mem_nil
      | some q =>
        rw [hstep] at h
        rcases List.mem_cons.1 h with rfl | h
        · obtain ⟨text, -, htext, -⟩ := step_consumes hstep
          refine ⟨q.2, hstep, ?_⟩
          show c.unread = c.unread.take (c.unread.length - q.2.unread.length) ++ q.2.unread
          rw [htext, List.length_append, Nat.add_sub_cancel, List.take_left]
        · exact ih q.2 h
  exact hwithin _ c h

/-- The line does not change what is read. -/
theorem step_line (line : Nat) (s : S) (l : List Char) (n : Nat) :
    L.step ⟨s, line + n, l⟩ =
      (L.step ⟨s, line, l⟩).map fun p => (p.1, { p.2 with line := p.2.line + n }) := by
  simp only [step]
  split_ifs
  · rfl
  · cases best (L.rules s) l <;> simp [Nat.add_right_comm]

/-- How much is read depends on the rules of the state. -/
theorem step_unread {s s' : S} (h : L.rules s = L.rules s') (line : Nat) (l : List Char) :
    (L.step ⟨s, line, l⟩).map (·.2.unread) = (L.step ⟨s', line, l⟩).map (·.2.unread) := by
  simp only [step, h]
  split_ifs
  · rfl
  · cases best (L.rules s') l <;> rfl

theorem tokens_line (s : S) (l : List Char) (line line' : Nat) :
    L.tokens ⟨s, line, l⟩ = L.tokens ⟨s, line', l⟩ := by
  have hwithin : ∀ (fuel : Nat) (s : S) (l : List Char) (line n : Nat),
      L.tokensWithin fuel ⟨s, line + n, l⟩ = L.tokensWithin fuel ⟨s, line, l⟩ := by
    intro fuel
    induction fuel with
    | zero => exact fun _ _ _ _ => rfl
    | succ fuel ih =>
      intro s l line n
      rw [tokensWithin, tokensWithin, step_line]
      cases L.step ⟨s, line, l⟩ with
      | none => rfl
      | some p => exact congrArg _ (ih _ _ _ _)
  rcases Nat.le_total line line' with h | h <;> obtain ⟨n, rfl⟩ := Nat.exists_eq_add_of_le h
  · exact (hwithin _ s l line n).symm
  · exact hwithin _ s l line' n

theorem step_of_best {n : Nat} {r : Rule Char (List Char → S → Option T × S)}
    (hne : c.unread ≠ []) (h : best (L.rules c.state) c.unread = some (n, r)) :
    L.step c = some ((r.action (c.unread.take (n - r.trailing)) c.state).1,
      ⟨(r.action (c.unread.take (n - r.trailing)) c.state).2,
        c.line + newlines (c.unread.take (n - r.trailing)), c.unread.drop (n - r.trailing)⟩) := by
  rw [step, if_neg hne, h]

/-- A step that consumes `w`. -/
theorem step_append {s : S} {line n : Nat} {w rest : List Char}
    {r : Rule Char (List Char → S → Option T × S)} (hne : w ≠ [])
    (h : best (L.rules s) (w ++ rest) = some (n, r)) (hn : n = w.length + r.trailing) :
    L.step ⟨s, line, w ++ rest⟩ =
      some ((r.action w s).1, ⟨(r.action w s).2, line + newlines w, rest⟩) := by
  have := step_of_best (L := L) (c := ⟨s, line, w ++ rest⟩) (by simp [hne]) h
  simpa [hn] using this

/-- A token is returned by the action of a rule. -/
theorem exists_action_of_step {token : T} (h : L.step c = some (some token, c')) :
    ∃ r ∈ L.rules c.state, ∃ text, (r.action text c.state).1 = some token := by
  rw [step] at h
  split_ifs at h
  cases hb : best (L.rules c.state) c.unread with
  | none =>
    rw [hb] at h
    cases h
  | some p =>
    rw [hb] at h
    obtain ⟨htoken, -⟩ := Prod.mk.inj (Option.some.inj h)
    exact ⟨p.2, (best_spec (n := p.1) (r := p.2) hb).1, _, htoken⟩

/-- A step after which `x` is left, and the same step before another rest where the same rule is
taken. -/
theorem step_same {s : S} {line : Nat} {w x y : List Char} (hw : w ≠ [])
    (hbest : best (L.rules s) (w ++ y) = best (L.rules s) (w ++ x))
    (hstep : L.step ⟨s, line, w ++ x⟩ = some (t, c')) (hrest : c'.unread = x) :
    (t = none ∧ c'.state = s ∧ ∀ s' line', L.rules s' = L.rules s → ∃ line'',
      L.step ⟨s', line', w ++ y⟩ = some (none, ⟨s', line'', y⟩)) ∨
    ∃ r, best (L.rules s) (w ++ x) = some (w.length + r.trailing, r) ∧ t = (r.action w s).1 ∧
      c'.state = (r.action w s).2 ∧
      ∀ s' line', L.rules s' = L.rules s → ∃ line'', L.step ⟨s', line', w ++ y⟩ =
        some ((r.action w s').1, ⟨(r.action w s').2, line'', y⟩) := by
  have hne : ∀ z, w ++ z ≠ [] := fun z => by simp [hw]
  cases hb : best (L.rules s) (w ++ x) with
  | none =>
    left
    rw [step, if_neg (hne x)] at hstep
    simp only [hb, Option.some.injEq, Prod.mk.injEq] at hstep
    obtain ⟨rfl, rfl⟩ := hstep
    have hlength := congrArg List.length hrest
    have hpos := List.length_pos_iff.2 hw
    simp only [List.length_drop, List.length_append] at hlength
    have hone : w.length = 1 := by omega
    refine ⟨rfl, rfl, fun s' line' hs => ⟨line' + newlines ((w ++ y).take 1), ?_⟩⟩
    rw [step, if_neg (hne y)]
    simp only [hs, hbest.trans hb]
    rw [List.drop_append_of_le_length hone.ge, List.drop_of_length_le hone.le, List.nil_append]
  | some p =>
    obtain ⟨n, r⟩ := p
    right
    obtain ⟨-, hlongest⟩ := best_spec hb
    have hspec := step_of_best (L := L) (c := ⟨s, line, w ++ x⟩) (hne x) hb
    simp only [hstep, Option.some.injEq, Prod.mk.injEq] at hspec
    obtain ⟨rfl, rfl⟩ := hspec
    obtain ⟨hle, hlang, -⟩ := Regex.longest_eq_some_iff.1 hlongest
    have hadvance := r.advances _ hlang
    rw [List.length_take, Nat.min_eq_left hle] at hadvance
    have hlength := congrArg List.length hrest
    simp only [List.length_drop, List.length_append] at hlength hle
    have hn : n = w.length + r.trailing := by omega
    have htake : (w ++ x).take (n - r.trailing) = w := by
      rw [hn, Nat.add_sub_cancel, List.take_left]
    rw [htake]
    refine ⟨r, by rw [hn], rfl, rfl, fun s' line' hs => ⟨line' + newlines w, ?_⟩⟩
    exact step_append hw (hs ▸ hbest.trans hb) hn

end Scanner

end Flex
