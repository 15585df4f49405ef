import B2.Parser.Steps

/-!
# Raw text

The raw text of a template against what the scanner returns of it. The scanner
returns of a template what it returns of its chunks, one after the other
(`rawFrom_chunksWithin`), so text is lost exactly where it is lost of a chunk.
-/

namespace B2

open Flex (Rule Regex Config)

/-- The scanner returns the text outside tags and comments. -/
def KeepsRawText (t : Text) : Prop :=
  rawText (lexer.tokens (lexStart t)) = (chunks t).flatMap Chunk.trimmed

instance (t : Text) : Decidable (KeepsRawText t) := inferInstanceAs (Decidable (_ = _))

/-! ## Raw text of the rest of a template -/

/-- The raw text a scanner in this state returns; the line does not matter. -/
def rawFrom (s : LexState) (t : Text) : Text := rawText (lexer.tokens ⟨s, 1, t⟩)

theorem rawFrom_nil (s : LexState) : rawFrom s [] = [] := by
  rw [rawFrom, Flex.Scanner.tokens_of_nil rfl]
  rfl

theorem rawFrom_step {s s' : LexState} {line : Nat} {t t' : Text} {tok : Option Token}
    (h : lexer.step ⟨s, 1, t⟩ = some (tok, ⟨s', line, t'⟩)) :
    rawFrom s t = rawText tok.toList ++ rawFrom s' t' := by
  rw [rawFrom, Flex.Scanner.tokens_of_step h, rawText, List.flatMap_append, rawFrom,
    Flex.Scanner.tokens_line s' t' 1 line]
  rfl

theorem rawFrom_comment (eat : Bool) (t : Text) : rawFrom ⟨.inComment, eat⟩ t =
    match afterComment t with
    | none => []
    | some rest => rawFrom ⟨.initial, eat⟩ rest := by
  induction hn : t.length using Nat.strong_induction_on generalizing t with
  | _ n ih =>
    by_cases hne : t = []
    · subst hne
      exact rawFrom_nil _
    · obtain ⟨line', ⟨rest, hafter, hstep⟩ | ⟨rest, hafter, hstep⟩⟩ := step_comment eat 1 t hne
      · rw [rawFrom_step hstep, hafter]
        rfl
      · have hlt := Flex.Scanner.length_of_step hstep
        rw [rawFrom_step hstep, hafter]
        exact ih rest.length (hn ▸ hlt) rest rfl

theorem rawFrom_tag {c : Condition} (hc : c = .inVariable ∨ c = .inBlock) (eat : Bool) :
    ∀ (fuel : Nat) (t : Text), t.length ≤ fuel → rawFrom ⟨c, eat⟩ t =
      match afterTag fuel c t with
      | none => []
      | some (trim, rest) => rawFrom ⟨.initial, trim || eat⟩ rest
  | 0, t, hle => by
    rw [List.length_eq_zero_iff.1 (Nat.le_zero.1 hle)]
    exact rawFrom_nil _
  | fuel + 1, t, hle => by
    rw [afterTag]
    cases hclose : closerAt c t with
    | some r =>
      obtain ⟨trim, rest⟩ := r
      obtain ⟨tok, line', htok, hstep⟩ := step_closer eat 1 hclose
      rw [rawFrom_step hstep, htok]
      rfl
    | none =>
      have hrules : lexer.rules ⟨c, eat⟩ = lexer.rules ⟨c, false⟩ := rfl
      have hunread := Flex.Scanner.step_unread hrules 1 t
      cases hstep : lexer.step ⟨⟨c, eat⟩, 1, t⟩ with
      | none =>
        obtain rfl : t = [] := Flex.Scanner.step_eq_none_iff.1 hstep
        exact rawFrom_nil _
      | some p =>
        obtain ⟨tok, s', line', t'⟩ := p
        obtain ⟨rfl, htok⟩ := step_tag hc hclose hstep
        have hlt := Flex.Scanner.length_of_step hstep
        obtain ⟨q, hq, hqt⟩ : ∃ q, lexer.step ⟨⟨c, false⟩, 1, t⟩ = some q ∧ q.2.unread = t' := by
          rw [hstep, eq_comm, Option.map_some, Option.map_eq_some_iff] at hunread
          exact hunread
        rw [rawFrom_step hstep, htok, hq, Option.bind_some, hqt]
        exact rawFrom_tag hc eat fuel t' (by simp only at hlt; omega)

/-! ## Raw text of a chunk -/

/-- What the scanner returns from the start of a chunk on. -/
theorem rawFrom_chunk (eat : Bool) (t : Text) (hnul : '\x00' ∉ t) :
    rawFrom ⟨.initial, eat⟩ t =
      scanChunk (trims (untilOpener t).2) eat (untilOpener t).1 ++
        match (untilOpener t).2 with
        | none => []
        | some (o, rest) => rawFrom ⟨o.condition, false⟩ rest := by
  induction hn : t.length using Nat.strong_induction_on generalizing t eat with
  | _ n ih =>
    cases t with
    | nil => rw [rawFrom_nil]; rfl
    | cons c u =>
      have hrest : ∀ {w rest : Text}, c :: u = w ++ rest → w ≠ [] →
          '\x00' ∉ w ∧ '\x00' ∉ rest ∧ rest.length < n := by
        intro w rest hsplit hne
        rw [hsplit, List.mem_append, not_or] at hnul
        have := congrArg List.length hsplit
        have := List.length_pos_iff.2 hne
        rw [List.length_append] at *
        exact ⟨hnul.1, hnul.2, by omega⟩
      cases hopen : openerAt (c :: u) with
      | some r =>
        obtain ⟨o, rest⟩ := r
        obtain ⟨tok, htok, hstep⟩ := step_opener hopen
        rw [rawFrom_step (hstep eat 1), htok, untilOpener, hopen]
        rfl
      | none =>
        by_cases hblank : isBlank c = true
        · obtain ⟨w, rest, hsplit, hne, hw, hhead⟩ := Flex.Regex.exists_run hblank u
          obtain ⟨hw', hnul', hlt⟩ := hrest hsplit hne
          have hstep := step_blank eat 1 hne hw hhead
          have hnobrace : ∀ d ∈ w, d ≠ '\x7b' := by
            rintro d hd rfl
            exact absurd (hw _ hd) (by decide)
          have htext : decide ("\x7b-%".toList <+: rest) =
              (trims (untilOpener rest).2 && (untilOpener rest).1 = []) := by
            rw [Bool.eq_iff_iff]
            simp only [decide_eq_true_eq, Bool.and_eq_true, trim_prefix_iff, and_comm]
          rw [hsplit, rawFrom_step hstep, untilOpener_append hnobrace, htext,
            scanChunk_blank hw fun d hd => hhead d (head_untilOpener hd),
            ih rest.length hlt eat rest hnul' rfl, cString_eq_self hw']
          split_ifs <;> simp [rawText]
        · by_cases hbrace : c = '\x7b'
          · subst hbrace
            obtain ⟨-, hnul', hlt⟩ := hrest (w := ['\x7b']) rfl (by simp)
            have hstep := step_brace eat 1 hopen
            rw [rawFrom_step hstep, untilOpener, hopen, ih u.length hlt eat u hnul' rfl]
            simp [rawText, scanChunk, isBlank]
          · have hword : isWord c = true := by simp [isWord, hblank, hbrace]
            obtain ⟨w, rest, hsplit, hne, hw, hhead⟩ := Flex.Regex.exists_run hword u
            obtain ⟨hw', hnul', hlt⟩ := hrest hsplit hne
            have hstep := step_word eat 1 hne hw hhead
            have hnobrace : ∀ d ∈ w, d ≠ '\x7b' := fun d hd => by
              have := hw d hd
              simp only [isWord, Bool.and_eq_true, decide_eq_true_eq] at this
              exact this.1
            rw [hsplit, rawFrom_step hstep, untilOpener_append hnobrace, scanChunk_word hne hw,
              ih rest.length hlt false rest hnul' rfl, cString_eq_self hw']
            simp [rawText]

/-! ## Raw text of a template -/

theorem openerAt_suffix {t rest : Text} {o : Opener} (h : openerAt t = some (o, rest)) :
    rest <:+ t ∧ rest.length < t.length := by
  unfold openerAt at h
  split at h <;> cases h
  · exact ⟨⟨['\x7b', '\x7b'], rfl⟩, by simp only [List.length_cons]; omega⟩
  · exact ⟨⟨['\x7b', '%'], rfl⟩, by simp only [List.length_cons]; omega⟩
  · exact ⟨⟨['\x7b', '-', '%'], rfl⟩, by simp only [List.length_cons]; omega⟩
  · exact ⟨⟨['\x7b', '#'], rfl⟩, by simp only [List.length_cons]; omega⟩

theorem untilOpener_suffix {t rest : Text} {o : Opener}
    (h : (untilOpener t).2 = some (o, rest)) : rest <:+ t ∧ rest.length < t.length := by
  induction t with
  | nil => cases h
  | cons c t ih =>
    rw [untilOpener] at h
    cases hopen : openerAt (c :: t) with
    | none =>
      rw [hopen] at h
      obtain ⟨hsuffix, hlt⟩ := ih h
      exact ⟨hsuffix.trans (List.suffix_cons c t), hlt.trans (by simp)⟩
    | some r =>
      rw [hopen] at h
      exact openerAt_suffix (hopen.trans h)

theorem afterComment_suffix {t rest : Text} (h : afterComment t = some rest) : rest <:+ t := by
  induction t using afterComment.induct with
  | case1 => cases h
  | case2 t =>
    cases h
    exact ⟨['#', '\x7d'], rfl⟩
  | case3 c t hne ih =>
    rw [afterComment] at h
    · exact (ih h).trans (List.suffix_cons c t)
    · exact hne

theorem afterTag_suffix {c : Condition} {fuel : Nat} {t rest : Text} {trim : Bool}
    (h : afterTag fuel c t = some (trim, rest)) : rest <:+ t := by
  induction fuel generalizing t with
  | zero => cases h
  | succ fuel ih =>
    rw [afterTag] at h
    cases hclose : closerAt c t with
    | some r =>
      rw [hclose] at h
      cases h
      unfold closerAt at hclose
      split at hclose <;> cases hclose
      · exact ⟨['\x7d', '\x7d'], rfl⟩
      · exact ⟨['%', '\x7d'], rfl⟩
      · exact ⟨['%', '-', '\x7d'], rfl⟩
    | none =>
      rw [hclose] at h
      obtain ⟨p, hstep, hp⟩ := Option.bind_eq_some_iff.1 h
      obtain ⟨text, -, htext, -⟩ := Flex.Scanner.step_consumes hstep
      exact (ih hp).trans ⟨text, htext.symm⟩

/-- The scanner returns of a template what it returns of its chunks. -/
theorem rawFrom_chunksWithin : ∀ (fuel : Nat) (eat : Bool) (t : Text), t.length < fuel →
    '\x00' ∉ t → rawFrom ⟨.initial, eat⟩ t = (chunksWithin fuel eat t).flatMap Chunk.scanned
  | 0, _, t, hlt, _ => absurd hlt (Nat.not_lt_zero _)
  | fuel + 1, eat, t, hlt, hnul => by
    have hrec : ∀ {rest : Text} (trim : Bool), rest <:+ t ∧ rest.length < t.length →
        rawFrom ⟨.initial, trim⟩ rest = (chunksWithin fuel trim rest).flatMap Chunk.scanned := by
      rintro rest trim ⟨hsuffix, hlength⟩
      exact rawFrom_chunksWithin fuel trim rest (by omega) fun h => hnul (hsuffix.subset h)
    rw [rawFrom_chunk eat t hnul, chunksWithin]
    cases hopen : untilOpener t with
    | mk text opener =>
      match opener with
      | none => simp [Chunk.scanned, trims]
      | some (o, rest) =>
        obtain ⟨hsuffix, hlength⟩ := untilOpener_suffix (congrArg Prod.snd hopen)
        have htag : ∀ c, c = .inVariable ∨ c = .inBlock → rawFrom ⟨c, false⟩ rest =
            (match afterTag rest.length c rest with
              | none => []
              | some (trim, rest) => chunksWithin fuel trim rest).flatMap Chunk.scanned := by
          intro c hc
          rw [rawFrom_tag hc false _ rest le_rfl]
          cases htag : afterTag rest.length c rest with
          | none => rfl
          | some r =>
            obtain ⟨trim, rest'⟩ := r
            have hsuffix' := afterTag_suffix htag
            simp only [Bool.or_false]
            exact hrec trim ⟨hsuffix'.trans hsuffix, hsuffix'.length_le.trans_lt hlength⟩
        cases o with
        | comment =>
          simp only [Opener.condition, rawFrom_comment, List.flatMap_cons]
          cases hcomment : afterComment rest with
          | none => simp [Chunk.scanned, trims]
          | some rest' =>
            have hsuffix' := afterComment_suffix hcomment
            simp only
            rw [hrec false ⟨hsuffix'.trans hsuffix, hsuffix'.length_le.trans_lt hlength⟩]
            rfl
        | variableTag => simp only [Opener.condition, htag _ (.inl rfl), List.flatMap_cons]; rfl
        | blockTag | trimmingBlockTag =>
          simp only [Opener.condition, htag _ (.inr rfl), List.flatMap_cons]; rfl

/-- No raw text is lost exactly when in no chunk directly after a `%-}` a blank follows a lone
brace with nothing but blanks and lone braces before it, unless it is directly before a
`{-%`. -/
theorem keepsRawText_iff (t : Text) (hnul : '\x00' ∉ t) :
    KeepsRawText t ↔ ∀ ch ∈ chunks t, ¬ch.BlankAfterBrace := by
  have hscanned := rawFrom_chunksWithin (t.length + 1) false t (Nat.lt_succ_self _) hnul
  rw [← flatMap_scanned_eq_iff]
  change rawFrom ⟨.initial, false⟩ t = _ ↔ _
  rw [hscanned]
  rfl

/-- In `{% else %-} {a b` the blank after the brace is kept, as a letter comes first. -/
theorem keepsRawText_letter : KeepsRawText "\x7b% else %-\x7d \x7ba b".toList := by
  refine (keepsRawText_iff _ (by decide +kernel)).2 fun ch hch hblank => ?_
  have hlength : ∀ ch ∈ chunks "\x7b% else %-\x7d \x7ba b".toList,
      ¬ch.scanned.length < ch.trimmed.length := by decide +kernel
  exact hlength ch hch (ch.scanned_trimmed.2 hblank)

/-- In `{% else %-} { b` it is lost. -/
theorem not_keepsRawText_brace : ¬KeepsRawText "\x7b% else %-\x7d \x7b b".toList := by decide +kernel

end B2
