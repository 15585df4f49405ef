import B2.Ast.Double
import B2.Ecma.StringLiteral

/-!
# Escaping

`escape` of the JavaScript visitor against the string literals of the target
language. The loop rewrites the string in place and goes on behind the first
character of a replacement; it returns exactly on strings without a single
quote (`escapes_iff`). A literal with a backslash in it, or with a control
character that is written wrong, reads as less than the string: `weight` goes
down (`weight_readBody`).
-/

namespace B2

open Ecma (readBody readEscape readString)

/-- `snprintf` into a buffer of five characters, and the part of the buffer that
`std::string::replace` is told to take. -/
def snprintf5 (t : Text) : Text := (t.take 4 ++ ['\x00']).take t.length

/-- `\x%02d` -/
def formatX (n : Nat) : Text :=
  '\\' :: 'x' :: (List.replicate (2 - (decimal n).length) '0' ++ decimal n)

/-- What the loop puts in the place of a character. -/
def escapeChar (c : Char) : Text :=
  match c with
  | '\x07' => ['\\', 'a']
  | '\x08' => ['\\', 'b']
  | '\x0c' => ['\\', 'f']
  | '\n' => ['\\', 'n']
  | '\r' => ['\\', 'r']
  | '\t' => ['\\', 't']
  | '\x0b' => ['\\', 'x', '0', 'B']
  | '\'' => ['\\', '\'']
  | c =>
    if (0 < c.toNat ∧ c.toNat < 0x20) ∨ c.toNat = 0x7F then snprintf5 (formatX c.toNat) else [c]

/-- The loop at position `i`; it may go on for ever. -/
def escapeLoop : Nat → Nat → Text → Option Text
  | 0, _, _ => none
  | fuel + 1, i, ret =>
    if h : i < ret.length then
      escapeLoop fuel (i + 1) (ret.take i ++ escapeChar ret[i] ++ ret.drop (i + 1))
    else some ret

/-- `escape` returns `e`. -/
def Escapes (s e : Text) : Prop := ∃ fuel, escapeLoop fuel 0 s = some e

/-- Between quotes the escaped string is exactly one literal, which reads as the string. -/
def RoundTrips (s e : Text) : Prop :=
  readString ('\'' :: (e ++ ['\''])) = some (s.map Char.toNat, [])

/-- The characters that are not written, or written wrong. -/
def Miswritten (c : Char) : Prop :=
  c = '\\' ∨ c = '\x07' ∨ (14 ≤ c.toNat ∧ c.toNat < 0x20) ∨ c.toNat = 0x7F

instance (c : Char) : Decidable (Miswritten c) := inferInstanceAs (Decidable (_ ∨ _ ∨ _ ∨ _))

/-! ## Replacements -/

/-- Characters the loop leaves alone. -/
def Inert (c : Char) : Prop := escapeChar c = [c]

instance (c : Char) : Decidable (Inert c) := inferInstanceAs (Decidable (_ = _))

instance (c : Char) : Decidable (Ecma.IsPlain c) :=
  inferInstanceAs (Decidable (_ ∧ _ ∧ _ ∧ _))

def IsControl (c : Char) : Prop := (0 < c.toNat ∧ c.toNat < 0x20) ∨ c.toNat = 0x7F

instance (c : Char) : Decidable (IsControl c) := inferInstanceAs (Decidable (_ ∨ _))

/-- What a code unit counts for: a backslash is worth more than a control character and the
characters written for it, and a control character more than the one read in its place. -/
def weight (n : Nat) : Nat :=
  if n = 92 then 16 else if n = 0x7F then 9 else if n = 0 then 0
  else if n < 20 then 8 else if n < 0x20 then 7 else 1

def totalWeight (l : List Nat) : Nat := (l.map weight).sum

/-- The replacement of a control character, what it reads as and what is left after that. -/
structure Replacement (c : Char) (tail : Text) (n : Nat) (rest : Text) : Prop where
  eq : escapeChar c = '\\' :: tail
  tail_plain : ∀ b ∈ tail, Inert b ∧ Ecma.IsPlain b
  rest_plain : ∀ b ∈ rest, Ecma.IsPlain b
  reads : ∀ t, readEscape (tail ++ t) = some ([n], rest ++ t)
  right : ¬Miswritten c → n = c.toNat ∧ rest = []
  weight_le : weight n + totalWeight (rest.map Char.toNat) ≤ weight c.toNat
  weight_lt : Miswritten c → weight n + totalWeight (rest.map Char.toNat) < weight c.toNat
  tail_weight : totalWeight (tail.map Char.toNat) < weight c.toNat

theorem forall_of_all {p : Char → Prop} [DecidablePred p] {w : Text}
    (h : (w.all fun c => decide (p c)) = true) : ∀ c ∈ w, p c :=
  fun c hc => of_decide_eq_true (List.all_eq_true.1 h c hc)

theorem exists_replacement {c : Char} (hc : IsControl c) :
    ∃ tail n rest, Replacement c tail n rest := by
  have hlow : ∀ n, 0 < n → n < 0x20 → ∃ tail m, Replacement (Char.ofNat n) tail m [] := by
    intro n hpos hlt
    interval_cases n <;>
      exact ⟨_, _, rfl, forall_of_all (by decide), nofun, fun _ => rfl,
        by decide, by decide, by decide, by decide⟩
  rw [← Char.ofNat_toNat c]
  rcases hc with ⟨hpos, hlt⟩ | hdel
  · obtain ⟨tail, n, h⟩ := hlow c.toNat hpos hlt
    exact ⟨tail, n, [], h⟩
  · rw [hdel]
    exact ⟨_, _, ['\x00'], rfl, forall_of_all (by decide),
      forall_of_all (by decide), fun _ => rfl, by decide, by decide, by decide,
      by decide⟩

theorem inert_of_not_control {c : Char} (hquote : c ≠ '\'') (hc : ¬IsControl c) : Inert c := by
  rw [Inert]
  unfold escapeChar
  split
  case h_9 => exact if_neg hc
  case h_8 => exact absurd rfl hquote
  all_goals exact absurd (by decide) hc

theorem isPlain_of_not_control {c : Char} (hquote : c ≠ '\'') (hback : c ≠ '\\')
    (hc : ¬IsControl c) : Ecma.IsPlain c := by
  refine ⟨hquote, hback, ?_, ?_⟩ <;>
  · rintro rfl
    exact hc (by decide)

/-- A replacement is a first character, behind which the loop goes on, and characters that it
leaves alone. -/
theorem escapeChar_cons {c : Char} (hquote : c ≠ '\'') :
    ∃ a tail, escapeChar c = a :: tail ∧ ∀ b ∈ tail, Inert b := by
  by_cases hc : IsControl c
  · obtain ⟨tail, n, rest, h⟩ := exists_replacement hc
    exact ⟨'\\', tail, h.eq, fun b hb => (h.tail_plain b hb).1⟩
  · exact ⟨c, [], inert_of_not_control hquote hc, nofun⟩

/-! ## The loop -/

theorem escapeLoop_cons (fuel : Nat) (done : Text) (c : Char) (t : Text) :
    escapeLoop (fuel + 1) done.length (done ++ c :: t) =
      escapeLoop fuel (done.length + 1) (done ++ (escapeChar c ++ t)) := by
  have hdrop : (done ++ c :: t).drop (done.length + 1) = t := by
    rw [List.drop_append, List.drop_eq_nil_of_le (Nat.le_succ _)]
    simp
  rw [escapeLoop, dif_pos (by simp), hdrop, List.take_left]
  simp

theorem escapeLoop_nil (fuel : Nat) (done : Text) :
    escapeLoop (fuel + 1) done.length done = some done := by
  rw [escapeLoop, dif_neg (lt_irrefl _)]

/-- The loop passes over characters it leaves alone. -/
theorem escapeLoop_inert {w : Text} (hw : ∀ b ∈ w, Inert b) (fuel : Nat) (done t : Text) :
    escapeLoop (fuel + w.length) done.length (done ++ (w ++ t)) =
      escapeLoop fuel (done ++ w).length (done ++ w ++ t) := by
  induction w generalizing done with
  | nil => simp
  | cons b w ih =>
    have hb : escapeChar b = [b] := hw b List.mem_cons_self
    have ih := ih (fun d hd => hw d (List.mem_cons_of_mem _ hd)) (done ++ [b])
    rw [List.length_cons, ← Nat.add_assoc, List.cons_append, escapeLoop_cons, hb]
    simpa using ih

/-- At a single quote the loop stays. -/
theorem escapeLoop_quote {t : Text} (h : '\'' ∈ t) : ∀ (fuel : Nat) (done : Text),
    escapeLoop fuel done.length (done ++ t) = none := by
  intro fuel
  induction fuel generalizing t with
  | zero => exact fun _ => rfl
  | succ fuel ih =>
    intro done
    obtain ⟨c, u, rfl⟩ := List.exists_cons_of_ne_nil (List.ne_nil_of_mem h)
    rw [escapeLoop_cons]
    have hnext : ∃ a v, escapeChar c ++ u = a :: v ∧ '\'' ∈ v := by
      by_cases hc : c = '\''
      · subst hc
        exact ⟨'\\', '\'' :: u, rfl, List.mem_cons_self⟩
      · obtain ⟨a, tail, htail, -⟩ := escapeChar_cons hc
        have hu : '\'' ∈ u := (List.mem_cons.1 h).resolve_left (Ne.symm hc)
        exact ⟨a, tail ++ u, by rw [htail]; rfl, List.mem_append_right _ hu⟩
    obtain ⟨a, v, hv, hmem⟩ := hnext
    rw [hv]
    simpa using ih hmem (done ++ [a])

/-- `escape` returns on strings without a single quote, every character replaced. -/
theorem escapes_iff {s e : Text} : Escapes s e ↔ '\'' ∉ s ∧ e = s.flatMap escapeChar := by
  have hreturns : ∀ s : Text, '\'' ∉ s → ∀ done, ∃ fuel,
      escapeLoop fuel done.length (done ++ s) = some (done ++ s.flatMap escapeChar) := by
    intro s
    induction s with
    | nil => exact fun _ done => ⟨1, by simpa using escapeLoop_nil 0 done⟩
    | cons c s ih =>
      intro h done
      rw [List.mem_cons, not_or] at h
      obtain ⟨a, tail, htail, hinert⟩ := escapeChar_cons (Ne.symm h.1)
      obtain ⟨fuel, hfuel⟩ := ih h.2 (done ++ [a] ++ tail)
      refine ⟨fuel + tail.length + 1, ?_⟩
      have hpass := escapeLoop_inert hinert fuel (done ++ [a]) s
      rw [escapeLoop_cons, htail]
      simp only [List.append_assoc, List.length_append, List.length_singleton, List.cons_append,
        List.nil_append, List.flatMap_cons, htail] at hpass hfuel ⊢
      rw [hpass, hfuel]
  have hmono : ∀ (fuel k i : Nat) (t e : Text), escapeLoop fuel i t = some e →
      escapeLoop (fuel + k) i t = some e := by
    intro fuel k
    induction fuel with
    | zero => exact fun i t e h => nomatch h
    | succ fuel ih =>
      intro i t e h
      rw [Nat.add_right_comm, escapeLoop]
      rw [escapeLoop] at h
      split_ifs at h ⊢ with hi
      · exact ih _ _ _ h
      · exact h
  constructor
  · rintro ⟨fuel, h⟩
    have hquote : '\'' ∉ s := fun hmem => by
      cases h.symm.trans (escapeLoop_quote hmem fuel [])
    obtain ⟨fuel', h'⟩ := hreturns s hquote []
    refine ⟨hquote, ?_⟩
    have h₁ := hmono fuel fuel' 0 s e h
    have h₂ := hmono fuel' fuel 0 s _ h'
    rw [Nat.add_comm, h₁] at h₂
    exact Option.some.inj h₂
  · rintro ⟨hquote, rfl⟩
    exact hreturns s hquote []

/-- The loop reaches the end of the string, and has put one replacement in the place of every
character of it. -/
def EscapesOnce (s : Text) : Prop :=
  (∃ e, Escapes s e) ∧ ∀ e, Escapes s e → e = s.flatMap escapeChar

theorem isPlain_of_right {c : Char} (hquote : c ≠ '\'') (hright : ¬Miswritten c)
    (hc : ¬IsControl c) : Ecma.IsPlain c :=
  isPlain_of_not_control hquote (fun h => hright (.inl h)) hc

/-- A string without miswritten characters is read back. -/
theorem readBody_right {s : Text} (hquote : '\'' ∉ s) (hright : ∀ c ∈ s, ¬Miswritten c) :
    ∀ fuel, (s.flatMap escapeChar).length < fuel →
      readBody fuel (s.flatMap escapeChar ++ ['\'']) = some (s.map Char.toNat, []) := by
  induction s with
  | nil =>
    intro fuel hlt
    obtain ⟨fuel, rfl⟩ := Nat.exists_eq_succ_of_ne_zero (by omega : fuel ≠ 0)
    rfl
  | cons c s ih =>
    intro fuel hlt
    rw [List.mem_cons, not_or] at hquote
    have ih := ih hquote.2 fun d hd => hright d (List.mem_cons_of_mem _ hd)
    have hc := hright c List.mem_cons_self
    obtain ⟨fuel, rfl⟩ := Nat.exists_eq_succ_of_ne_zero (by omega : fuel ≠ 0)
    rw [List.flatMap_cons] at hlt ⊢
    by_cases hcontrol : IsControl c
    · obtain ⟨tail, n, rest, h⟩ := exists_replacement hcontrol
      obtain ⟨rfl, rfl⟩ := h.right hc
      rw [h.eq, List.length_append, List.length_cons] at hlt
      rw [h.eq, List.cons_append, List.cons_append, List.append_assoc, Ecma.readBody_escape,
        h.reads, Option.bind_some, List.nil_append, ih fuel (by omega)]
      rfl
    · have hinert : escapeChar c = [c] := inert_of_not_control (Ne.symm hquote.1) hcontrol
      rw [hinert, List.length_append, List.length_singleton] at hlt
      rw [hinert, List.singleton_append, List.cons_append,
        Ecma.readBody_plain (isPlain_of_right (Ne.symm hquote.1) hc hcontrol), ih fuel (by omega)]
      rfl

/-! ## Weights -/

@[simp] theorem totalWeight_nil : totalWeight [] = 0 := rfl

@[simp] theorem totalWeight_cons (n : Nat) (l : List Nat) :
    totalWeight (n :: l) = weight n + totalWeight l := rfl

theorem totalWeight_append (l m : List Nat) :
    totalWeight (l ++ m) = totalWeight l + totalWeight m := by
  simp [totalWeight]

theorem weight_le (n : Nat) : weight n ≤ 16 := by
  unfold weight
  split_ifs <;> omega

theorem weight_pos {n : Nat} (h : n ≠ 0) : 0 < weight n := by
  unfold weight
  split_ifs <;> omega

theorem weight_of_large {n : Nat} (h : 0x80 ≤ n) : weight n = 1 := by
  unfold weight
  split_ifs <;> omega

theorem totalWeight_codeUnits (n : Nat) : totalWeight (Ecma.codeUnits n) ≤ 16 := by
  unfold Ecma.codeUnits
  split_ifs
  · simpa using weight_le n
  · have h : ∀ a b : Nat, 0x80 ≤ a → weight (a + b) = 1 := fun a b ha =>
      weight_of_large (ha.trans (Nat.le_add_right a b))
    rw [totalWeight_cons, totalWeight_cons, totalWeight_nil, h _ _ (by norm_num),
      h _ _ (by norm_num)]
    norm_num

theorem toNat_of_inEscape {c : Char} (h : Ecma.InEscape c) :
    48 ≤ c.toNat ∧ c.toNat ≤ 125 ∧ c.toNat ≠ 92 := by
  have hle : ∀ {a b : Char}, a ≤ b → a.toNat ≤ b.toNat := fun h => h
  rcases h with h | rfl | rfl
  · rw [Ecma.hexDigit] at h
    split_ifs at h with h₁ h₂ h₃
    · have := hle h₁.1
      have := hle h₁.2
      simp only [Char.reduceToNat] at *
      omega
    · have := hle h₂.1
      have := hle h₂.2
      simp only [Char.reduceToNat] at *
      omega
    · have := hle h₃.1
      have := hle h₃.2
      simp only [Char.reduceToNat] at *
      omega
    · cases h
  · decide
  · decide

/-- Such characters at the start of an escaped string are characters of the string. -/
theorem split_of_inEscape {k t : Text} (hk : ∀ c ∈ k, Ecma.InEscape c) : ∀ {s : Text}, '\'' ∉ s →
    s.flatMap escapeChar ++ ['\''] = k ++ t →
      ∃ s', s = k ++ s' ∧ t = s'.flatMap escapeChar ++ ['\''] := by
  induction k with
  | nil => exact fun {s} _ h => ⟨s, rfl, h.symm⟩
  | cons c k ih =>
    intro s hquote h
    obtain ⟨hlow, hhigh, hback⟩ := toNat_of_inEscape (hk c List.mem_cons_self)
    cases s with
    | nil =>
      obtain ⟨rfl, -⟩ := List.cons.inj h
      exact absurd hlow (by decide)
    | cons d s =>
      rw [List.mem_cons, not_or] at hquote
      by_cases hd : IsControl d
      · obtain ⟨tail, n, rest, hr⟩ := exists_replacement hd
        rw [List.flatMap_cons, hr.eq] at h
        obtain ⟨rfl, -⟩ := List.cons.inj h
        exact absurd rfl hback
      · have hinert : escapeChar d = [d] := inert_of_not_control (Ne.symm hquote.1) hd
        rw [List.flatMap_cons, hinert] at h
        rw [List.singleton_append, List.cons_append, List.cons_append] at h
        obtain ⟨rfl, hrest⟩ := List.cons.inj h
        obtain ⟨s', rfl, ht⟩ := ih (fun e he => hk e (List.mem_cons_of_mem _ he)) hquote.2 hrest
        exact ⟨s', rfl, ht⟩

/-- Plain characters before the rest of a literal. -/
theorem readBody_plain_append {w t r : Text} {d : List Nat} (hw : ∀ c ∈ w, Ecma.IsPlain c) :
    ∀ {fuel : Nat}, readBody fuel (w ++ t) = some (d, r) →
      ∃ fuel' d', readBody fuel' t = some (d', r) ∧ d = w.map Char.toNat ++ d' := by
  induction w generalizing d with
  | nil => exact fun {fuel} h => ⟨fuel, d, h, rfl⟩
  | cons c w ih =>
    intro fuel h
    cases fuel with
    | zero => cases h
    | succ fuel =>
      rw [List.cons_append, Ecma.readBody_plain (hw c List.mem_cons_self)] at h
      obtain ⟨q, hq, hd⟩ := Option.map_eq_some_iff.1 h
      cases hd
      obtain ⟨fuel', d', hread, hd'⟩ := ih (fun e he => hw e (List.mem_cons_of_mem _ he)) hq
      exact ⟨fuel', d', hread, by rw [hd']; rfl⟩

/-- What is read of an escaped string weighs no more than the string. -/
def Weighs (s : Text) : Prop :=
  ∀ (fuel : Nat) (d : List Nat), readBody fuel (s.flatMap escapeChar ++ ['\'']) = some (d, []) →
    totalWeight d ≤ totalWeight (s.map Char.toNat)

/-- A replacement is read as no more than the control character, and the rest follows. -/
theorem weight_control {c : Char} {s : Text} (hc : IsControl c) {fuel : Nat} {d : List Nat}
    (h : readBody fuel ((c :: s).flatMap escapeChar ++ ['\'']) = some (d, [])) :
    ∃ fuel' d', readBody fuel' (s.flatMap escapeChar ++ ['\'']) = some (d', []) ∧
      totalWeight d ≤ weight c.toNat + totalWeight d' ∧
      (Miswritten c → totalWeight d < weight c.toNat + totalWeight d') := by
  obtain ⟨tail, m, rest, hr⟩ := exists_replacement hc
  cases fuel with
  | zero => cases h
  | succ fuel =>
    rw [List.flatMap_cons, hr.eq, List.cons_append, List.cons_append, List.append_assoc,
      Ecma.readBody_escape, hr.reads, Option.bind_some] at h
    obtain ⟨q, hq, hd⟩ := Option.map_eq_some_iff.1 h
    obtain ⟨rfl, hnil⟩ := Prod.mk.inj hd
    obtain ⟨fuel', d', hread, hq₁⟩ := readBody_plain_append (d := q.1) (r := [])
      hr.rest_plain (by rw [← hnil]; exact hq)
    have h₁ := hr.weight_le
    refine ⟨fuel', d', hread, ?_, fun hmis => ?_⟩
    · rw [hq₁, List.singleton_append, totalWeight_cons, totalWeight_append]
      omega
    · have h₂ := hr.weight_lt hmis
      rw [hq₁, List.singleton_append, totalWeight_cons, totalWeight_append]
      omega

/-- A backslash takes something after it with it. -/
theorem weight_backslash {s : Text} (hquote : '\'' ∉ s) (hnul : '\x00' ∉ s)
    (hs : ∀ s' : Text, s'.length < s.length → '\'' ∉ s' → '\x00' ∉ s' → Weighs s') {fuel : Nat}
    {d : List Nat}
    (h : readBody fuel (('\\' :: s).flatMap escapeChar ++ ['\'']) = some (d, [])) :
    totalWeight d < totalWeight (('\\' :: s).map Char.toNat) := by
  cases fuel with
  | zero => cases h
  | succ fuel =>
    have hinert : escapeChar '\\' = ['\\'] := by decide
    rw [List.flatMap_cons, hinert, List.singleton_append, List.cons_append,
      Ecma.readBody_escape] at h
    obtain ⟨⟨u, t⟩, hescape, h⟩ := Option.bind_eq_some_iff.1 h
    obtain ⟨q, hq, hd⟩ := Option.map_eq_some_iff.1 h
    obtain ⟨rfl, hnil⟩ := Prod.mk.inj hd
    cases s with
    | nil =>
      cases hescape
      cases fuel <;> cases hq
    | cons b s =>
      rw [List.mem_cons, not_or] at hquote hnul
      have hweight : weight '\\'.toNat = 16 := by decide
      simp only [List.map_cons, totalWeight_cons, totalWeight_append, hweight]
      rw [List.flatMap_cons] at hescape
      by_cases hb : IsControl b
      · -- the backslash of a replacement
        obtain ⟨tail, m, rest, hr⟩ := exists_replacement hb
        rw [hr.eq] at hescape
        cases hescape
        obtain ⟨fuel', d', hread, hq₁⟩ := readBody_plain_append (d := q.1) (r := [])
          (fun c hc => (hr.tail_plain c hc).2) (by rw [← hnil, ← List.append_assoc]; exact hq)
        have hle := hs s (by simp) hquote.2 hnul.2 fuel' d' hread
        have := hr.tail_weight
        rw [hq₁, totalWeight_append]
        have h92 : totalWeight ['\\'.toNat] = 16 := by decide
        omega
      · have hb' : escapeChar b = [b] := inert_of_not_control (Ne.symm hquote.1) hb
        rw [hb', List.singleton_append] at hescape
        have hn : b ≠ '\n' := by
          rintro rfl
          exact hb (by decide)
        have hr : b ≠ '\r' := by
          rintro rfl
          exact hb (by decide)
        obtain ⟨⟨k, hk, hin⟩, n, hu⟩ := Ecma.readEscape_spec hn hr hescape
        obtain ⟨s', rfl, rfl⟩ := split_of_inEscape hin hquote.2 hk
        have hle := hs s' (by simp) (fun hm => hquote.2 (List.mem_append_right _ hm))
          (fun hm => hnul.2 (List.mem_append_right _ hm)) fuel q.1
          (hq.trans (congrArg (fun t => some (q.1, t)) hnil))
        have hpos : 0 < weight b.toNat := weight_pos fun h0 => hnul.1 (by
          rw [← Char.ofNat_toNat b, h0])
        have hu16 : totalWeight u ≤ 16 := by
          rcases hu with rfl | rfl
          · simpa using weight_le n
          · exact totalWeight_codeUnits n
        rw [List.map_append, totalWeight_append]
        omega

/-- What is read of an escaped string with a miswritten character weighs less than it. -/
theorem weight_readBody (n : Nat) : ∀ (s : Text), s.length ≤ n → '\'' ∉ s → '\x00' ∉ s →
    ∀ (fuel : Nat) (d : List Nat),
      readBody fuel (s.flatMap escapeChar ++ ['\'']) = some (d, []) →
        totalWeight d ≤ totalWeight (s.map Char.toNat) ∧
          ((∃ c ∈ s, Miswritten c) → totalWeight d < totalWeight (s.map Char.toNat)) := by
  induction n with
  | zero =>
    intro s hle _ _ fuel d h
    obtain rfl := List.length_eq_zero_iff.1 (Nat.le_zero.1 hle)
    cases fuel with
    | zero => cases h
    | succ fuel =>
      cases h
      exact ⟨le_rfl, nofun⟩
  | succ n ih =>
    intro s hle hquote hnul fuel d h
    have hweighs : ∀ s' : Text, s'.length ≤ n → '\'' ∉ s' → '\x00' ∉ s' → Weighs s' :=
      fun s' hs' hq' hn' fuel d h => (ih s' hs' hq' hn' fuel d h).1
    cases s with
    | nil =>
      cases fuel with
      | zero => cases h
      | succ fuel =>
        cases h
        exact ⟨le_rfl, nofun⟩
    | cons c s =>
      have hlen : s.length ≤ n := Nat.le_of_succ_le_succ hle
      have hquote' := List.not_mem_of_not_mem_cons hquote
      have hnul' := List.not_mem_of_not_mem_cons hnul
      rw [List.map_cons, totalWeight_cons]
      by_cases hcontrol : IsControl c
      · obtain ⟨fuel', d', hread, hle₁, hlt₁⟩ := weight_control hcontrol h
        obtain ⟨hle₂, hlt₂⟩ := ih s hlen hquote' hnul' fuel' d' hread
        refine ⟨by omega, ?_⟩
        rintro ⟨b, hb, hmis⟩
        rcases List.mem_cons.1 hb with rfl | hb
        · have := hlt₁ hmis
          omega
        · have := hlt₂ ⟨b, hb, hmis⟩
          omega
      by_cases hback : c = '\\'
      · rw [hback] at h ⊢
        have hlt := weight_backslash hquote' hnul'
          (fun s' hs' => hweighs s' (hs'.le.trans hlen)) h
        exact ⟨hlt.le, fun _ => hlt⟩
      -- the character stands for itself, and is not miswritten
      have hc : c ≠ '\'' := fun heq => hquote (heq ▸ List.mem_cons_self)
      have hinert : escapeChar c = [c] := inert_of_not_control hc hcontrol
      cases fuel with
      | zero => cases h
      | succ fuel =>
        rw [List.flatMap_cons, hinert, List.singleton_append, List.cons_append,
          Ecma.readBody_plain (isPlain_of_not_control hc hback hcontrol)] at h
        obtain ⟨q, hq, hd⟩ := Option.map_eq_some_iff.1 h
        obtain ⟨rfl, hnil⟩ := Prod.mk.inj hd
        obtain ⟨hle₂, hlt₂⟩ := ih s hlen hquote' hnul' fuel q.1
          (hq.trans (congrArg (fun t => some (q.1, t)) hnil))
        rw [totalWeight_cons]
        refine ⟨by omega, ?_⟩
        rintro ⟨b, hb, hmis⟩
        rcases List.mem_cons.1 hb with rfl | hb
        · rcases hmis with rfl | rfl | hmis | hmis
          · exact absurd rfl hback
          · exact absurd (by decide) hcontrol
          · exact absurd (.inl ⟨by omega, hmis.2⟩) hcontrol
          · exact absurd (.inr hmis) hcontrol
        · have := hlt₂ ⟨b, hb, hmis⟩
          omega

end B2
