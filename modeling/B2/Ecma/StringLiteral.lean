import Mathlib.Tactic

/-!
# String literals of ECMAScript

Reading a single-quoted string literal, in code that is not strict: escape
sequences with the legacy octal ones, line continuations, and the closing
quote. A character of the source is a byte and stands for the code unit of the
same number. `readString` returns the code units of the literal and the text
after it.
-/

namespace Ecma

def hexDigit (c : Char) : Option Nat :=
  if '0' ≤ c ∧ c ≤ '9' then some (c.toNat - '0'.toNat)
  else if 'a' ≤ c ∧ c ≤ 'f' then some (c.toNat - 'a'.toNat + 10)
  else if 'A' ≤ c ∧ c ≤ 'F' then some (c.toNat - 'A'.toNat + 10)
  else none

def octalDigit (c : Char) : Option Nat :=
  if '0' ≤ c ∧ c ≤ '7' then some (c.toNat - '0'.toNat) else none

/-- The code units of a code point. -/
def codeUnits (n : Nat) : List Nat :=
  if n < 0x10000 then [n]
  else [0xD800 + (n - 0x10000) / 0x400, 0xDC00 + (n - 0x10000) % 0x400]

/-- `n` hexadecimal digits, after those that gave `v`. -/
def readHex : Nat → Nat → List Char → Option (Nat × List Char)
  | 0, v, t => some (v, t)
  | n + 1, v, c :: t => (hexDigit c).bind fun d => readHex n (16 * v + d) t
  | _ + 1, _, [] => none

/-- Hexadecimal digits up to a closing brace; `some` digit has been read. -/
def readBraced : Bool → Nat → List Char → Option (Nat × List Char)
  | _, _, [] => none
  | started, v, c :: t =>
    if c = '\x7d' then if started ∧ v ≤ 0x10FFFF then some (v, t) else none
    else (hexDigit c).bind fun d => readBraced true (16 * v + d) t

/-- Up to `n` more octal digits. -/
def readOctal : Nat → Nat → List Char → Nat × List Char
  | n + 1, v, c :: t =>
    match octalDigit c with
    | some d => readOctal n (8 * v + d) t
    | none => (v, c :: t)
  | _, v, t => (v, t)

/-- The escape sequence after a backslash: its code units, and the text after it. -/
def readEscape : List Char → Option (List Nat × List Char)
  | [] => none
  | '\n' :: t => some ([], t)
  | '\r' :: '\n' :: t => some ([], t)
  | '\r' :: t => some ([], t)
  | 'b' :: t => some ([8], t)
  | 't' :: t => some ([9], t)
  | 'n' :: t => some ([10], t)
  | 'v' :: t => some ([11], t)
  | 'f' :: t => some ([12], t)
  | 'r' :: t => some ([13], t)
  | 'x' :: t => (readHex 2 0 t).map fun r => ([r.1], r.2)
  | 'u' :: '\x7b' :: t => (readBraced false 0 t).map fun r => (codeUnits r.1, r.2)
  | 'u' :: t => (readHex 4 0 t).map fun r => ([r.1], r.2)
  | c :: t =>
    match octalDigit c with
    | some d =>
      let r := readOctal (if d ≤ 3 then 2 else 1) d t
      some ([r.1], r.2)
    | none => some ([c.toNat], t)

/-- The rest of a literal after its opening quote; every round reads at least one character. -/
def readBody : Nat → List Char → Option (List Nat × List Char)
  | _ + 1, '\'' :: t => some ([], t)
  | fuel + 1, '\\' :: t => (readEscape t).bind fun r =>
    (readBody fuel r.2).map fun q => (r.1 ++ q.1, q.2)
  | _ + 1, '\n' :: _ => none
  | _ + 1, '\r' :: _ => none
  | fuel + 1, c :: t => (readBody fuel t).map fun q => (c.toNat :: q.1, q.2)
  | _, _ => none

/-- A literal at the start of a text. -/
def readString : List Char → Option (List Nat × List Char)
  | '\'' :: t => readBody t.length t
  | _ => none

example : readString "'a\\x41\\u0042\\u{43}\\104\\\\\\''+".toList =
    some ("aABCD\\'".toList.map Char.toNat, ['+']) := by decide

/-! ## What an escape sequence reads -/

/-- The characters after the first one of an escape sequence. -/
def InEscape (c : Char) : Prop := (hexDigit c).isSome = true ∨ c = '\x7b' ∨ c = '\x7d'

theorem readHex_spec {n v w : Nat} {t t' : List Char} (h : readHex n v t = some (w, t')) :
    ∃ k, t = k ++ t' ∧ ∀ c ∈ k, InEscape c := by
  induction n generalizing v t with
  | zero =>
    cases h
    exact ⟨[], rfl, nofun⟩
  | succ n ih =>
    cases t with
    | nil => cases h
    | cons c t =>
      obtain ⟨d, hd, h⟩ := Option.bind_eq_some_iff.1 h
      obtain ⟨k, rfl, hk⟩ := ih h
      exact ⟨c :: k, rfl, List.forall_mem_cons.2 ⟨.inl (by rw [hd]; rfl), hk⟩⟩

theorem readBraced_spec {started : Bool} {v w : Nat} {t t' : List Char}
    (h : readBraced started v t = some (w, t')) : ∃ k, t = k ++ t' ∧ ∀ c ∈ k, InEscape c := by
  induction t generalizing started v with
  | nil => cases h
  | cons c t ih =>
    rw [readBraced] at h
    split_ifs at h with hc
    · cases h
      exact ⟨[c], rfl, by simp [InEscape, hc]⟩
    · obtain ⟨d, hd, h⟩ := Option.bind_eq_some_iff.1 h
      obtain ⟨k, rfl, hk⟩ := ih h
      exact ⟨c :: k, rfl, List.forall_mem_cons.2 ⟨.inl (by rw [hd]; rfl), hk⟩⟩

theorem inEscape_of_octalDigit {c : Char} {d : Nat} (h : octalDigit c = some d) : InEscape c := by
  refine .inl ?_
  rw [octalDigit] at h
  split_ifs at h with hc
  rw [hexDigit, if_pos ⟨hc.1, Char.le_trans hc.2 (by decide)⟩]
  rfl

theorem readOctal_spec (n v : Nat) (t : List Char) :
    ∃ k, t = k ++ (readOctal n v t).2 ∧ ∀ c ∈ k, InEscape c := by
  induction n generalizing v t with
  | zero => exact ⟨[], rfl, nofun⟩
  | succ n ih =>
    cases t with
    | nil => exact ⟨[], rfl, nofun⟩
    | cons c t =>
      rw [readOctal]
      cases hd : octalDigit c with
      | none => exact ⟨[], rfl, nofun⟩
      | some d =>
        obtain ⟨k, hk, hall⟩ := ih (8 * v + d) t
        refine ⟨c :: k, ?_, List.forall_mem_cons.2 ⟨inEscape_of_octalDigit hd, hall⟩⟩
        rw [List.cons_append, ← hk]

/-- An escape sequence that is no line continuation stands for one character. -/
theorem readEscape_spec {c : Char} {t t' : List Char} {u : List Nat} (hn : c ≠ '\n') (hr : c ≠ '\r')
    (h : readEscape (c :: t) = some (u, t')) :
    (∃ k, t = k ++ t' ∧ ∀ x ∈ k, InEscape x) ∧ ∃ n, u = [n] ∨ u = codeUnits n := by
  have hone : ∀ n, some ([n], t) = some (u, t') →
      (∃ k, t = k ++ t' ∧ ∀ x ∈ k, InEscape x) ∧ ∃ n, u = [n] ∨ u = codeUnits n := by
    intro n h
    cases h
    exact ⟨⟨[], rfl, nofun⟩, n, .inl rfl⟩
  unfold readEscape at h
  split at h
  case h_1 heq => cases heq
  case h_2 heq =>
    cases heq
    exact absurd rfl hn
  case h_3 heq | h_4 heq =>
    cases heq
    exact absurd rfl hr
  case h_5 heq | h_6 heq | h_7 heq | h_8 heq | h_9 heq | h_10 heq =>
    cases heq
    exact hone _ h
  case h_11 heq =>
    cases heq
    obtain ⟨r, hread, hr⟩ := Option.map_eq_some_iff.1 h
    cases hr
    exact ⟨readHex_spec hread, r.1, .inl rfl⟩
  case h_12 heq =>
    cases heq
    obtain ⟨r, hread, hr⟩ := Option.map_eq_some_iff.1 h
    cases hr
    obtain ⟨k, rfl, hk⟩ := readBraced_spec hread
    exact ⟨⟨'\x7b' :: k, rfl, List.forall_mem_cons.2 ⟨.inr (.inl rfl), hk⟩⟩, r.1, .inr rfl⟩
  case h_13 heq =>
    cases heq
    obtain ⟨r, hread, hr⟩ := Option.map_eq_some_iff.1 h
    cases hr
    exact ⟨readHex_spec hread, r.1, .inl rfl⟩
  case h_14 heq =>
    cases heq
    cases hd : octalDigit c with
    | none =>
      rw [hd] at h
      exact hone _ h
    | some d =>
      rw [hd] at h
      cases h
      exact ⟨readOctal_spec _ _ _, _, .inl rfl⟩

/-- The characters that stand for themselves in a literal. -/
def IsPlain (c : Char) : Prop := c ≠ '\'' ∧ c ≠ '\\' ∧ c ≠ '\n' ∧ c ≠ '\r'

theorem readBody_plain {fuel : Nat} {c : Char} {t : List Char} (h : IsPlain c) :
    readBody (fuel + 1) (c :: t) = (readBody fuel t).map fun q => (c.toNat :: q.1, q.2) := by
  obtain ⟨hquote, hbackslash, hn, hr⟩ := h
  rw [readBody] <;> assumption

theorem readBody_escape {fuel : Nat} {t : List Char} :
    readBody (fuel + 1) ('\\' :: t) = (readEscape t).bind fun r =>
      (readBody fuel r.2).map fun q => (r.1 ++ q.1, q.2) := rfl

end Ecma
