import B2.Parser.Lexer
import Mathlib.Data.List.DropRight

/-!
# Chunks

A template cut into the chunks between its tags and comments; a tag ends where
the rules of the tag meet its closing sign, so a closing sign in a string
literal does not end it. Of a chunk the blanks directly after a `%-}` and
directly before a `{-%` are not part of the text (`Chunk.trimmed`). What the
scanner returns of a chunk is `Chunk.scanned`, which keeps `eat_whitespace` set
past lone braces: it is shorter exactly where a blank comes after such a brace
(`Chunk.scanned_trimmed`).
-/

namespace B2

open Flex (Rule Regex Config)

/-! ## Chunks -/

/-- The signs that end a chunk. -/
inductive Opener where
  | variableTag | blockTag | trimmingBlockTag | comment
  deriving DecidableEq

def Opener.condition : Opener → Condition
  | .variableTag => .inVariable
  | .blockTag | .trimmingBlockTag => .inBlock
  | .comment => .inComment

/-- The sign a text starts with, and what comes after it. -/
def openerAt : Text → Option (Opener × Text)
  | '\x7b' :: '\x7b' :: t => some (.variableTag, t)
  | '\x7b' :: '%' :: t => some (.blockTag, t)
  | '\x7b' :: '-' :: '%' :: t => some (.trimmingBlockTag, t)
  | '\x7b' :: '#' :: t => some (.comment, t)
  | _ => none

/-- The text up to the first opening sign, that sign, and what comes after it. -/
def untilOpener : Text → Text × Option (Opener × Text)
  | [] => ([], none)
  | c :: t =>
    match openerAt (c :: t) with
    | some r => ([], some r)
    | none => (c :: (untilOpener t).1, (untilOpener t).2)

/-- What comes after the end of a comment, if it ends. -/
def afterComment : Text → Option Text
  | [] => none
  | '#' :: '\x7d' :: t => some t
  | _ :: t => afterComment t

/-- The closing sign a text starts with: whether it is a `%-}`, and what comes after it. -/
def closerAt : Condition → Text → Option (Bool × Text)
  | .inVariable, '\x7d' :: '\x7d' :: t => some (false, t)
  | .inBlock, '%' :: '\x7d' :: t => some (false, t)
  | .inBlock, '%' :: '-' :: '\x7d' :: t => some (true, t)
  | _, _ => none

/-- The end of a tag, if it ends: what is not a closing sign is read by the rules of the tag. -/
def afterTag (fuel : Nat) (c : Condition) (t : Text) : Option (Bool × Text) :=
  match fuel with
  | 0 => none
  | fuel + 1 =>
    match closerAt c t with
    | some r => some r
    | none => (lexer.step ⟨⟨c, false⟩, 1, t⟩).bind fun p => afterTag fuel c p.2.unread

/-- The text between two tags or comments. -/
structure Chunk where
  /-- directly after a `%-}` -/
  afterTrim : Bool
  text : Text
  /-- directly before a `{-%` -/
  beforeTrim : Bool
  deriving DecidableEq

def chunksWithin (fuel : Nat) (afterTrim : Bool) (t : Text) : List Chunk :=
  match fuel with
  | 0 => []
  | fuel + 1 =>
    match untilOpener t with
    | (text, none) => [⟨afterTrim, text, false⟩]
    | (text, some (.comment, rest)) =>
      ⟨afterTrim, text, false⟩ ::
        match afterComment rest with
        | none => []
        | some rest => chunksWithin fuel false rest
    | (text, some (o, rest)) =>
      ⟨afterTrim, text, o = .trimmingBlockTag⟩ ::
        match afterTag rest.length o.condition rest with
        | none => []
        | some (trim, rest) => chunksWithin fuel trim rest

/-- The chunks of a template. -/
def chunks (t : Text) : List Chunk := chunksWithin (t.length + 1) false t

/-- The text of a chunk: blanks directly after a `%-}` or directly before a `{-%` are not
part of it. -/
def Chunk.trimmed (ch : Chunk) : Text :=
  let t := if ch.afterTrim then ch.text.dropWhile isBlank else ch.text
  if ch.beforeTrim then List.rdropWhile isBlank t else t

/-! ## What the scanner does with a chunk -/

/-- The text the scanner returns of a chunk; `eat` is its flag. -/
def scanChunk (beforeTrim : Bool) : Bool → Text → Text
  | _, [] => []
  | eat, c :: t =>
    if isBlank c then
      if eat || (beforeTrim && t.all isBlank) then scanChunk beforeTrim eat t
      else c :: scanChunk beforeTrim eat t
    else c :: scanChunk beforeTrim (eat && c = '\x7b') t

def Chunk.scanned (ch : Chunk) : Text := scanChunk ch.beforeTrim ch.afterTrim ch.text

/-- Blanks and at least one lone brace come directly after a `%-}`, and then a blank that is
not directly before a `{-%`. -/
def Chunk.BlankAfterBrace (ch : Chunk) : Prop :=
  ch.afterTrim = true ∧ ∃ u b v, ch.text = u ++ b :: v ∧ isBlank b = true ∧
    (∀ c ∈ u, isBlank c = true ∨ c = '\x7b') ∧ '\x7b' ∈ u ∧
      (ch.beforeTrim = true → v.all isBlank = false)

/-! ## Opening signs -/

theorem openerAt_cons_of_ne {c : Char} (h : c ≠ '\x7b') (t : Text) : openerAt (c :: t) = none := by
  unfold openerAt
  split <;> simp_all

theorem untilOpener_append {w : Text} (hw : ∀ c ∈ w, c ≠ '\x7b') (t : Text) :
    untilOpener (w ++ t) = (w ++ (untilOpener t).1, (untilOpener t).2) := by
  induction w with
  | nil => rfl
  | cons c w ih =>
    rw [List.cons_append, untilOpener, openerAt_cons_of_ne (hw c List.mem_cons_self)]
    simp only [ih fun d hd => hw d (List.mem_cons_of_mem _ hd), List.cons_append]

/-- The next opening sign is a `{-%`. -/
def trims : Option (Opener × Text) → Bool
  | some (.trimmingBlockTag, _) => true
  | _ => false

theorem trim_prefix_iff (t : Text) :
    "\x7b-%".toList <+: t ↔ (untilOpener t).1 = [] ∧ trims (untilOpener t).2 = true := by
  constructor
  · rintro ⟨rest, rfl⟩
    exact ⟨rfl, rfl⟩
  · rintro ⟨hnil, htrims⟩
    cases t with
    | nil => cases htrims
    | cons c t =>
      rw [untilOpener] at hnil htrims
      cases hopen : openerAt (c :: t) with
      | none =>
        rw [hopen] at hnil
        cases hnil
      | some r =>
        rw [hopen] at htrims
        unfold openerAt at hopen
        split at hopen <;> cases hopen
        · cases htrims
        · cases htrims
        · rename_i rest heq
          rw [heq]
          exact ⟨rest, rfl⟩
        · cases htrims

theorem head_untilOpener {c : Char} {t : Text} (h : c ∈ (untilOpener t).1.head?) :
    c ∈ t.head? := by
  cases t with
  | nil => cases h
  | cons d t =>
    rw [untilOpener] at h
    cases hopen : openerAt (d :: t) with
    | none =>
      rw [hopen] at h
      exact h
    | some r =>
      rw [hopen] at h
      cases h

/-! ## What is lost of a chunk -/

theorem scanChunk_word {beforeTrim eat : Bool} {w : Text} (hne : w ≠ [])
    (hw : ∀ c ∈ w, isWord c = true) (t : Text) :
    scanChunk beforeTrim eat (w ++ t) = w ++ scanChunk beforeTrim false t := by
  induction w generalizing eat with
  | nil => exact absurd rfl hne
  | cons c w ih =>
    have hc : c ≠ '\x7b' ∧ isBlank c = false := by simpa [isWord] using hw c List.mem_cons_self
    rw [List.cons_append, scanChunk, hc.2]
    simp only [Bool.false_eq_true, if_false, decide_eq_false hc.1, Bool.and_false]
    cases w with
    | nil => rfl
    | cons d w => rw [ih (by simp) fun d hd => hw d (List.mem_cons_of_mem _ hd)]; rfl

theorem scanChunk_blank {beforeTrim eat : Bool} {w t : Text} (hw : ∀ c ∈ w, isBlank c = true)
    (ht : ∀ c ∈ t.head?, isBlank c = false) :
    scanChunk beforeTrim eat (w ++ t) =
      (if eat || (beforeTrim && t = []) then [] else w) ++ scanChunk beforeTrim eat t := by
  have hall : ∀ v : Text, (∀ c ∈ v, isBlank c = true) → (v ++ t).all isBlank = decide (t = []) := by
    intro v hv
    rw [List.all_append, List.all_eq_true.2 hv, Bool.true_and]
    cases t with
    | nil => rfl
    | cons d t => simp [ht d rfl]
  induction w with
  | nil => simp
  | cons c w ih =>
    have hw' : ∀ d ∈ w, isBlank d = true := fun d hd => hw d (List.mem_cons_of_mem _ hd)
    rw [List.cons_append, scanChunk, if_pos (hw c List.mem_cons_self), hall w hw', ih hw']
    split_ifs <;> rfl

section

variable {beforeTrim : Bool}

theorem rdropWhile_cons {α : Type} (p : α → Bool) (a : α) (l : List α) :
    (a :: l).rdropWhile p = if p a && l.all p then [] else a :: l.rdropWhile p := by
  induction l using List.reverseRecOn with
  | nil => cases h : p a <;> simp [List.rdropWhile, h]
  | append_singleton l b ih =>
    rw [← List.cons_append, List.rdropWhile_concat, List.rdropWhile_concat]
    cases hb : p b
    · simp [hb]
    · simp [hb, ih]

/-- Without the flag the scanner leaves out the blanks before a `{-%` and nothing else. -/
theorem scanChunk_false (t : Text) : scanChunk beforeTrim false t =
    if beforeTrim then List.rdropWhile isBlank t else t := by
  induction t with
  | nil => cases beforeTrim <;> rfl
  | cons c t ih =>
    rw [scanChunk, rdropWhile_cons, Bool.false_or, Bool.false_and, ih]
    cases beforeTrim
    · simp
    · have hall : t.all isBlank = true → List.rdropWhile isBlank t = [] := fun h =>
        List.rdropWhile_eq_nil_iff.2 (List.all_eq_true.1 h)
      cases hc : isBlank c <;> cases ht : t.all isBlank <;> simp [hall, ht]

/-- A blank after blanks and lone braces only that is not directly before a `{-%`. -/
def LateBlank (beforeTrim : Bool) (t : Text) : Prop :=
  ∃ u b v, t = u ++ b :: v ∧ isBlank b = true ∧ (∀ c ∈ u, isBlank c = true ∨ c = '\x7b') ∧
    (beforeTrim = true → v.all isBlank = false)

theorem lateBlank_cons {c : Char} {t : Text} : LateBlank beforeTrim (c :: t) ↔
    (isBlank c = true ∧ (beforeTrim = true → t.all isBlank = false)) ∨
      ((isBlank c = true ∨ c = '\x7b') ∧ LateBlank beforeTrim t) := by
  constructor
  · rintro ⟨u, b, v, hsplit, hb, hu, hv⟩
    cases u with
    | nil =>
      obtain ⟨rfl, rfl⟩ := List.cons.inj hsplit
      exact .inl ⟨hb, hv⟩
    | cons d u =>
      obtain ⟨rfl, rfl⟩ := List.cons.inj hsplit
      exact .inr ⟨hu c List.mem_cons_self, u, b, v, rfl, hb,
        fun e he => hu e (List.mem_cons_of_mem _ he), hv⟩
  · rintro (⟨hc, hv⟩ | ⟨hc, u, b, v, rfl, hb, hu, hv⟩)
    · exact ⟨[], c, t, rfl, hc, nofun, hv⟩
    · refine ⟨c :: u, b, v, rfl, hb, fun d hd => ?_, hv⟩
      rcases List.mem_cons.1 hd with rfl | hd
      · exact hc
      · exact hu d hd

/-- With the flag set the scanner returns less exactly where there is a late blank. -/
theorem scanChunk_true (t : Text) :
    (¬LateBlank beforeTrim t → scanChunk beforeTrim true t = scanChunk beforeTrim false t) ∧
      (LateBlank beforeTrim t →
        (scanChunk beforeTrim true t).length < (scanChunk beforeTrim false t).length) := by
  induction t with
  | nil => exact ⟨fun _ => rfl, fun ⟨u, b, v, h, _⟩ => by simp at h⟩
  | cons c t ih =>
    rw [lateBlank_cons, scanChunk, scanChunk]
    have hle : (scanChunk beforeTrim true t).length ≤ (scanChunk beforeTrim false t).length := by
      by_cases hlate : LateBlank beforeTrim t
      · exact (ih.2 hlate).le
      · rw [ih.1 hlate]
    cases hc : isBlank c with
    | true =>
      cases htrim : (beforeTrim && t.all isBlank) with
      | true =>
        -- directly before a `{-%`
        obtain ⟨rfl, hall⟩ := Bool.and_eq_true_iff.1 htrim
        simpa [hall] using ih
      | false =>
        have hlate : beforeTrim = true → t.all isBlank = false := fun h => by simpa [h] using htrim
        simp only [Bool.true_or, Bool.false_or, if_true, Bool.false_eq_true, if_false,
          List.length_cons, true_and]
        exact ⟨fun h => absurd (.inl hlate) h, fun _ => by omega⟩
    | false =>
      by_cases hbrace : c = '\x7b'
      · simpa [hbrace] using ih
      · simp [hbrace]

theorem scanChunk_dropWhile (t : Text) :
    scanChunk beforeTrim true (t.dropWhile isBlank) = scanChunk beforeTrim true t := by
  induction t with
  | nil => rfl
  | cons c t ih =>
    rw [List.dropWhile_cons]
    split_ifs with hc
    · rw [ih, scanChunk, if_pos hc, Bool.true_or, if_pos rfl]
    · rfl

end

/-- What comes late after the blanks directly after a `%-}` comes after a brace. -/
theorem Chunk.blankAfterBrace_iff (ch : Chunk) : ch.BlankAfterBrace ↔
    ch.afterTrim = true ∧ LateBlank ch.beforeTrim (ch.text.dropWhile isBlank) := by
  refine and_congr_right fun _ => ⟨?_, ?_⟩
  · rintro ⟨u, b, v, hsplit, hb, hu, hbrace, hv⟩
    refine ⟨u.dropWhile isBlank, b, v, ?_, hb, fun c hc => hu c ?_, hv⟩
    · have hne : (u.dropWhile isBlank).isEmpty = false := by
        rw [List.isEmpty_eq_false_iff, Ne, List.dropWhile_eq_nil_iff]
        exact fun h => absurd (h _ hbrace) (by decide)
      rw [hsplit, List.dropWhile_append, hne]
      rfl
    · exact (List.dropWhile_suffix _).subset hc
  · rintro ⟨u, b, v, hsplit, hb, hu, hv⟩
    refine ⟨ch.text.takeWhile isBlank ++ u, b, v, ?_, hb, fun c hc => ?_, ?_, hv⟩
    · rw [List.append_assoc, ← hsplit, List.takeWhile_append_dropWhile]
    · rcases List.mem_append.1 hc with hc | hc
      · exact .inl (List.mem_takeWhile_imp hc)
      · exact hu c hc
    · have hhead := List.head?_dropWhile_not isBlank ch.text
      rw [hsplit] at hhead
      cases u with
      | nil => exact absurd hb (by simpa using hhead)
      | cons c u =>
        rcases hu c List.mem_cons_self with hc | rfl
        · exact absurd hc (by simpa using hhead)
        · simp

/-- The scanner returns the text of a chunk, and less exactly where a blank comes after a lone
brace. -/
theorem Chunk.scanned_trimmed (ch : Chunk) :
    (¬ch.BlankAfterBrace → ch.scanned = ch.trimmed) ∧
      (ch.BlankAfterBrace → ch.scanned.length < ch.trimmed.length) := by
  rw [ch.blankAfterBrace_iff, Chunk.scanned, Chunk.trimmed, ← scanChunk_false]
  cases ch.afterTrim with
  | false => exact ⟨fun _ => rfl, fun h => absurd h.1 (by decide)⟩
  | true =>
    rw [← scanChunk_dropWhile]
    simpa using scanChunk_true (ch.text.dropWhile isBlank)

/-- Chunk by chunk. -/
theorem flatMap_scanned_eq_iff (l : List Chunk) :
    l.flatMap Chunk.scanned = l.flatMap Chunk.trimmed ↔ ∀ ch ∈ l, ¬ch.BlankAfterBrace := by
  constructor
  · intro h ch hch hblank
    have hle : ∀ ch ∈ l, ch.scanned.length ≤ ch.trimmed.length := by
      intro ch _
      by_cases hb : ch.BlankAfterBrace
      · exact (ch.scanned_trimmed.2 hb).le
      · rw [ch.scanned_trimmed.1 hb]
    have hlt := List.sum_lt_sum _ _ hle ⟨ch, hch, ch.scanned_trimmed.2 hblank⟩
    have := congrArg List.length h
    rw [List.length_flatMap, List.length_flatMap] at this
    omega
  · intro h
    rw [List.flatMap_congr fun ch hch => ch.scanned_trimmed.1 (h ch hch)]

end B2
