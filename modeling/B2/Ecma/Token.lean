import Mathlib.Tactic

/-!
# Tokens of ECMAScript

The text of an expression is given as words (identifiers, numbers and string
literals, each a token) and single characters. Characters that stand next to
each other are read by the longest match (`munch`).
-/

namespace Ecma

/-- A piece of source text. -/
inductive Piece (α : Type) where
  | word (w : α)
  | char (c : Char)

inductive Token (α : Type) where
  | word (w : α)
  | punctuator (t : List Char)

/-- The proof that all decisions about spellings share. -/
instance lawfulSpellings : LawfulBEq (List Char) := inferInstance

/-- The punctuators of expressions. Every first part of one is one. -/
def punctuators : List (List Char) :=
  ["(", ")", "[", "]", ".", ",", ":", "?", "?.", "??", "<", ">", "<=", ">=", "=", "==", "!=",
    "===", "!==", "=>", "+", "-", "*", "/", "%", "**", "++", "--", "<<", ">>", ">>>", "&", "|",
    "^", "!", "~", "&&", "||", "+=", "-=", "*=", "/=", "%=", "**=", "<<=", ">>=", ">>>=", "&=",
    "|=", "^=", "&&=", "||=", "??="].map String.toList

/-- A punctuator that has been read, if one has. -/
def flush {α : Type} (pending : List Char) : List (Token α) :=
  if pending = [] then [] else [.punctuator pending]

/-- The tokens of a text; `pending` is the punctuator that is being read. -/
def munch {α : Type} : List Char → List (Piece α) → List (Token α)
  | pending, [] => flush pending
  | pending, .word w :: ps => flush pending ++ .word w :: munch [] ps
  | pending, .char c :: ps =>
    if c = ' ' then flush pending ++ munch [] ps
    else if pending ++ [c] ∈ punctuators then munch (pending ++ [c]) ps
    else flush pending ++ munch [c] ps

section

variable {α : Type} {c : Char} {pending : List Char} {ps : List (Piece α)}

theorem munch_extends (hc : c ≠ ' ') (h : pending ++ [c] ∈ punctuators) :
    munch pending (.char c :: ps) = munch (pending ++ [c]) ps := by
  rw [munch, if_neg hc, if_pos h]

theorem munch_ends (hc : c ≠ ' ') (h : pending ++ [c] ∉ punctuators) :
    munch pending (.char c :: ps) = flush pending ++ munch [c] ps := by
  rw [munch, if_neg hc, if_neg h]

theorem munch_start (hc : c ≠ ' ') : munch [] (.char c :: ps) = munch [c] ps := by
  by_cases h : [] ++ [c] ∈ punctuators
  · exact munch_extends hc h
  · exact munch_ends hc h

theorem munch_flush : munch pending (.char ' ' :: ps) = flush pending ++ munch [] ps := by
  rw [munch, if_pos rfl]

/-- A blank ends a token. -/
theorem munch_append_blank (ps qs : List (Piece α)) (pending : List Char) :
    munch pending (ps ++ .char ' ' :: qs) = munch pending ps ++ munch [] qs := by
  induction ps generalizing pending with
  | nil => exact munch_flush
  | cons p ps ih =>
    cases p with
    | word w => simp only [List.cons_append, munch, ih, List.append_assoc]
    | char c =>
      simp only [List.cons_append, munch, ih]
      split_ifs <;> simp only [List.append_assoc]

/-- A punctuator that no character extends. -/
theorem munch_alone (hne : pending ≠ [])
    (h : ∀ t ∈ punctuators, t.take pending.length = pending → t = pending) :
    munch pending ps = .punctuator pending :: munch [] ps := by
  have hends : ∀ d, pending ++ [d] ∉ punctuators := by
    intro d hmem
    have heq := h _ hmem (List.take_left' rfl)
    exact List.cons_ne_nil d [] (List.append_right_eq_self.1 heq)
  have hflush : (flush pending : List (Token α)) = [.punctuator pending] := if_neg hne
  match ps with
  | [] => exact hflush
  | .word w :: ps =>
    show flush pending ++ _ = _
    rw [hflush]
    rfl
  | .char d :: ps =>
    by_cases hd : d = ' '
    · subst hd
      rw [munch_flush, munch_flush, hflush]
      rfl
    · rw [munch_ends hd (hends d), munch_start hd, hflush]
      rfl

end

end Ecma
