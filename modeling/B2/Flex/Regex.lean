import Mathlib.Computability.Language
import Mathlib.Data.List.TakeWhile
import Mathlib.Tactic

/-!
# Regular expressions of a scanner

Regular expressions over character classes, their languages, and the longest
match at the start of a text, computed by derivatives (`longest`). A derivative
that matches nothing is `empty` itself, so a pattern that cannot start with a
character is seen to fail by evaluation (`longest_eq_none_of_deriv`).
-/

namespace Flex

inductive Regex (α : Type) where
  | empty
  | epsilon
  /-- one character of a class -/
  | cls (p : α → Bool)
  | alt (r s : Regex α)
  | seq (r s : Regex α)
  | star (r : Regex α)

namespace Regex

variable {α : Type}

def plus (r : Regex α) : Regex α := .seq r (.star r)

/-- A fixed text. -/
def str [DecidableEq α] : List α → Regex α
  | [] => .epsilon
  | a :: w => .seq (.cls (· == a)) (str w)

/-- A fixed text as a pattern; no scanner has an empty one. -/
def literal [DecidableEq α] : List α → Regex α
  | [] => .empty
  | a :: w => str (a :: w)

def language : Regex α → Language α
  | .empty => 0
  | .epsilon => 1
  | .cls p => {w | ∃ a, p a = true ∧ w = [a]}
  | .alt r s => language r + language s
  | .seq r s => language r * language s
  | .star r => KStar.kstar (language r)

def nullable : Regex α → Bool
  | .empty | .cls _ => false
  | .epsilon | .star _ => true
  | .alt r s => nullable r || nullable s
  | .seq r s => nullable r && nullable s

/-- `alt` without the sides that match nothing. -/
def union : Regex α → Regex α → Regex α
  | .empty, s => s
  | r, .empty => r
  | r, s => .alt r s

/-- `seq` without the sides that match nothing. -/
def concat : Regex α → Regex α → Regex α
  | .empty, _ => .empty
  | .epsilon, s => s
  | r, s => .seq r s

/-- What is left to match after `a`. -/
def deriv (a : α) : Regex α → Regex α
  | .empty | .epsilon => .empty
  | .cls p => if p a then .epsilon else .empty
  | .alt r s => union (deriv a r) (deriv a s)
  | .seq r s =>
    if nullable r then union (concat (deriv a r) s) (deriv a s) else concat (deriv a r) s
  | .star r => concat (deriv a r) (.star r)

def isEmpty : Regex α → Bool
  | .empty => true
  | _ => false

/-! ## Languages -/

theorem nullable_iff (r : Regex α) : r.nullable = true ↔ [] ∈ r.language := by
  induction r with
  | empty => simp [nullable, language]
  | epsilon => simp [nullable, language]
  | cls p => exact ⟨nofun, fun ⟨_, _, h⟩ => nomatch h⟩
  | alt r s ihr ihs => simp [nullable, language, Language.mem_add, ihr, ihs]
  | seq r s ihr ihs =>
    simp only [nullable, language, Language.mem_mul, Bool.and_eq_true, ihr, ihs,
      List.append_eq_nil_iff]
    constructor
    · exact fun ⟨hr, hs⟩ => ⟨[], hr, [], hs, rfl, rfl⟩
    · rintro ⟨_, hr, _, hs, rfl, rfl⟩
      exact ⟨hr, hs⟩
  | star r => simp [nullable, language, Language.nil_mem_kstar]

theorem mem_cls {p : α → Bool} {w : List α} :
    w ∈ (cls p).language ↔ ∃ a, p a = true ∧ w = [a] := Iff.rfl

theorem cons_mem_cls {p : α → Bool} {a : α} {w : List α} :
    a :: w ∈ (cls p).language ↔ p a = true ∧ w = [] := by
  rw [mem_cls]
  constructor
  · rintro ⟨b, hb, h⟩
    obtain ⟨rfl, rfl⟩ := List.cons.inj h
    exact ⟨hb, rfl⟩
  · rintro ⟨ha, rfl⟩
    exact ⟨a, ha, rfl⟩

theorem mem_alt {r s : Regex α} {w : List α} :
    w ∈ (alt r s).language ↔ w ∈ r.language ∨ w ∈ s.language := Iff.rfl

theorem mem_seq {r s : Regex α} {w : List α} :
    w ∈ (seq r s).language ↔ ∃ u ∈ r.language, ∃ v ∈ s.language, u ++ v = w := Iff.rfl

theorem nil_mem_star {r : Regex α} : [] ∈ (star r).language := Language.nil_mem_kstar _

theorem language_union (r s : Regex α) : (union r s).language = r.language + s.language := by
  cases r <;> cases s <;> first | exact (zero_add _).symm | exact (add_zero _).symm | rfl

theorem language_concat (r s : Regex α) : (concat r s).language = r.language * s.language := by
  cases r <;> simp [concat, language]

theorem cons_mem_mul {L M : Language α} {a : α} {w : List α} :
    a :: w ∈ L * M ↔
      (∃ u v, a :: u ∈ L ∧ v ∈ M ∧ w = u ++ v) ∨ ([] ∈ L ∧ a :: w ∈ M) := by
  rw [Language.mem_mul]
  constructor
  · rintro ⟨u, hu, v, hv, huv⟩
    cases u with
    | nil => exact .inr ⟨hu, huv ▸ hv⟩
    | cons b u =>
      obtain ⟨rfl, rfl⟩ := List.cons.inj huv
      exact .inl ⟨u, v, hu, hv, rfl⟩
  · rintro (⟨u, v, hu, hv, rfl⟩ | ⟨hL, hM⟩)
    · exact ⟨a :: u, hu, v, hv, rfl⟩
    · exact ⟨[], hL, a :: w, hM, rfl⟩

theorem cons_mem_kstar {L : Language α} {a : α} {w : List α} :
    a :: w ∈ KStar.kstar L ↔ ∃ u v, a :: u ∈ L ∧ v ∈ KStar.kstar L ∧ w = u ++ v := by
  constructor
  · rw [Language.mem_kstar_iff_exists_nonempty]
    rintro ⟨S, hw, hS⟩
    match S with
    | [] => cases hw
    | [] :: S => exact absurd rfl (hS [] List.mem_cons_self).2
    | (b :: u) :: S =>
      obtain ⟨rfl, rfl⟩ := List.cons.inj hw
      exact ⟨u, S.flatten, (hS _ List.mem_cons_self).1,
        Language.mem_kstar_iff_exists_nonempty.2
          ⟨S, rfl, fun y hy => hS y (List.mem_cons_of_mem _ hy)⟩, rfl⟩
  · rintro ⟨u, v, hu, hv, rfl⟩
    rw [Language.mem_kstar] at hv ⊢
    obtain ⟨S, rfl, hS⟩ := hv
    refine ⟨(a :: u) :: S, rfl, fun y hy => ?_⟩
    rcases List.mem_cons.1 hy with rfl | hy
    · exact hu
    · exact hS y hy

theorem cons_mem_star {r : Regex α} {a : α} {w : List α} : a :: w ∈ (star r).language ↔
    ∃ u v, a :: u ∈ r.language ∧ v ∈ (star r).language ∧ w = u ++ v := cons_mem_kstar

theorem mem_deriv {a : α} {r : Regex α} : ∀ {w : List α},
    w ∈ (r.deriv a).language ↔ a :: w ∈ r.language := by
  induction r with
  | empty => simp [deriv, language]
  | epsilon => simp [deriv, language, Language.mem_one]
  | cls p =>
    intro w
    rw [deriv, mem_cls]
    cases hp : p a
    · simp [language, hp]
    · simp [language, hp, Language.mem_one]
  | alt r s ihr ihs => simp [deriv, language_union, language, Language.mem_add, ihr, ihs]
  | seq r s ihr ihs =>
    intro w
    have hconcat : w ∈ (concat (r.deriv a) s).language ↔
        ∃ u v, a :: u ∈ r.language ∧ v ∈ s.language ∧ w = u ++ v := by
      simp only [language_concat, Language.mem_mul, ihr]
      exact ⟨fun ⟨u, hu, v, hv, h⟩ => ⟨u, v, hu, hv, h.symm⟩,
        fun ⟨u, v, hu, hv, h⟩ => ⟨u, hu, v, hv, h.symm⟩⟩
    rw [language, cons_mem_mul, ← nullable_iff, ← hconcat, deriv]
    split_ifs with hn
    · rw [language_union, Language.mem_add, ihs]
      simp [hn]
    · simp [hn]
  | star r ih =>
    intro w
    rw [deriv, language_concat, language, cons_mem_kstar]
    simp only [Language.mem_mul, ih]
    exact ⟨fun ⟨u, hu, v, hv, h⟩ => ⟨u, v, hu, hv, h.symm⟩,
      fun ⟨u, v, hu, hv, h⟩ => ⟨u, hu, v, hv, h.symm⟩⟩

theorem mem_plus_cls {p : α → Bool} {w : List α} :
    w ∈ (plus (cls p)).language ↔ w ≠ [] ∧ ∀ a ∈ w, p a = true := by
  have hstar : ∀ w : List α, w ∈ (star (cls p)).language ↔ ∀ a ∈ w, p a = true := by
    intro w
    induction w with
    | nil => simp [nil_mem_star]
    | cons a w ih =>
      rw [← mem_deriv, deriv, deriv]
      cases hp : p a
      · simp [concat, language, hp]
      · simp [concat, ih, hp]
  cases w with
  | nil => simp [plus, ← nullable_iff, nullable]
  | cons a w =>
    rw [plus, ← mem_deriv, deriv, deriv]
    cases hp : p a
    · simp [concat, nullable, language, hp]
    · simp [concat, nullable, hstar, hp]

theorem mem_str [DecidableEq α] {w v : List α} : v ∈ (str w).language ↔ v = w := by
  induction w generalizing v with
  | nil => simp [str, language, Language.mem_one]
  | cons a w ih =>
    rw [str, language, Language.mem_mul]
    simp only [mem_cls, ih, beq_iff_eq]
    constructor
    · rintro ⟨_, ⟨_, rfl, rfl⟩, _, rfl, rfl⟩
      rfl
    · rintro rfl
      exact ⟨[a], ⟨a, rfl, rfl⟩, w, rfl, rfl⟩

@[simp] theorem nullable_plus_cls (p : α → Bool) : (plus (cls p)).nullable = false := rfl

@[simp] theorem nullable_literal [DecidableEq α] (w : List α) : (literal w).nullable = false := by
  cases w <;> rfl

/-! ## The longest match -/

/-- The length of the longest prefix in the language. -/
def longest (r : Regex α) : List α → Option Nat
  | [] => if r.nullable then some 0 else none
  | a :: l =>
    match longest (r.deriv a) l with
    | some n => some (n + 1)
    | none => if r.nullable then some 0 else none

theorem longest_eq_none_iff {r : Regex α} {l : List α} :
    r.longest l = none ↔ ∀ n ≤ l.length, l.take n ∉ r.language := by
  induction l generalizing r with
  | nil => simp [longest, nullable_iff]
  | cons a l ih =>
    rw [longest]
    have ih := ih (r := r.deriv a)
    cases h : (r.deriv a).longest l with
    | some n =>
      rw [h] at ih
      simp only [reduceCtorEq, false_iff, not_forall] at ih ⊢
      obtain ⟨m, hm, hmem⟩ := ih
      exact ⟨m + 1, by simpa using hm, by simpa [mem_deriv] using hmem⟩
    | none =>
      have ih := ih.1 h
      constructor
      · intro hn n hle
        cases n with
        | zero => simpa [nullable_iff] using hn
        | succ n => simpa [mem_deriv] using ih n (by simpa using hle)
      · intro hn
        have := hn 0 (by simp)
        simpa [nullable_iff] using this

theorem longest_eq_some_iff {r : Regex α} {l : List α} {n : Nat} :
    r.longest l = some n ↔ n ≤ l.length ∧ l.take n ∈ r.language ∧
      ∀ m ≤ l.length, l.take m ∈ r.language → m ≤ n := by
  induction l generalizing r n with
  | nil =>
    simp only [longest, List.length_nil, List.take_nil, ← nullable_iff]
    grind
  | cons a l ih =>
    rw [longest]
    cases h : (r.deriv a).longest l with
    | some k =>
      obtain ⟨hk, hmem, hmax⟩ := ih.1 h
      simp only [mem_deriv] at hmem hmax
      constructor
      · intro hn
        obtain rfl : k + 1 = n := by simpa using hn
        refine ⟨by simpa using hk, by simpa using hmem, fun m hm hm' => ?_⟩
        cases m with
        | zero => omega
        | succ m => exact Nat.succ_le_succ (hmax m (by simpa using hm) (by simpa using hm'))
      · rintro ⟨hn, hmem', hmax'⟩
        have h₁ := hmax' (k + 1) (by simpa using hk) (by simpa using hmem)
        cases n with
        | zero => omega
        | succ n =>
          have h₂ := hmax n (by simpa using hn) (by simpa using hmem')
          simp only [Option.some.injEq]
          omega
    | none =>
      have hnone := longest_eq_none_iff.1 h
      simp only [mem_deriv] at hnone
      have hzero : ∀ m ≤ (a :: l).length, (a :: l).take m ∈ r.language → m = 0 := by
        intro m hm hm'
        cases m with
        | zero => rfl
        | succ m => exact absurd (by simpa using hm') (hnone m (by simpa using hm))
      simp only [Option.ite_none_right_eq_some, nullable_iff, Option.some.injEq]
      constructor
      · rintro ⟨hn, rfl⟩
        exact ⟨by simp, by simpa using hn, fun m hm hm' => (hzero m hm hm').le⟩
      · rintro ⟨hn, hmem, -⟩
        obtain rfl := hzero n hn hmem
        exact ⟨by simpa using hmem, rfl⟩

/-- A pattern that cannot start with the character. -/
theorem longest_eq_none_of_deriv {r : Regex α} {a : α} (h : (r.deriv a).isEmpty = true)
    (hn : r.nullable = false) (l : List α) : r.longest (a :: l) = none := by
  have hempty : ∀ l, (empty : Regex α).longest l = none := by
    intro l
    induction l with
    | nil => rfl
    | cons b l ih => simp [longest, deriv, nullable, ih]
  cases hd : r.deriv a <;> simp [isEmpty, hd] at h
  simp [longest, hd, hempty, hn]

/-- What is left to match after a text. -/
def derivs (w : List α) (r : Regex α) : Regex α := w.foldl (fun r a => r.deriv a) r

theorem mem_derivs {w v : List α} {r : Regex α} :
    v ∈ (r.derivs w).language ↔ w ++ v ∈ r.language := by
  induction w generalizing r with
  | nil => rfl
  | cons a w ih =>
    rw [derivs, List.foldl_cons, ← derivs, ih, mem_deriv]
    rfl

/-- A pattern that a text cannot be the start of matches less than that text. -/
theorem longest_lt_of_derivs {r : Regex α} {w : List α} (h : (r.derivs w).isEmpty = true)
    {l : List α} {n : Nat} (hn : r.longest (w ++ l) = some n) : n < w.length := by
  obtain ⟨-, hmem, -⟩ := longest_eq_some_iff.1 hn
  by_contra hle
  rw [List.take_append, List.take_of_length_le (by omega), ← mem_derivs] at hmem
  cases hd : r.derivs w <;> simp [isEmpty, hd] at h
  rw [hd] at hmem
  exact hmem

theorem longest_cls_cons {p : α → Bool} {a : α} (h : p a = true) (l : List α) :
    (cls p).longest (a :: l) = some 1 := by
  rw [longest_eq_some_iff]
  refine ⟨by simp, ⟨a, h, by simp⟩, fun m hm hmem => ?_⟩
  obtain ⟨b, -, hb⟩ := mem_cls.1 hmem
  have := congrArg List.length hb
  simp only [List.length_take, List.length_cons, List.length_nil] at this hm
  omega

theorem longest_str [DecidableEq α] {w l : List α} :
    (str w).longest l = if w <+: l then some w.length else none := by
  split_ifs with h
  · obtain ⟨t, rfl⟩ := h
    refine longest_eq_some_iff.2 ⟨by simp, by simp [mem_str], fun m hm hmem => ?_⟩
    have := congrArg List.length (mem_str.1 hmem)
    simp only [List.length_take] at this
    omega
  · refine longest_eq_none_iff.2 fun n hn hmem => h ?_
    rw [← mem_str.1 hmem]
    exact List.take_prefix n l

theorem longest_literal [DecidableEq α] {w l : List α} (hne : w ≠ []) :
    (literal w).longest l = if w <+: l then some w.length else none := by
  cases w with
  | nil => exact absurd rfl hne
  | cons a w => exact longest_str

/-- The run of a class at the start of a text. -/
theorem exists_run {p : α → Bool} {a : α} (h : p a = true) (l : List α) :
    ∃ w t, a :: l = w ++ t ∧ w ≠ [] ∧ (∀ b ∈ w, p b = true) ∧ ∀ b ∈ t.head?, p b = false := by
  refine ⟨(a :: l).takeWhile p, (a :: l).dropWhile p, List.takeWhile_append_dropWhile.symm,
    by simp [h], fun b hb => List.mem_takeWhile_imp hb, fun b hb => ?_⟩
  have := List.head?_dropWhile_not p (a :: l)
  rw [Option.mem_def.1 hb] at this
  simpa using this

/-- A run of one class, which the text after it does not go on with. -/
theorem longest_plus_cls {p : α → Bool} {w t : List α} (hne : w ≠ []) (hw : ∀ a ∈ w, p a = true)
    (ht : ∀ a ∈ t.head?, p a = false) : (plus (cls p)).longest (w ++ t) = some w.length := by
  refine longest_eq_some_iff.2 ⟨by simp, ?_, fun m hm hmem => ?_⟩
  · rw [List.take_left, mem_plus_cls]
    exact ⟨hne, hw⟩
  · obtain ⟨-, hall⟩ := mem_plus_cls.1 hmem
    by_contra hlt
    cases t with
    | nil => simp at hm; omega
    | cons b t =>
      have hb : b ∈ (w ++ b :: t).take m := by
        rw [List.take_append, List.mem_append, List.take_cons (by omega)]
        exact .inr List.mem_cons_self
      have := hall b hb
      rw [ht b rfl] at this
      cases this

/-- A run of one class with a fixed text after it, of which the first character is not in
the class. -/
theorem longest_seq_plus_str [DecidableEq α] {p : α → Bool} {w t v : List α} (hne : w ≠ [])
    (hw : ∀ a ∈ w, p a = true) (ht : ∀ a ∈ t.head?, p a = false)
    (hv : ∃ a ∈ v.head?, p a = false) :
    (seq (plus (cls p)) (str v)).longest (w ++ t) =
      if v <+: t then some (w.length + v.length) else none := by
  have hmem : ∀ m ≤ (w ++ t).length, (w ++ t).take m ∈ (seq (plus (cls p)) (str v)).language →
      v <+: t ∧ m = w.length + v.length := by
    intro m hm hmem
    rw [language, Language.mem_mul] at hmem
    obtain ⟨u, hu, v', hv', huv⟩ := hmem
    rw [mem_str] at hv'
    subst hv'
    obtain ⟨hune, hu⟩ := mem_plus_cls.1 hu
    obtain ⟨rest, hrest⟩ : ∃ rest, w ++ t = u ++ (v' ++ rest) :=
      ⟨(w ++ t).drop m, by rw [← List.append_assoc, huv, List.take_append_drop]⟩
    obtain ⟨c, hc, hpc⟩ := hv
    have hsplit : w = u ∧ t = v' ++ rest := by
      have h₁ : (w ++ t).takeWhile p = w := by
        rw [List.takeWhile_append_of_pos hw]
        cases t with
        | nil => simp
        | cons b t => simp [ht b rfl]
      have h₂ : (u ++ (v' ++ rest)).takeWhile p = u := by
        rw [List.takeWhile_append_of_pos hu]
        cases v' with
        | nil => cases hc
        | cons b v' =>
          obtain rfl : b = c := by simpa using hc
          simp [hpc]
      have hwu : w = u := by rw [← h₁, hrest, h₂]
      subst hwu
      exact ⟨rfl, List.append_cancel_left hrest⟩
    obtain ⟨rfl, rfl⟩ := hsplit
    refine ⟨List.prefix_append _ _, ?_⟩
    have := congrArg List.length huv
    simp only [List.length_append, List.length_take] at this hm
    omega
  split_ifs with h
  · obtain ⟨rest, rfl⟩ := h
    refine longest_eq_some_iff.2 ⟨by simp, ?_, fun m hm hm' => (hmem m hm hm').2.le⟩
    rw [language, Language.mem_mul]
    refine ⟨w, mem_plus_cls.2 ⟨hne, hw⟩, v, mem_str.2 rfl, ?_⟩
    rw [← List.append_assoc, ← List.length_append, List.take_left]
  · exact longest_eq_none_iff.2 fun n hn hn' => h (hmem n hn hn').1

/-! ## Texts with the same matches -/

theorem longest_eq_some_prefix_iff {r : Regex α} {l : List α} {n : Nat} :
    r.longest l = some n ↔ ∃ u, u <+: l ∧ u ∈ r.language ∧ u.length = n ∧
      ∀ v, v <+: l → v ∈ r.language → v.length ≤ n := by
  rw [longest_eq_some_iff]
  constructor
  · rintro ⟨hle, hmem, hmax⟩
    refine ⟨l.take n, List.take_prefix n l, hmem, List.length_take_of_le hle, fun v hv hvmem => ?_⟩
    rw [List.prefix_iff_eq_take.1 hv] at hvmem
    exact hmax v.length hv.length_le hvmem
  · rintro ⟨u, hu, hmem, rfl, hmax⟩
    refine ⟨hu.length_le, ?_, fun m hm hmmem => ?_⟩
    · rwa [← List.prefix_iff_eq_take.1 hu]
    · have := hmax (l.take m) (List.take_prefix m l) hmmem
      rwa [List.length_take_of_le hm] at this

theorem longest_congr {r : Regex α} {l l' : List α}
    (h : ∀ u ∈ r.language, u <+: l ↔ u <+: l') : r.longest l = r.longest l' := by
  ext n
  rw [longest_eq_some_prefix_iff, longest_eq_some_prefix_iff]
  constructor
  · rintro ⟨u, hu, hmem, hlength, hmax⟩
    exact ⟨u, (h u hmem).1 hu, hmem, hlength, fun v hv hvmem => hmax v ((h v hvmem).2 hv) hvmem⟩
  · rintro ⟨u, hu, hmem, hlength, hmax⟩
    exact ⟨u, (h u hmem).2 hu, hmem, hlength, fun v hv hvmem => hmax v ((h v hvmem).1 hv) hvmem⟩

/-- A run that does not go beyond `w` depends on the next character only. -/
theorem longest_run_congr {p : α → Bool} {w t t' : List α} (hhead : t.head? = t'.head?)
    (h : ∀ m ∈ (plus (cls p)).longest (w ++ t), m ≤ w.length) :
    (plus (cls p)).longest (w ++ t) = (plus (cls p)).longest (w ++ t') := by
  have hshort : ∀ u, u <+: w ++ t → u ∈ (plus (cls p)).language → u.length ≤ w.length := by
    intro u hu hmem
    cases hlongest : (plus (cls p)).longest (w ++ t) with
    | none =>
      rw [List.prefix_iff_eq_take.1 hu] at hmem
      exact absurd hmem (longest_eq_none_iff.1 hlongest _ hu.length_le)
    | some m =>
      obtain ⟨-, -, -, -, hmax⟩ := longest_eq_some_prefix_iff.1 hlongest
      exact (hmax u hu hmem).trans (h m hlongest)
  refine longest_congr fun u hmem => ⟨fun hu => ?_, fun hu => ?_⟩
  · have hw := List.prefix_of_prefix_length_le hu (List.prefix_append w t) (hshort u hu hmem)
    exact hw.trans (List.prefix_append w t')
  · rcases Nat.lt_or_ge w.length u.length with hlt | hle
    · -- one more character of the run would have been there before
      obtain ⟨v, rfl⟩ := List.prefix_of_prefix_length_le (List.prefix_append w t') hu hlt.le
      obtain ⟨b, v, rfl⟩ := List.exists_cons_of_ne_nil (l := v) (by rintro rfl; simp at hlt)
      obtain ⟨s, hs⟩ := (List.prefix_append_right_inj w).1 hu
      obtain ⟨z, rfl⟩ : ∃ z, t = b :: z := by
        rw [← hs] at hhead
        exact List.head?_eq_some_iff.1 hhead
      obtain ⟨-, hall⟩ := mem_plus_cls.1 hmem
      have hb : w ++ [b] ∈ (plus (cls p)).language := by
        refine mem_plus_cls.2 ⟨by simp, fun a ha => hall a ?_⟩
        rw [List.mem_append, List.mem_singleton] at ha
        rw [List.mem_append, List.mem_cons]
        tauto
      have := hshort (w ++ [b]) ⟨z, by simp⟩ hb
      rw [List.length_append, List.length_singleton] at this
      omega
    · have hw := List.prefix_of_prefix_length_le hu (List.prefix_append w t') hle
      exact hw.trans (List.prefix_append w t)

/-- What the pattern matches consists of characters with `p`. -/
def Over (p : α → Prop) : Regex α → Prop
  | .empty | .epsilon => True
  | .cls q => ∀ a, q a = true → p a
  | .alt r s | .seq r s => Over p r ∧ Over p s
  | .star r => Over p r

theorem Over.of_mem {p : α → Prop} {r : Regex α} (h : r.Over p) {w : List α}
    (hw : w ∈ r.language) : ∀ a ∈ w, p a := by
  induction r generalizing w with
  | empty => cases hw
  | epsilon =>
    rw [language, Language.mem_one] at hw
    subst hw
    nofun
  | cls q =>
    obtain ⟨a, ha, rfl⟩ := hw
    exact List.forall_mem_singleton.2 (h a ha)
  | alt r s ihr ihs =>
    rcases mem_alt.1 hw with hw | hw
    · exact ihr h.1 hw
    · exact ihs h.2 hw
  | seq r s ihr ihs =>
    obtain ⟨u, hu, v, hv, rfl⟩ := mem_seq.1 hw
    exact List.forall_mem_append.2 ⟨ihr h.1 hu, ihs h.2 hv⟩
  | star r ih =>
    obtain ⟨L, rfl, hL⟩ := Language.mem_kstar.1 hw
    intro a ha
    obtain ⟨v, hv, ha⟩ := List.mem_flatten.1 ha
    exact ih h (hL v hv) a ha

end Regex

end Flex
