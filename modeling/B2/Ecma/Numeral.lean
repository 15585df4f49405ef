import Mathlib.Tactic

/-!
# Decimal numerals

The exact value of a decimal numeral: an optional sign, digits with at most one
point among them, and an optional exponent.
-/

namespace Ecma

/-- The number that decimal digits denote. -/
def digitsNumber (digits : List Char) : Nat := Nat.ofDigitChars 10 digits 0

/-- A natural number, all of a text. -/
def natural? (t : List Char) : Option Nat :=
  if t ≠ [] ∧ t.all Char.isDigit then some (digitsNumber t) else none

/-- The exponent behind the digits of a numeral. -/
def exponent? : List Char → Option Int
  | [] => some 0
  | c :: '-' :: t => if c = 'e' ∨ c = 'E' then (natural? t).map fun n : Nat => -(n : Int) else none
  | c :: '+' :: t => if c = 'e' ∨ c = 'E' then (natural? t).map Int.ofNat else none
  | c :: t => if c = 'e' ∨ c = 'E' then (natural? t).map Int.ofNat else none

/-- A text without a sign, read as a decimal numeral. -/
def unsigned? (t : List Char) : Option Rat :=
  let whole := t.takeWhile Char.isDigit
  let afterWhole := t.dropWhile Char.isDigit
  let fraction := match afterWhole with
    | '.' :: u => u.takeWhile Char.isDigit
    | _ => []
  let rest := match afterWhole with
    | '.' :: u => u.dropWhile Char.isDigit
    | u => u
  if whole ++ fraction = [] then none else
    (exponent? rest).map fun e : Int =>
      (digitsNumber (whole ++ fraction) : Rat) * 10 ^ (e - fraction.length)

/-- The exact value of a decimal numeral. -/
def numeral? : List Char → Option Rat
  | '-' :: t => (unsigned? t).map (- ·)
  | '+' :: t => unsigned? t
  | t => unsigned? t

/-! ## Digits -/

def AllDigits (t : List Char) : Prop := ∀ c ∈ t, c.isDigit = true

section

variable {whole fraction rest t u : List Char}

theorem allDigits_toDigits (n : Nat) : AllDigits (Nat.toDigits 10 n) := fun _ h =>
  Nat.isDigit_of_mem_toDigits (by decide) (by decide) h

theorem allDigits_zeros (n : Nat) : AllDigits (List.replicate n '0') := fun c h => by
  rw [List.eq_of_mem_replicate h]
  decide

theorem AllDigits.append (ht : AllDigits t) (hu : AllDigits u) : AllDigits (t ++ u) :=
  List.forall_mem_append.2 ⟨ht, hu⟩

@[simp] theorem digitsNumber_toDigits (n : Nat) : digitsNumber (Nat.toDigits 10 n) = n :=
  Nat.ofDigitChars_ten_toDigits

theorem digitsNumber_append : digitsNumber (t ++ u) =
    digitsNumber t * 10 ^ u.length + digitsNumber u := by
  unfold digitsNumber
  rw [Nat.ofDigitChars_append, Nat.ofDigitChars_eq_ofDigitChars_zero, mul_comm]

theorem digitsNumber_zeros (n : Nat) : digitsNumber (List.replicate n '0') = 0 := by
  unfold digitsNumber
  rw [Nat.ofDigitChars_replicate_zero, mul_zero]

theorem takeWhile_isDigit (ht : AllDigits t) (hu : ∀ c, u.head? = some c → c.isDigit = false) :
    (t ++ u).takeWhile Char.isDigit = t ∧ (t ++ u).dropWhile Char.isDigit = u := by
  induction t with
  | nil =>
    cases u with
    | nil => exact ⟨rfl, rfl⟩
    | cons c u =>
      have hc : c.isDigit = false := hu c rfl
      simp [hc]
  | cons c t ih =>
    have hc : c.isDigit = true := ht c List.mem_cons_self
    have hrest := ih fun c h => ht c (List.mem_cons_of_mem _ h)
    simp [hc, hrest]

/-! ## Numerals -/

theorem natural?_digits (ht : AllDigits t) (hne : t ≠ []) : natural? t = some (digitsNumber t) :=
  if_pos ⟨hne, List.all_eq_true.2 ht⟩

/-- Digits with a point among them. -/
theorem unsigned?_point (hw : AllDigits whole) (hf : AllDigits fraction) (hne : whole ≠ [])
    (hrest : ∀ c, rest.head? = some c → c.isDigit = false) :
    unsigned? (whole ++ '.' :: (fraction ++ rest)) =
      (exponent? rest).map fun e : Int =>
        (digitsNumber (whole ++ fraction) : Rat) * 10 ^ (e - fraction.length) := by
  have hpoint : ∀ c, ('.' :: (fraction ++ rest)).head? = some c → c.isDigit = false := by
    intro c h
    cases h
    decide
  obtain ⟨htake, hdrop⟩ := takeWhile_isDigit hw hpoint
  obtain ⟨htake', hdrop'⟩ := takeWhile_isDigit hf hrest
  have hcat : whole ++ fraction ≠ [] := by simp [hne]
  unfold unsigned?
  simp only [htake, hdrop, htake', hdrop', if_neg hcat]

/-- Digits without a point. -/
theorem unsigned?_whole (hw : AllDigits whole) (hne : whole ≠ [])
    (hrest : ∀ c, rest.head? = some c → c.isDigit = false ∧ c ≠ '.') :
    unsigned? (whole ++ rest) =
      (exponent? rest).map fun e : Int => (digitsNumber whole : Rat) * 10 ^ e := by
  obtain ⟨htake, hdrop⟩ := takeWhile_isDigit hw fun c h => (hrest c h).1
  unfold unsigned?
  simp only [htake, hdrop]
  cases rest with
  | nil => simp [hne]
  | cons c rest =>
    have hc : c ≠ '.' := (hrest c rfl).2
    split
    · rename_i heq
      exact absurd (List.cons.inj heq).1 hc
    · simp [hne]

/-- A text that begins with a digit has no sign. -/
theorem numeral?_cons {c : Char} (hc : c.isDigit = true) : numeral? (c :: t) = unsigned? (c :: t) := by
  unfold numeral?
  split
  · rename_i heq
    rw [(List.cons.inj heq).1] at hc
    exact absurd hc (by decide)
  · rename_i heq
    rw [(List.cons.inj heq).1] at hc
    exact absurd hc (by decide)
  · rfl

/-- An exponent with its sign. -/
theorem exponent?_signed {sign : Char} (e : Int) (ht : AllDigits t) (hne : t ≠ [])
    (hsign : sign = if e < 0 then '-' else '+') (habs : digitsNumber t = e.natAbs) :
    exponent? ('e' :: sign :: t) = some e := by
  subst hsign
  split
  · rw [exponent?, if_pos (.inl rfl), natural?_digits ht hne, Option.map_some, habs]
    congr 1
    omega
  · rw [exponent?, if_pos (.inl rfl), natural?_digits ht hne, Option.map_some, habs]
    congr 1
    exact Int.natAbs_of_nonneg (by omega)

end

end Ecma
