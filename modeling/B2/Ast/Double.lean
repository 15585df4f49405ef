import Mathlib.Tactic

/-!
# C strings and doubles

`Text` is a NUL-terminated `char` string of the source without its
terminator; a `char` is the Lean `Char` of the same code, so a byte string is
a `Text` whose characters are below 256. `Double` is IEEE-754 binary64:
arithmetic is exact on rationals and then rounded to nearest, ties to even
(`ofRatio`). `atof` reads the decimal notations the scanner accepts and
`toString` is `std::to_string`, six digits after the point.
-/

namespace B2

abbrev Text := List Char

/-- What `strdup` and `std::string(const char*)` keep of a buffer. -/
def cString (t : Text) : Text := t.takeWhile (· ≠ '\x00')

theorem cString_eq_self {t : Text} (h : '\x00' ∉ t) : cString t = t := by
  induction t with
  | nil => rfl
  | cons c t ih =>
    simp only [List.mem_cons, not_or] at h
    rw [cString, List.takeWhile_cons_of_pos (by simpa using Ne.symm h.1)]
    exact congrArg (c :: ·) (ih h.2)

/-- The decimal digits of a natural number (`%d`). -/
def decimal (n : Nat) : Text := Nat.toDigits 10 n

theorem isDigit_of_mem_decimal {n : Nat} {c : Char} (h : c ∈ decimal n) : c.isDigit = true :=
  Nat.isDigit_of_mem_toDigits (by decide) (by decide) h

/-- `std::to_string(long)`. -/
def decimalInt (z : Int) : Text :=
  if z < 0 then '-' :: decimal z.natAbs else decimal z.natAbs

/-- The number a run of decimal digits denotes. -/
def digitsValue (t : Text) : Nat := t.foldl (fun n c => 10 * n + (c.toNat - '0'.toNat)) 0

/-- Mantissa and exponent of a finite double: 53 bits, normalised unless the
exponent is the least one. -/
def Canonical (mantissa : Nat) (exponent : Int) : Prop :=
  mantissa < 2 ^ 53 ∧ -1074 ≤ exponent ∧ exponent ≤ 971 ∧ (2 ^ 52 ≤ mantissa ∨ exponent = -1074)

instance (m : Nat) (e : Int) : Decidable (Canonical m e) :=
  inferInstanceAs (Decidable (_ ∧ _ ∧ _ ∧ _))

/-- A binary64 value. -/
inductive Double where
  | nan
  | infinite (negative : Bool)
  | finite (negative : Bool) (mantissa : Nat) (exponent : Int)
      (canonical : Canonical mantissa exponent)
  deriving DecidableEq

namespace Double

def zero (negative : Bool) : Double := .finite negative 0 (-1074) (by decide)

/-- `n / d / 2 ^ e` as a ratio of naturals. -/
def scaled (n d : Nat) (e : Int) : Nat × Nat :=
  if 0 ≤ e then (n, d * 2 ^ e.toNat) else (n * 2 ^ (-e).toNat, d)

/-- `n / d` to the nearest integer, ties to even. -/
def roundHalfEven (n d : Nat) : Nat :=
  let q := n / d
  let r := n % d
  if 2 * r < d then q else if d < 2 * r then q + 1 else if q % 2 = 0 then q else q + 1

/-- The double nearest to `n / d`. -/
def ofRatio (negative : Bool) (n d : Nat) : Double :=
  if n = 0 then zero negative else
    let k : Int := (n.log2 : Int) - d.log2
    let s := scaled n d k
    let e := max (-1074) (if s.2 ≤ s.1 then k - 52 else k - 53)
    let t := scaled n d e
    let m := roundHalfEven t.1 t.2
    let m' := if m = 2 ^ 53 then 2 ^ 52 else m
    let e' := if m = 2 ^ 53 then e + 1 else e
    if h : Canonical m' e' then .finite negative m' e' h else .infinite negative

/-- The double nearest to a rational; `negative` is the sign of a zero. -/
def ofRat (negative : Bool) (q : Rat) : Double :=
  if q = 0 then zero negative else ofRatio (decide (q < 0)) q.num.natAbs q.den

/-- The exact value of a finite double (`0` for the others). -/
def value : Double → Rat
  | .finite s m e _ =>
    let t := scaled m 1 (-e)
    let v : Rat := mkRat t.1 t.2
    if s then -v else v
  | _ => 0

def isNegative : Double → Bool
  | .nan => false
  | .infinite s => s
  | .finite s _ _ _ => s

/-- `(double) n` for a C `long`. -/
def ofLong (n : Int64) : Double := ofRat false n.toInt

def neg : Double → Double
  | .nan => .nan
  | .infinite s => .infinite !s
  | .finite s m e h => .finite (!s) m e h

def add : Double → Double → Double
  | .nan, _ => .nan
  | _, .nan => .nan
  | .infinite s, .infinite t => if s = t then .infinite s else .nan
  | .infinite s, _ => .infinite s
  | _, .infinite t => .infinite t
  | x, y => ofRat (x.isNegative && y.isNegative) (x.value + y.value)

def sub (x y : Double) : Double := add x (neg y)

def mul : Double → Double → Double
  | .nan, _ => .nan
  | _, .nan => .nan
  | .infinite s, .infinite t => .infinite (s != t)
  | .infinite s, y => if y.value = 0 then .nan else .infinite (s != y.isNegative)
  | x, .infinite t => if x.value = 0 then .nan else .infinite (x.isNegative != t)
  | x, y => ofRat (x.isNegative != y.isNegative) (x.value * y.value)

def div : Double → Double → Double
  | .nan, _ => .nan
  | _, .nan => .nan
  | .infinite _, .infinite _ => .nan
  | .infinite s, y => .infinite (s != y.isNegative)
  | x, .infinite t => zero (x.isNegative != t)
  | x, y =>
    if y.value = 0 then
      if x.value = 0 then .nan else .infinite (x.isNegative != y.isNegative)
    else ofRat (x.isNegative != y.isNegative) (x.value / y.value)

/-- The C comparisons; every one but `!=` is false on a NaN. -/
def lt : Double → Double → Bool
  | .nan, _ => false
  | _, .nan => false
  | .infinite s, .infinite t => s && !t
  | .infinite s, _ => s
  | _, .infinite t => !t
  | x, y => decide (x.value < y.value)

def eq : Double → Double → Bool
  | .nan, _ => false
  | _, .nan => false
  | .infinite s, .infinite t => s == t
  | .infinite _, _ => false
  | _, .infinite _ => false
  | x, y => decide (x.value = y.value)

def le (x y : Double) : Bool := lt x y || eq x y

/-- The fraction digits of `%f`, padded on the left. -/
def sixDigits (n : Nat) : Text :=
  let t := decimal n
  List.replicate (6 - t.length) '0' ++ t

/-- `std::to_string(double)`, that is `%f`. -/
def toText : Double → Text
  | .nan => "nan".toList
  | .infinite s => (if s then "-inf" else "inf").toList
  | .finite s m e _ =>
    let t := scaled m 1 (-e)
    let n := roundHalfEven (t.1 * 10 ^ 6) t.2
    (if s then ['-'] else []) ++ decimal (n / 10 ^ 6) ++ '.' :: sixDigits (n % 10 ^ 6)

/-- The millionths that `%f` writes of a finite double. -/
theorem toText_finite (s : Bool) {m : Nat} {e : Int} (h : Canonical m e) :
    (finite s m e h).toText = (if s then ['-'] else []) ++
      decimal (roundHalfEven ((scaled m 1 (-e)).1 * 10 ^ 6) (scaled m 1 (-e)).2 / 10 ^ 6) ++
      '.' :: sixDigits
        (roundHalfEven ((scaled m 1 (-e)).1 * 10 ^ 6) (scaled m 1 (-e)).2 % 10 ^ 6) := rfl

/-- `atof` on an unsigned decimal with an optional fraction and exponent. -/
def ofText (t : Text) : Double :=
  let whole := t.takeWhile Char.isDigit
  let afterWhole := t.dropWhile Char.isDigit
  let frac := match afterWhole with
    | '.' :: u => u.takeWhile Char.isDigit
    | _ => []
  let afterFrac := match afterWhole with
    | '.' :: u => u.dropWhile Char.isDigit
    | u => u
  let exponent : Int := match afterFrac with
    | 'e' :: '-' :: u | 'E' :: '-' :: u => -(digitsValue (u.takeWhile Char.isDigit) : Int)
    | 'e' :: '+' :: u | 'E' :: '+' :: u => digitsValue (u.takeWhile Char.isDigit)
    | 'e' :: u | 'E' :: u => digitsValue (u.takeWhile Char.isDigit)
    | _ => 0
  let n := digitsValue (whole ++ frac)
  let e := exponent - frac.length
  if 0 ≤ e then ofRatio false (n * 10 ^ e.toNat) 1 else ofRatio false n (10 ^ (-e).toNat)

end Double

end B2
