import Mathlib.Tactic

/-!
# Blocks of memory

A block that an allocator returns: its size and what has been written into it.
A write outside the block has no result. `Reads b w` says that the block begins
with `w`, and each operation comes with what it does to that.
-/

namespace Memory

/-- Memory of some size; a place that was never written is `none`. -/
structure Block (α : Type) where
  size : Nat
  bytes : Nat → Option α
  within : ∀ i, size ≤ i → bytes i = none

namespace Block

variable {α : Type}

def allocate (size : Nat) : Block α := ⟨size, fun _ => none, fun _ _ => rfl⟩

/-- `b[i] = a` -/
def write (b : Block α) (i : Nat) (a : α) : Option (Block α) :=
  if h : i < b.size then
    some
      { size := b.size
        bytes := Function.update b.bytes i (some a)
        within := fun j hj => by
          rw [Function.update_of_ne (by omega)]
          exact b.within j hj }
  else none

/-- `memcpy(&b[i], w, n)`, `n` the length of `w`. -/
def copy (b : Block α) (i : Nat) (w : List α) : Option (Block α) :=
  if h : i + w.length ≤ b.size then
    some
      { size := b.size
        bytes := fun j => if i ≤ j ∧ j < i + w.length then w[j - i]? else b.bytes j
        within := fun j hj => by
          rw [if_neg (by omega)]
          exact b.within j hj }
  else none

/-- A block with nothing but `w`. -/
def ofList (w : List α) : Block α := ⟨w.length, fun i => w[i]?, fun _ => List.getElem?_eq_none⟩

/-- `memmove(&b[i], &b[j], n)` -/
def move (b : Block α) (i j n : Nat) : Option (Block α) :=
  if h : i + n ≤ b.size ∧ j + n ≤ b.size then
    some
      { size := b.size
        bytes := fun k => if i ≤ k ∧ k < i + n then b.bytes (j + (k - i)) else b.bytes k
        within := fun k hk => by
          rw [if_neg (by omega)]
          exact b.within k hk }
  else none

/-- What stands from `i` on before the first `a`, as a C string before its terminator. -/
def readUntil [DecidableEq α] (b : Block α) (a : α) (i : Nat) : Option (List α) :=
  if i < b.size then do
    let c ← b.bytes i
    if c = a then return []
    return c :: (← b.readUntil a (i + 1))
  else none
termination_by b.size - i

/-- `realloc(b, n)` -/
def resize (b : Block α) (n : Nat) : Block α where
  size := n
  bytes j := if j < n then b.bytes j else none
  within j hj := if_neg (by omega)

/-- The block begins with `w`. -/
def Reads (b : Block α) (w : List α) : Prop := ∀ i, i < w.length → b.bytes i = w[i]?

variable {b b' : Block α} {i n : Nat} {a : α} {v w : List α}

theorem lt_size (h : (b.bytes i).isSome) : i < b.size := by
  by_contra hle
  rw [b.within i (by omega)] at h
  cases h

theorem reads_nil : b.Reads [] := fun _ h => absurd h (Nat.not_lt_zero _)

theorem Reads.resize (h : b.Reads w) (hn : w.length ≤ n) : (b.resize n).Reads w := by
  intro j hj
  show (if j < n then b.bytes j else none) = w[j]?
  rw [if_pos (by omega), h j hj]

theorem exists_write (a : α) (h : i < b.size) : ∃ b', b.write i a = some b' ∧ b'.size = b.size :=
  ⟨_, dif_pos h, rfl⟩

theorem exists_copy (h : i + w.length ≤ b.size) :
    ∃ b', b.copy i w = some b' ∧ b'.size = b.size := ⟨_, dif_pos h, rfl⟩

theorem bytes_write (h : b.write i a = some b') : b'.bytes = Function.update b.bytes i (some a) := by
  unfold write at h
  split_ifs at h
  cases h
  rfl

theorem bytes_write_self (h : b.write i a = some b') : b'.bytes i = some a := by
  rw [bytes_write h, Function.update_self]

theorem Reads.write (hw : b.Reads w) (h : b.write i a = some b') (hi : w.length ≤ i) :
    b'.Reads w := by
  intro j hj
  rw [bytes_write h, Function.update_of_ne (by omega), hw j hj]

/-- A copy to the end of what was read before. -/
theorem Reads.copy (hv : b.Reads v) (h : b.copy v.length w = some b') : b'.Reads (v ++ w) := by
  unfold Block.copy at h
  split_ifs at h
  cases h
  intro j hj
  rw [List.length_append] at hj
  by_cases hjv : j < v.length
  · show (if _ then _ else b.bytes j) = _
    rw [if_neg (by omega), hv j hjv, List.getElem?_append_left hjv]
  · show (if _ then w[j - v.length]? else _) = _
    rw [if_pos (by omega), List.getElem?_append_right (by omega)]

theorem reads_ofList : (ofList w).Reads w := fun _ _ => rfl

theorem Reads.of_append (h : b.Reads (v ++ w)) : b.Reads v := by
  intro j hj
  rw [h j (by rw [List.length_append]; omega), List.getElem?_append_left hj]

theorem Reads.length_le (h : b.Reads w) : w.length ≤ b.size := by
  cases hw : w.length with
  | zero => exact Nat.zero_le _
  | succ n =>
    refine lt_size (i := n) ?_
    rw [h n (by omega), List.getElem?_eq_getElem (by omega)]
    rfl

/-- The element after what was read before. -/
theorem Reads.bytes_end (h : b.Reads (v ++ a :: w)) : b.bytes v.length = some a := by
  rw [h _ (by simp), List.getElem?_append_right le_rfl, Nat.sub_self]
  rfl

theorem Reads.write_end (hw : b.Reads w) (h : b.write w.length a = some b') :
    b'.Reads (w ++ [a]) := by
  intro j hj
  rw [List.length_append, List.length_singleton] at hj
  by_cases hjw : j < w.length
  · rw [hw.write h le_rfl j hjw, List.getElem?_append_left hjw]
  · obtain rfl : j = w.length := by omega
    rw [bytes_write_self h, List.getElem?_append_right le_rfl, Nat.sub_self]
    rfl

/-- A move over a gap closes it. -/
theorem Reads.exists_move {u : List α} (h : b.Reads (u ++ v ++ w)) :
    ∃ b', b.move u.length (u.length + v.length) w.length = some b' ∧ b'.size = b.size ∧
      b'.Reads (u ++ w) := by
  have hle := h.length_le
  simp only [List.length_append] at hle
  refine ⟨_, dif_pos ⟨by omega, by omega⟩, rfl, fun j hj => ?_⟩
  rw [List.length_append] at hj
  show (if _ then _ else _) = _
  by_cases hju : j < u.length
  · rw [if_neg (by omega), h.of_append.of_append j hju, List.getElem?_append_left hju]
  · rw [if_pos (by omega), h _ (by simp only [List.length_append]; omega),
      List.getElem?_append_right (by rw [List.length_append]; omega),
      List.getElem?_append_right (by omega), List.length_append]
    congr 1
    omega

theorem Reads.readUntil [DecidableEq α] (w : List α) : ∀ {v : List α}, b.Reads (v ++ w ++ [a]) →
    b.readUntil a v.length = some (w.takeWhile (· ≠ a)) := by
  induction w with
  | nil =>
    intro v h
    rw [List.append_nil] at h
    rw [Block.readUntil, if_pos (lt_size (by rw [h.bytes_end]; rfl)), h.bytes_end]
    simp
  | cons c w ih =>
    intro v h
    rw [List.append_assoc, List.cons_append] at h
    rw [Block.readUntil, if_pos (lt_size (by rw [h.bytes_end]; rfl)), h.bytes_end]
    by_cases hc : c = a
    · simp [hc]
    · have hrest : b.readUntil a (v ++ [c]).length = some (w.takeWhile (· ≠ a)) :=
        ih (by simpa using h)
      rw [List.length_append, List.length_singleton] at hrest
      simp [hc, hrest]

end Block

end Memory
