import Mathlib.Tactic

/-!
# Linked lists with iterators

A doubly linked list, as `std::list`: its cells have identities, an iterator is
the identity of a cell or the end, and an operation on an iterator that is not
valid for it has no result. `At l before i a after` says where an iterator is;
each operation has its result there.
-/

namespace Memory

/-- Cells in their order, and a bound on the identities in use. -/
structure LinkedList (α : Type) where
  cells : List (Nat × α)
  fresh : Nat
  nodup : (cells.map Prod.fst).Nodup
  lt_fresh : ∀ c ∈ cells, c.1 < fresh

/-- `none` is `end()`. -/
abbrev Iterator := Option Nat

namespace LinkedList

variable {α : Type}

def values (l : LinkedList α) : List α := l.cells.map Prod.snd

/-- The iterator at the first of some cells. -/
def first (cells : List (Nat × α)) : Iterator := cells.head?.map Prod.fst

def begin (l : LinkedList α) : Iterator := first l.cells

/-- The cells before a cell, its value, and the cells after it. -/
def split (i : Nat) : List (Nat × α) → Option (List (Nat × α) × α × List (Nat × α))
  | [] => none
  | (j, a) :: cells =>
    if j = i then some ([], a, cells)
    else (split i cells).map fun p => ((j, a) :: p.1, p.2)

/-- The iterator is at a cell of the list. -/
structure At (l : LinkedList α) (before : List (Nat × α)) (i : Nat) (a : α)
    (after : List (Nat × α)) : Prop where
  cells : l.cells = before ++ (i, a) :: after

variable {l : LinkedList α} {before after : List (Nat × α)} {i : Nat} {a b : α}

theorem split_append (h : i ∉ before.map Prod.fst) :
    split i (before ++ (i, a) :: after) = some (before, a, after) := by
  induction before with
  | nil => simp [split]
  | cons c before ih =>
    obtain ⟨j, b⟩ := c
    simp only [List.map_cons, List.mem_cons, not_or] at h
    rw [List.cons_append, split, if_neg (Ne.symm h.1), ih h.2]
    rfl

theorem cells_of_split : ∀ {cells before after : List (Nat × α)},
    split i cells = some (before, a, after) → cells = before ++ (i, a) :: after
  | (j, b) :: cells, before, after, h => by
    rw [split] at h
    split_ifs at h with hj
    · cases h
      rw [hj]
      rfl
    · obtain ⟨⟨before', p⟩, hp, heq⟩ := Option.map_eq_some_iff.1 h
      cases heq
      rw [cells_of_split hp]
      rfl

theorem At.not_mem (h : l.At before i a after) :
    i ∉ before.map Prod.fst ∧ i ∉ after.map Prod.fst := by
  have hnodup := l.nodup
  rw [h.cells, List.map_append, List.map_cons, List.nodup_append] at hnodup
  obtain ⟨-, hcons, hdisjoint⟩ := hnodup
  refine ⟨fun hi => hdisjoint i hi i List.mem_cons_self rfl, ?_⟩
  exact (List.nodup_cons.1 hcons).1

theorem At.split_eq (h : l.At before i a after) : split i l.cells = some (before, a, after) := by
  rw [h.cells]
  exact split_append h.not_mem.1

/-- `*it` -/
def get (l : LinkedList α) (it : Iterator) : Option α := do
  let i ← it
  let p ← split i l.cells
  return p.2.1

/-- `++it` -/
def next (l : LinkedList α) (it : Iterator) : Option Iterator := do
  let i ← it
  let p ← split i l.cells
  return first p.2.2

/-- The iterator at the last of some cells that come before another place. -/
def last (cells : List (Nat × α)) : Option Iterator := cells.getLast?.map fun c => some c.1

/-- `--it`, which is not valid at `begin()`. -/
def prev (l : LinkedList α) (it : Iterator) : Option Iterator :=
  match it with
  | none => last l.cells
  | some i => (split i l.cells).bind fun p => last p.1

/-- `*it = b` -/
def set (l : LinkedList α) (it : Iterator) (b : α) : Option (LinkedList α) :=
  it.bind fun i =>
    match h : split i l.cells with
    | none => none
    | some (before, _, after) => some
      { cells := before ++ (i, b) :: after
        fresh := l.fresh
        nodup := by
          have hnodup := l.nodup
          rw [cells_of_split h] at hnodup
          simpa using hnodup
        lt_fresh := by
          have hlt := l.lt_fresh
          rw [cells_of_split h] at hlt
          simpa [or_imp, forall_and] using hlt }

theorem nodup_insert (l : LinkedList α) {before after : List (Nat × α)}
    (h : l.cells = before ++ after) (b : α) :
    ((before ++ (l.fresh, b) :: after).map Prod.fst).Nodup := by
  have hnodup := l.nodup
  have hlt := l.lt_fresh
  have hfresh : l.fresh ∉ (before ++ after).map Prod.fst := by
    rw [← h, List.mem_map]
    rintro ⟨c, hc, heq⟩
    exact absurd heq (hlt c hc).ne
  rw [h] at hnodup
  rw [List.map_append, List.map_cons, List.nodup_middle, ← List.map_append]
  exact List.nodup_cons.2 ⟨hfresh, hnodup⟩

theorem lt_fresh_insert (l : LinkedList α) {before after : List (Nat × α)}
    (h : l.cells = before ++ after) (b : α) :
    ∀ c ∈ before ++ (l.fresh, b) :: after, c.1 < l.fresh + 1 := by
  intro c hc
  have hlt := l.lt_fresh
  rw [h] at hlt
  rcases List.mem_append.1 hc with hc | hc
  · exact (hlt c (List.mem_append_left _ hc)).trans (Nat.lt_succ_self _)
  · rcases List.mem_cons.1 hc with rfl | hc
    · exact Nat.lt_succ_self _
    · exact (hlt c (List.mem_append_right _ hc)).trans (Nat.lt_succ_self _)

/-- `l.insert(it, b)`: the new cell comes before the iterator's. -/
def insert (l : LinkedList α) (it : Iterator) (b : α) : Option (LinkedList α × Iterator) :=
  match it with
  | none => some
    ({ cells := l.cells ++ [(l.fresh, b)]
       fresh := l.fresh + 1
       nodup := l.nodup_insert (List.append_nil _).symm b
       lt_fresh := l.lt_fresh_insert (List.append_nil _).symm b }, some l.fresh)
  | some i =>
    match h : split i l.cells with
    | none => none
    | some (before, a, after) => some
      ({ cells := before ++ (l.fresh, b) :: (i, a) :: after
         fresh := l.fresh + 1
         nodup := l.nodup_insert (cells_of_split h) b
         lt_fresh := l.lt_fresh_insert (cells_of_split h) b }, some l.fresh)

/-- `l.erase(it)`, and the iterator at the cell after the erased one. -/
def erase (l : LinkedList α) (it : Iterator) : Option (LinkedList α × Iterator) :=
  it.bind fun i =>
    match h : split i l.cells with
    | none => none
    | some (before, _, after) => some
      ({ cells := before ++ after
         fresh := l.fresh
         nodup := by
          have hnodup := l.nodup
          rw [cells_of_split h, List.map_append, List.map_cons, List.nodup_middle] at hnodup
          rw [List.map_append]
          exact (List.nodup_cons.1 hnodup).2
         lt_fresh := by
          intro c hc
          refine l.lt_fresh c ?_
          rw [cells_of_split h]
          rcases List.mem_append.1 hc with hc | hc
          · exact List.mem_append_left _ hc
          · exact List.mem_append_right _ (List.mem_cons_of_mem _ hc) }, first after)

/-- A list of some values. -/
def ofList (values : List α) : LinkedList α where
  cells := (List.range values.length).zip values
  fresh := values.length
  nodup := by
    rw [List.map_fst_zip (by simp)]
    exact List.nodup_range
  lt_fresh c hc := List.mem_range.1 (List.of_mem_zip hc).1

theorem values_ofList (values : List α) : (ofList values).values = values := by
  unfold LinkedList.values ofList
  exact List.map_snd_zip (by simp)

/-! ## Results -/

namespace At

theorem get (h : l.At before i a after) : l.get (some i) = some a := by
  simp [LinkedList.get, h.split_eq]

theorem next (h : l.At before i a after) : l.next (some i) = some (first after) := by
  simp [LinkedList.next, h.split_eq]

theorem set (h : l.At before i a after) (b : α) :
    ∃ l', l.set (some i) b = some l' ∧ l'.At before i b after := by
  unfold LinkedList.set
  rw [Option.bind_some]
  split
  · rename_i hnone
    rw [h.split_eq] at hnone
    cases hnone
  · rename_i hsome
    rw [h.split_eq] at hsome
    cases hsome
    exact ⟨_, rfl, ⟨rfl⟩⟩

theorem insert (h : l.At before i a after) (b : α) :
    ∃ l' j, l.insert (some i) b = some (l', some j) ∧ l'.At before j b ((i, a) :: after) ∧
      l'.At (before ++ [(j, b)]) i a after := by
  unfold LinkedList.insert
  split
  · rename_i heq
    cases heq
  · rename_i k heq
    obtain rfl := Option.some.inj heq
    split
    · rename_i hnone
      rw [h.split_eq] at hnone
      cases hnone
    · rename_i hsome
      rw [h.split_eq] at hsome
      cases hsome
      exact ⟨_, _, rfl, ⟨rfl⟩, ⟨by simp⟩⟩

theorem erase (h : l.At before i a after) :
    ∃ l', l.erase (some i) = some (l', first after) ∧ l'.cells = before ++ after := by
  unfold LinkedList.erase
  rw [Option.bind_some]
  split
  · rename_i hnone
    rw [h.split_eq] at hnone
    cases hnone
  · rename_i hsome
    rw [h.split_eq] at hsome
    cases hsome
    exact ⟨_, rfl, rfl⟩

end At

/-- Where the first of some cells is. -/
theorem at_first {c : Nat × α} (h : l.cells = before ++ c :: after) :
    l.At before c.1 c.2 after := ⟨h⟩

/-- The step back from the cell after some cells, or from the end. -/
theorem prev_first (h : l.cells = before ++ after) : l.prev (first after) = last before := by
  cases after with
  | nil =>
    rw [List.append_nil] at h
    rw [← h]
    rfl
  | cons c after =>
    have hat := at_first h
    show (split c.1 l.cells).bind (fun p => last p.1) = _
    rw [hat.split_eq]
    rfl

end LinkedList

end Memory
