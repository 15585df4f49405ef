import B2.Llvm.Builder

/-!
# Lifetimes of variants

Which variants the instructions of a log make for the generated code to destroy
(`Acquired`), and what a path does with one of them: each time it is made it is
destroyed exactly once, and it is not used before it is made or after it is
destroyed (`Lifetimes`). A path is checked with the two states that such a
variant has, alive or not (`lives`).
-/

namespace B2

@[simp]
theorem Value.type_instruction {id : Nat} {t : IRType} : (Value.instruction id t).type = t := rfl

@[simp]
theorem Value.type_null {t : IRType} : (Value.constant (.null t)).type = t := rfl

namespace IRAction

/-- The values that an instruction gets; the condition of a branch is no variant. -/
def operands : IRAction → List Value
  | .operation _ operands _ => operands
  | .load _ pointer => [pointer]
  | .store value pointer => [value, pointer]
  | .inBoundsGEP _ pointer _ => [pointer]
  | .call _ _ arguments => arguments
  | _ => []

/-- The value that a load or a call makes; the other instructions make no variant that is owned. -/
def result : IRAction → Option Value
  | .load id pointer => some (.instruction id (Gen.elementType pointer.type))
  | .call id function _ => some (.instruction id function.returnType)
  | _ => none

/-- The variant that a call of `destruct_zval` gets. -/
def destroyed : IRAction → Option Value
  | .call _ .destructZval [value] => some value
  | _ => none

def Mentions (x : IRAction) (u : Value) : Prop := x.result = some u ∨ u ∈ x.operands

/-- The pointer through which a call returns a variant that is to be destroyed. -/
def resultSlot : IRAction → Option Value
  | .call _ .binaryVariantOperation [_, result, _, _] => some result
  | .call _ .unaryVariantOperation [_, result, _] => some result
  | .call _ (.forloopGetvalues _) [_, _, _, key] => some key
  | _ => none

theorem mem_of_destroyed {x : IRAction} {u : Value} (h : x.destroyed = some u) :
    u ∈ x.operands := by
  unfold destroyed at h
  split at h <;> cases h
  exact List.mem_singleton_self u

end IRAction

/-! ## Variants to be destroyed -/

/-- The generated code owns the variant: it is returned by a method call, or it is the result of a
binary or unary operation or the key of a loop, loaded from the pointer that the call got. -/
def Acquired (log : List IRAction) (u : Value) : Prop :=
  (∃ id args, .call id .doMethodCall args ∈ log ∧ u = .instruction id .variant) ∨
    ∃ id pointer, .load id pointer ∈ log ∧ pointer.type = .pointer .variant ∧
      (∃ x ∈ log, x.resultSlot = some pointer) ∧ u = .instruction id .variant

/-- The result of an instruction with a number from `n` on and below `n'`. -/
def Value.Between (n n' : Nat) : Value → Prop
  | .instruction id _ => n ≤ id ∧ id < n'
  | _ => False

/-- The pointers for results were made in this part of a log, and variants are loaded through such
pointers only. -/
structure OwnSlots (l : List IRAction) (n n' : Nat) : Prop where
  slots : ∀ x ∈ l, ∀ p, x.resultSlot = some p → p.Between n n' ∨ ∃ c, p = .constant c
  loads : ∀ id p, .load id p ∈ l → p.type = .pointer .variant → p.Between n n'

section

variable {l l' : List IRAction} {n n' n'' : Nat} {u p : Value}

theorem Value.Between.mono {k k' : Nat} (h : p.Between n n') (hk : k ≤ n) (hk' : n' ≤ k') :
    p.Between k k' := by
  cases p with
  | instruction id t => exact ⟨hk.trans h.1, h.2.trans_le hk'⟩
  | _ => cases h

theorem Value.Between.disjoint (h : p.Between n n') (h' : p.Between n' n'') : False := by
  cases p with
  | instruction id t => exact absurd (h.2.trans_le h'.1) (lt_irrefl id)
  | _ => cases h

theorem OwnSlots.append (h : OwnSlots l n n') (h' : OwnSlots l' n' n'') (hn : n ≤ n')
    (hn' : n' ≤ n'') : OwnSlots (l ++ l') n n'' where
  slots x hx p hp := by
    rcases List.mem_append.1 hx with hx | hx
    · exact (h.slots x hx p hp).imp_left fun h => h.mono le_rfl hn'
    · exact (h'.slots x hx p hp).imp_left fun h => h.mono hn le_rfl
  loads id p hx hp := by
    rcases List.mem_append.1 hx with hx | hx
    · exact (h.loads id p hx hp).mono le_rfl hn'
    · exact (h'.loads id p hx hp).mono hn le_rfl

theorem Acquired.mono (h : Acquired l u) (hl : l ⊆ l') : Acquired l' u := by
  rcases h with ⟨id, args, h, rfl⟩ | ⟨id, p, h, hp, ⟨x, hx, hslot⟩, rfl⟩
  · exact .inl ⟨id, args, hl h, rfl⟩
  · exact .inr ⟨id, p, hl h, hp, ⟨x, hl hx, hslot⟩, rfl⟩

theorem acquired_append (h : OwnSlots l n n') (h' : OwnSlots l' n' n'') :
    Acquired (l ++ l') u ↔ Acquired l u ∨ Acquired l' u := by
  constructor
  · rintro (⟨id, args, hx, rfl⟩ | ⟨id, p, hload, hp, ⟨x, hx, hslot⟩, rfl⟩)
    · exact (List.mem_append.1 hx).imp (fun hx => .inl ⟨id, args, hx, rfl⟩)
        fun hx => .inl ⟨id, args, hx, rfl⟩
    · have hconstant : ¬∃ c, p = .constant c := by
        rintro ⟨c, rfl⟩
        rcases List.mem_append.1 hload with hload | hload
        · exact h.loads id _ hload hp
        · exact h'.loads id _ hload hp
      rcases List.mem_append.1 hload with hload | hload <;>
        rcases List.mem_append.1 hx with hx | hx
      · exact .inl (.inr ⟨id, p, hload, hp, ⟨x, hx, hslot⟩, rfl⟩)
      · exact ((h.loads id p hload hp).disjoint
          ((h'.slots x hx p hslot).resolve_right hconstant)).elim
      · exact (((h.slots x hx p hslot).resolve_right hconstant).disjoint
          (h'.loads id p hload hp)).elim
      · exact .inr (.inr ⟨id, p, hload, hp, ⟨x, hx, hslot⟩, rfl⟩)
  · rintro (hu | hu)
    · exact hu.mono (List.subset_append_left _ _)
    · exact hu.mono (List.subset_append_right _ _)

/-- An instruction that acquires nothing. -/
structure IRAction.Idle (x : IRAction) : Prop where
  slot : x.resultSlot = none
  load : ∀ id p, x = .load id p → p.type ≠ .pointer .variant
  call : ∀ id args, x ≠ .call id .doMethodCall args

/-- An action that gets no value and makes no variant. -/
def IRAction.Silent : IRAction → Prop
  | .operation .. | .load .. | .store .. | .inBoundsGEP .. | .call .. => False
  | _ => True

theorem IRAction.Silent.result {x : IRAction} (h : x.Silent) : x.result = none := by
  cases x <;> first | rfl | exact h.elim

theorem IRAction.Silent.operands {x : IRAction} (h : x.Silent) : x.operands = [] := by
  cases x <;> first | rfl | exact h.elim

theorem IRAction.idle_of_result {x : IRAction} (h : x.result = none) : x.Idle := by
  cases x with
  | load | call => cases h
  | _ => exact ⟨rfl, fun _ _ h => (nomatch h), fun _ _ h => nomatch h⟩

theorem IRAction.idle_load {id : Nat} (h : p.type ≠ .pointer .variant) :
    (IRAction.load id p).Idle where
  slot := rfl
  load _ _ heq := by
    cases heq
    exact h
  call _ _ heq := by cases heq

theorem IRAction.idle_call {id : Nat} {f : RuntimeFunction} {args : List Value}
    (hslot : (IRAction.call id f args).resultSlot = none) (hf : f ≠ .doMethodCall) :
    (IRAction.call id f args).Idle where
  slot := hslot
  load _ _ heq := by cases heq
  call _ _ heq := hf (IRAction.call.inj heq).2.1

theorem IRAction.Silent.idle {x : IRAction} (h : x.Silent) : x.Idle := idle_of_result h.result

theorem IRAction.Silent.not_mentions {x : IRAction} (h : x.Silent) : ¬x.Mentions u := by
  rw [IRAction.Mentions, h.result, h.operands]
  simp

theorem ownSlots_of_idle (h : ∀ x ∈ l, x.Idle) : OwnSlots l n n' where
  slots x hx p hp := by
    rw [(h x hx).slot] at hp
    cases hp
  loads id p hx hp := absurd hp ((h _ hx).load id p rfl)

theorem not_acquired_of_idle (h : ∀ x ∈ l, x.Idle) : ¬Acquired l u := by
  rintro (⟨id, args, hx, -⟩ | ⟨id, p, hx, hp, -⟩)
  · exact (h _ hx).call id args rfl
  · exact (h _ hx).load id p rfl hp

/-- A variant of the generated code is made by a call or a load. -/
theorem Acquired.exists_result (h : Acquired l u) : ∃ x ∈ l, x.result = some u := by
  rcases h with ⟨id, args, h, rfl⟩ | ⟨id, p, h, hp, -, rfl⟩
  · exact ⟨_, h, rfl⟩
  · refine ⟨_, h, ?_⟩
    rw [IRAction.result, hp]
    rfl

end

/-! ## Lifetimes -/

/-- Whenever the variant is made it is destroyed later, once, and it is used only in between. -/
inductive Lifetimes (u : Value) : List IRAction → Prop
  | nil : Lifetimes u []
  | other {x xs} (hx : ¬x.Mentions u) (h : Lifetimes u xs) : Lifetimes u (x :: xs)
  | life {x ys z zs} (hx : x.result = some u) (hys : ∀ y ∈ ys, y.result ≠ some u ∧ y.destroyed ≠ some u)
      (hz : z.destroyed = some u) (h : Lifetimes u zs) : Lifetimes u (x :: (ys ++ z :: zs))

/-- The variant is alive or not before an instruction, and after it. -/
def lifetime (u : Value) (alive : Bool) (x : IRAction) : Option Bool :=
  if x.result = some u then if alive then none else some true
  else if x.destroyed = some u then if alive then some false else none
  else if u ∈ x.operands then if alive then some true else none
  else some alive

def lives (u : Value) (alive : Bool) (xs : List IRAction) : Option Bool :=
  xs.foldlM (lifetime u) alive

section

variable {u : Value} {b : Bool} {x : IRAction} {xs ys : List IRAction}

theorem lives_cons : lives u b (x :: xs) = (lifetime u b x).bind (lives u · xs) := by
  simp only [lives, List.foldlM_cons, Option.bind_eq_bind]

theorem lives_append : lives u b (xs ++ ys) = (lives u b xs).bind (lives u · ys) := by
  simp only [lives, List.foldlM_append, Option.bind_eq_bind]

theorem lifetime_of_not_mentions (h : ¬x.Mentions u) : lifetime u b x = some b := by
  rw [IRAction.Mentions, not_or] at h
  unfold lifetime
  rw [if_neg h.1, if_neg fun hd => h.2 (IRAction.mem_of_destroyed hd), if_neg h.2]

theorem lives_of_not_mentions (h : ∀ x ∈ xs, ¬x.Mentions u) : lives u b xs = some b := by
  induction xs with
  | nil => rfl
  | cons x xs ih =>
    rw [List.forall_mem_cons] at h
    rw [lives_cons, lifetime_of_not_mentions h.1]
    exact ih h.2

/-- A variant that is alive may be used. -/
theorem lives_of_uses (h : ∀ x ∈ xs, x.result ≠ some u ∧ x.destroyed ≠ some u ∧ (u ∈ x.operands → b)) :
    lives u b xs = some b := by
  induction xs with
  | nil => rfl
  | cons x xs ih =>
    rw [List.forall_mem_cons] at h
    obtain ⟨⟨hr, hd, hu⟩, h⟩ := h
    have hx : lifetime u b x = some b := by
      unfold lifetime
      rw [if_neg hr, if_neg hd]
      split_ifs with hmem hb
      · rw [hb]
      · exact absurd (hu hmem) hb
      · rfl
    rw [lives_cons, hx]
    exact ih h

/-- Only one instruction mentions the variant, the one that makes it. -/
theorem lives_of_result (xs ys : List IRAction) (hx : x.result = some u) (hxs : ∀ y ∈ xs, ¬y.Mentions u)
    (hys : ∀ y ∈ ys, ¬y.Mentions u) : lives u false (xs ++ x :: ys) = some true := by
  have hlife : lifetime u false x = some true := by
    rw [lifetime, if_pos hx]
    rfl
  rw [lives_append, lives_of_not_mentions hxs, Option.bind_some, lives_cons, hlife,
    Option.bind_some, lives_of_not_mentions hys]

/-- By induction on the path, from a variant that is not alive and from one that is. -/
theorem lifetimes_of_lives_aux : (lives u false xs = some false → Lifetimes u xs) ∧
    (lives u true xs = some false → ∃ ys z zs, xs = ys ++ z :: zs ∧
      (∀ y ∈ ys, y.result ≠ some u ∧ y.destroyed ≠ some u) ∧ z.destroyed = some u ∧ Lifetimes u zs) := by
  induction xs with
  | nil => exact ⟨fun _ => .nil, nofun⟩
  | cons x xs ih =>
    obtain ⟨ihdead, ihalive⟩ := ih
    simp only [lives_cons, lifetime, Bool.false_eq_true, if_true, if_false]
    by_cases hr : x.result = some u
    · simp only [if_pos hr]
      refine ⟨fun h => ?_, nofun⟩
      obtain ⟨ys, z, zs, rfl, hys, hz, hzs⟩ := ihalive h
      exact .life hr hys hz hzs
    · simp only [if_neg hr]
      by_cases hd : x.destroyed = some u
      · simp only [if_pos hd]
        exact ⟨nofun, fun h => ⟨[], x, xs, rfl, by simp, hd, ihdead h⟩⟩
      · simp only [if_neg hd]
        refine ⟨fun h => ?_, fun h => ?_⟩
        · split_ifs at h with hmem
          · cases h
          · exact .other (not_or.2 ⟨hr, hmem⟩) (ihdead h)
        · have h : lives u true xs = some false := by
            split_ifs at h <;> exact h
          obtain ⟨ys, z, zs, rfl, hys, hz, hzs⟩ := ihalive h
          exact ⟨x :: ys, z, zs, rfl, List.forall_mem_cons.2 ⟨⟨hr, hd⟩, hys⟩, hz, hzs⟩

theorem lifetimes_of_lives (h : lives u false xs = some false) : Lifetimes u xs :=
  lifetimes_of_lives_aux.1 h

/-- What is made is destroyed. -/
theorem Lifetimes.exists_destroyed (h : Lifetimes u xs) (hx : x ∈ xs) (hr : x.result = some u) :
    ∃ z ∈ xs, z.destroyed = some u := by
  induction h with
  | nil => cases hx
  | other hy _ ih =>
    rcases List.mem_cons.1 hx with rfl | hx
    · exact absurd (.inl hr) hy
    · obtain ⟨z, hz, hd⟩ := ih hx
      exact ⟨z, List.mem_cons_of_mem _ hz, hd⟩
  | life _ _ hz _ _ => exact ⟨_, by simp, hz⟩

end

end B2
