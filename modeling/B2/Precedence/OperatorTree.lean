import Mathlib.Tactic

/-!
# Operator precedence

A sequence of operands with binary operators between them, and the trees over
it. `R p o` says that a parser which has the production of `p` on its stack
reduces it before it shifts `o`; nothing is asked of `R`. `Resolved` trees are
the ones that such a parser builds, and every sequence has exactly one
(`resolved_iff_eq_build`).
-/

namespace Precedence

inductive OperatorTree (ω α : Type) where
  | operand (a : α)
  | node (op : ω) (left right : OperatorTree ω α)

namespace OperatorTree

variable {ω α : Type}

/-- The first operand of the sequence. -/
def first : OperatorTree ω α → α
  | .operand a => a
  | .node _ l _ => l.first

/-- The operators of the sequence, each with the operand after it. -/
def rest : OperatorTree ω α → List (ω × α)
  | .operand _ => []
  | .node op l r => l.rest ++ (op, r.first) :: r.rest

/-- The productions that end where the sequence ends. -/
def rightSpine : OperatorTree ω α → List ω
  | .operand _ => []
  | .node op _ r => op :: r.rightSpine

/-- The operators whose left operands begin where the sequence begins. -/
def leftSpine : OperatorTree ω α → List ω
  | .operand _ => []
  | .node op l _ => op :: l.leftSpine

variable (R : ω → ω → Prop)

/-- What ends a left operand was reduced before the operator, and what begins a right one was
shifted. -/
def Resolved : OperatorTree ω α → Prop
  | .operand _ => True
  | .node op l r =>
    (∀ p ∈ l.rightSpine, R p op) ∧ (∀ o ∈ r.leftSpine, ¬R op o) ∧ l.Resolved ∧ r.Resolved

section

variable [DecidableRel R]

/-- An operator and an operand come to the end of the sequence. -/
def attach (op : ω) (a : α) : OperatorTree ω α → OperatorTree ω α
  | .operand x => .node op (.operand x) (.operand a)
  | .node p l r =>
    if ∀ q ∈ p :: r.rightSpine, R q op then .node op (.node p l r) (.operand a)
    else .node p l (attach op a r)

/-- Operators and operands come to the end of the sequence one after the other. -/
def attachAll (t : OperatorTree ω α) : List (ω × α) → OperatorTree ω α
  | [] => t
  | (op, a) :: s => (t.attach R op a).attachAll s

def build (a : α) (s : List (ω × α)) : OperatorTree ω α := (operand a).attachAll R s

variable {R} {op p : ω} {a : α} {t l r : OperatorTree ω α} {s : List (ω × α)}

/-! ## One operator more -/

/-- The whole tree becomes the left operand if all that ends where it ends is reduced. -/
theorem attach_of_forall (h : ∀ q ∈ t.rightSpine, R q op) :
    t.attach R op a = .node op t (.operand a) := by
  cases t with
  | operand x => rfl
  | node p l r => exact if_pos h

theorem attach_of_not_forall (h : ¬∀ q ∈ p :: r.rightSpine, R q op) :
    (node p l r).attach R op a = .node p l (r.attach R op a) := if_neg h

@[simp] theorem first_attach : (t.attach R op a).first = t.first := by
  induction t with
  | operand x => rfl
  | node p l r _ _ =>
    rw [attach]
    split <;> rfl

@[simp] theorem rest_attach : (t.attach R op a).rest = t.rest ++ [(op, a)] := by
  induction t with
  | operand x => rfl
  | node p l r _ ih =>
    rw [attach]
    split
    · rfl
    · simp only [rest, first_attach, ih, List.append_assoc, List.cons_append]

/-- On the left the operator comes on top, or nothing changes. -/
theorem leftSpine_attach (t : OperatorTree ω α) (op : ω) (a : α) :
    (t.attach R op a).leftSpine = t.leftSpine ∨
      ((∀ q ∈ t.rightSpine, R q op) ∧ (t.attach R op a).leftSpine = op :: t.leftSpine) := by
  by_cases h : ∀ q ∈ t.rightSpine, R q op
  · refine .inr ⟨h, ?_⟩
    rw [attach_of_forall h]
    rfl
  · cases t with
    | operand x => exact absurd (fun q hq => absurd hq List.not_mem_nil) h
    | node p l r =>
      left
      rw [attach_of_not_forall h]
      rfl

theorem Resolved.attach (ht : t.Resolved R) (op : ω) (a : α) : (t.attach R op a).Resolved R := by
  induction t with
  | operand x => exact ⟨by rintro _ ⟨⟩, by rintro _ ⟨⟩, trivial, trivial⟩
  | node p l r _ ih =>
    by_cases h : ∀ q ∈ p :: r.rightSpine, R q op
    · rw [attach_of_forall h]
      exact ⟨h, by rintro _ ⟨⟩, ht, trivial⟩
    · obtain ⟨hl, hr, htl, htr⟩ := ht
      rw [attach_of_not_forall h]
      refine ⟨hl, ?_, htl, ih htr⟩
      rcases leftSpine_attach (R := R) r op a with hsame | ⟨hall, htop⟩
      · rwa [hsame]
      · -- all of `r` is reduced, so `p` is what is not
        have hp : ¬R p op := fun hp => h (List.forall_mem_cons.2 ⟨hp, hall⟩)
        rw [htop]
        exact List.forall_mem_cons.2 ⟨hp, hr⟩

/-! ## Whole sequences -/

theorem attachAll_append {s' : List (ω × α)} :
    t.attachAll R (s ++ s') = (t.attachAll R s).attachAll R s' := by
  induction s generalizing t with
  | nil => rfl
  | cons x s ih => exact ih

theorem first_attachAll : (t.attachAll R s).first = t.first := by
  induction s generalizing t with
  | nil => rfl
  | cons x s ih => rw [attachAll, ih, first_attach]

theorem rest_attachAll : (t.attachAll R s).rest = t.rest ++ s := by
  induction s generalizing t with
  | nil => exact (List.append_nil _).symm
  | cons x s ih => rw [attachAll, ih, rest_attach, List.append_assoc, List.singleton_append]

@[simp] theorem first_build : (build R a s).first = a := first_attachAll

@[simp] theorem rest_build : (build R a s).rest = s := rest_attachAll

theorem Resolved.attachAll (ht : t.Resolved R) (s : List (ω × α)) :
    (t.attachAll R s).Resolved R := by
  induction s generalizing t with
  | nil => exact ht
  | cons x s ih => exact ih (ht.attach x.1 x.2)

theorem resolved_build : (build R a s).Resolved R := Resolved.attachAll (t := operand a) trivial s

theorem mem_leftSpine_attachAll {o : ω} (h : o ∈ t.leftSpine) :
    o ∈ (t.attachAll R s).leftSpine := by
  induction s generalizing t with
  | nil => exact h
  | cons x s ih =>
    apply ih
    rcases leftSpine_attach (R := R) t x.1 x.2 with hsame | ⟨-, htop⟩
    · rwa [hsame]
    · rw [htop]
      exact List.mem_cons_of_mem _ h

/-- Operators that the last right operand goes on with are attached within it. -/
theorem attachAll_node (h : ∀ o ∈ (r.attachAll R s).leftSpine, ¬R p o) :
    (node p l r).attachAll R s = node p l (r.attachAll R s) := by
  induction s generalizing r with
  | nil => rfl
  | cons x s ih =>
    have hwithin : ¬∀ q ∈ p :: r.rightSpine, R q x.1 := by
      intro hall
      obtain ⟨hp, hr⟩ := List.forall_mem_cons.1 hall
      have htop : x.1 ∈ (r.attach R x.1 x.2).leftSpine := by
        rw [attach_of_forall hr]
        exact List.mem_cons_self
      have hmem : x.1 ∈ ((r.attach R x.1 x.2).attachAll R s).leftSpine :=
        mem_leftSpine_attachAll htop
      exact h x.1 hmem hp
    show (attach R x.1 x.2 (node p l r)).attachAll R s = _
    rw [attach_of_not_forall hwithin]
    exact ih h

theorem Resolved.build_eq (h : t.Resolved R) : build R t.first t.rest = t := by
  induction t with
  | operand x => rfl
  | node op l r ihl ihr =>
    obtain ⟨hl, hr, htl, htr⟩ := h
    have hright : (operand r.first).attachAll R r.rest = r := ihr htr
    calc build R l.first (l.rest ++ (op, r.first) :: r.rest)
        = ((build R l.first l.rest).attach R op r.first).attachAll R r.rest := attachAll_append
      _ = (node op l (.operand r.first)).attachAll R r.rest := by
          rw [ihl htl, attach_of_forall hl]
      _ = node op l r := by rw [attachAll_node (by rwa [hright]), hright]

/-- The trees that a parser builds are those of the sequences. -/
theorem resolved_iff_eq_build : t.Resolved R ↔ t = build R t.first t.rest :=
  ⟨fun h => h.build_eq.symm, fun h => h ▸ resolved_build⟩

end

end OperatorTree

end Precedence
