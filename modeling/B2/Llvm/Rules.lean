import B2.Llvm.Visitor

/-!
# Rules for generated code

Code for an expression only adds to the state: numbers are used up, variants get
a count and keep one (`Codegen.Grows`). `Gives A m s P R` is a run of this kind:
its actions meet `A`, and `P` holds when it returns, `R` when it throws. For the
calls of the builder there is one rule each.
-/

namespace B2

open Effect.Traced (Sat sat_bind sat_pure sat_tell sat_get sat_modify sat_throw)

/-- The for block that a runtime call belongs to. -/
def RuntimeFunction.loop? : RuntimeFunction → Option Nat
  | .forloopInit n | .forloopGetvalues n | .forloopNext n => some n
  | _ => none

/-- The types of the literals' values. -/
def IRType.IsScalar (t : IRType) : Prop :=
  t = .double ∨ t = .int1 ∨ t = .int64 ∨ t = .string

theorem IRType.IsScalar.ne_variant {t : IRType} (h : t.IsScalar) : t ≠ .variant := by
  rcases h with rfl | rfl | rfl | rfl <;> decide

namespace IRAction

/-- An instruction gets operands of types it allows. -/
def Fits : IRAction → Prop
  | .operation op operands _ => op.OperandsFit (operands.map Value.type)
  | _ => True

/-- Not an action of a for block. -/
def OutsideLoops : IRAction → Prop
  | .call _ f _ => f.loop? = none
  | .loopVariables .. => False
  | _ => True

def IsReference : IRAction → Prop
  | .reference .. => True
  | _ => False

/-- The actions of an expression but for its references. -/
def Plain (a : IRAction) : Prop := a.OutsideLoops ∧ ¬a.IsReference

/-- The actions of the bindings. -/
@[mk_iff]
structure Quiet (a : IRAction) : Prop where
  fits : a.Fits
  outsideLoops : a.OutsideLoops
  noReference : ¬a.IsReference

theorem Quiet.plain {a : IRAction} (h : a.Quiet) : a.Plain := ⟨h.outsideLoops, h.noReference⟩

end IRAction

namespace Codegen

/-- A variant that an instruction so far makes. -/
def Made (s : Codegen) (v : Value) : Prop := ∃ id < s.next, v = .instruction id .variant

/-- A variant that an instruction from here on makes. -/
def Fresh (s : Codegen) (v : Value) : Prop := ∃ id, s.next ≤ id ∧ v = .instruction id .variant

def Counted (s : Codegen) (v : Value) : Prop := s.variablesRefCount v ≠ none

/-- Variants with a count stay so, others get one once they are made, and the rest is kept. -/
structure Grows (s s' : Codegen) : Prop where
  next : s.next ≤ s'.next
  loops : s'.loops = s.loops
  overriden : s'.overridenVariables = s.overridenVariables
  metadata : s'.forLoopMetadata = s.forLoopMetadata
  counted : ∀ v, s.Counted v → s'.Counted v
  made : ∀ v, s'.Counted v → s.Counted v ∨ s'.Made v

/-- Every loop variable is counted, and what is counted is a variant made so far. -/
structure Ready (s : Codegen) : Prop where
  overriden : ∀ {x v}, s.overridenVariables x = some v → s.Counted v
  made : ∀ {v}, s.Counted v → s.Made v

theorem ready_fresh : fresh.Ready := ⟨nofun, fun h => absurd rfl h⟩

/-- A value that an expression can have: a scalar or a counted variant. -/
def Usable (s : Codegen) (v : Value) : Prop := v.type.IsScalar ∨ s.Counted v

variable {s s' s'' : Codegen} {v : Value}

theorem Made.mono (hv : s.Made v) (h : s.next ≤ s'.next) : s'.Made v := by
  obtain ⟨id, hid, rfl⟩ := hv
  exact ⟨id, by omega, rfl⟩

theorem Made.type (hv : s.Made v) : v.type = .variant := by
  obtain ⟨id, -, rfl⟩ := hv
  rfl

theorem Fresh.mono (hv : s'.Fresh v) (h : s.Grows s') : s.Fresh v := by
  obtain ⟨id, hid, rfl⟩ := hv
  exact ⟨id, h.next.trans hid, rfl⟩

theorem Fresh.not_counted (hv : s.Fresh v) (hs : s.Ready) : ¬s.Counted v := by
  intro hc
  obtain ⟨id, hid, rfl⟩ := hv
  obtain ⟨id', hid', heq⟩ := hs.made hc
  have := (Value.instruction.inj heq).1
  omega

theorem Grows.refl (s : Codegen) : s.Grows s := ⟨le_rfl, rfl, rfl, rfl, fun _ => id, fun _ => .inl⟩

theorem Grows.trans (h : s.Grows s') (h' : s'.Grows s'') : s.Grows s'' where
  next := h.next.trans h'.next
  loops := h'.loops.trans h.loops
  overriden := h'.overriden.trans h.overriden
  metadata := h'.metadata.trans h.metadata
  counted v hv := h'.counted v (h.counted v hv)
  made v hv := by
    rcases h'.made v hv with hv | hv
    · exact (h.made v hv).imp_right fun hv => hv.mono h'.next
    · exact .inr hv

theorem Grows.ready (h : s.Grows s') (hs : s.Ready) : s'.Ready where
  overriden hx := h.counted _ (hs.overriden (h.overriden ▸ hx))
  made hv := by
    rcases h.made _ hv with hv | hv
    · exact (hs.made hv).mono h.next
    · exact hv

theorem Usable.mono (hv : s.Usable v) (h : s.Grows s') : s'.Usable v := hv.imp_right (h.counted v)

/-- Of the usable values the variants are the counted ones. -/
theorem Usable.counted_iff (hv : s.Usable v) (hs : s.Ready) : s.Counted v ↔ v.type = .variant := by
  constructor
  · exact fun h => (hs.made h).type
  · intro h
    rcases hv with hv | hv
    · exact absurd h hv.ne_variant
    · exact hv

end Codegen

/-! ## Runs that only add -/

section

variable {α β : Type} {A : IRAction → Prop}

def Gives (A : IRAction → Prop) (m : Gen α) (s : Codegen) (P : Codegen → α → Prop)
    (R : Codegen → Prop) : Prop :=
  Sat m s (fun l s' a => (∀ x ∈ l, A x) ∧ s.Grows s' ∧ P s' a)
    (fun l s' _ => (∀ x ∈ l, A x) ∧ s.Grows s' ∧ R s')

variable {m : Gen α} {s : Codegen} {P : Codegen → α → Prop} {R : Codegen → Prop}

theorem Gives.pure {a : α} (h : P s a) : Gives A (Pure.pure a) s P R := by
  unfold Gives
  rw [sat_pure]
  exact ⟨by simp, .refl s, h⟩

theorem Gives.throw {err : Failure} (h : R s) : Gives A (Effect.Traced.throw err) s P R := by
  unfold Gives
  rw [sat_throw]
  exact ⟨by simp, .refl s, h⟩

theorem Gives.bind {f : α → Gen β} {P' : Codegen → β → Prop} {R' : Codegen → Prop}
    (h : Gives A m s P R)
    (hok : ∀ s' a, s.Grows s' → P s' a → Gives A (f a) s' P' R')
    (herr : ∀ s', s.Grows s' → R s' → R' s') : Gives A (m >>= f) s P' R' := by
  unfold Gives at h ⊢
  refine Sat.bind h ?_ ?_
  · rintro l s' a ⟨hl, hs, ha⟩
    refine (hok s' a hs ha).mono ?_ ?_
    · rintro l' s'' b ⟨hl', hs', hb⟩
      exact ⟨by simpa only [List.forall_mem_append] using ⟨hl, hl'⟩, hs.trans hs', hb⟩
    · rintro l' s'' err ⟨hl', hs', hb⟩
      exact ⟨by simpa only [List.forall_mem_append] using ⟨hl, hl'⟩, hs.trans hs', hb⟩
  · rintro l s' err ⟨hl, hs, hr⟩
    exact ⟨hl, hs, herr s' hs hr⟩

/-- A sequence whose parts may throw in the same states. -/
theorem Gives.seq {f : α → Gen β} {P' : Codegen → β → Prop} (h : Gives A m s P R)
    (hok : ∀ s' a, s.Grows s' → P s' a → Gives A (f a) s' P' R) : Gives A (m >>= f) s P' R :=
  h.bind hok fun _ _ => id

theorem Gives.mono {A' : IRAction → Prop} {P' : Codegen → α → Prop} {R' : Codegen → Prop}
    (h : Gives A m s P R) (hA : ∀ x, A x → A' x) (hP : ∀ s' a, s.Grows s' → P s' a → P' s' a)
    (hR : ∀ s', s.Grows s' → R s' → R' s') : Gives A' m s P' R' := by
  unfold Gives at h ⊢
  refine h.mono ?_ ?_
  · exact fun l s' a ⟨hl, hs, ha⟩ => ⟨fun x hx => hA x (hl x hx), hs, hP s' a hs ha⟩
  · exact fun l s' err ⟨hl, hs, hr⟩ => ⟨fun x hx => hA x (hl x hx), hs, hR s' hs hr⟩

/-- A run that does not throw. -/
theorem Gives.weaken {A' : IRAction → Prop} {P' : Codegen → α → Prop} {R' : Codegen → Prop}
    (h : Gives A m s P fun _ => False) (hA : ∀ x, A x → A' x)
    (hP : ∀ s' a, s.Grows s' → P s' a → P' s' a) : Gives A' m s P' R' :=
  h.mono hA hP fun _ _ => False.elim

theorem Gives.get : Gives A Effect.Traced.get s (fun s' a => s = s' ∧ s = a) R := by
  unfold Gives
  rw [sat_get]
  exact ⟨by simp, .refl s, rfl, rfl⟩

end

/-! ## The builder -/

namespace Gen

variable {s : Codegen} {E : List IRAction → Codegen → Failure → Prop}

def bump (s : Codegen) : Codegen := { s with next := s.next + 1 }

theorem sat_createBasicBlock {attached : Bool} {Q : List IRAction → Codegen → Nat → Prop} :
    Sat (createBasicBlock attached) s Q E ↔ Q [.createBlock s.next attached] (bump s) s.next :=
  Iff.rfl

variable {Q : List IRAction → Codegen → Value → Prop}

theorem sat_createAlloca {t : IRType} {size : Nat} :
    Sat (createAlloca t size) s Q E ↔
      Q [.alloca s.next t size] (bump s) (.instruction s.next (.pointer t)) := Iff.rfl

theorem sat_createLoad {p : Value} :
    Sat (createLoad p) s Q E ↔
      Q [.load s.next p] (bump s) (.instruction s.next (elementType p.type)) := Iff.rfl

theorem sat_createInBoundsGEP {p : Value} {i : Nat} :
    Sat (createInBoundsGEP p i) s Q E ↔
      Q [.inBoundsGEP s.next p i] (bump s) (.instruction s.next p.type) := Iff.rfl

theorem sat_createCall {f : RuntimeFunction} {args : List Value} :
    Sat (createCall f args) s Q E ↔
      Q [.call s.next f args] (bump s) (.instruction s.next f.returnType) := Iff.rfl

theorem sat_createGlobalStringPtr {t : Text} :
    Sat (createGlobalStringPtr t) s Q E ↔
      Q [] (bump s) (.constant (.globalString s.next t)) := Iff.rfl

/-- The result of an operation: what the builder folded it to, or a new instruction. -/
theorem sat_createOperation {B : IRBuilder} {op : Operation} {vs : List Value} :
    Sat (createOperation B op vs) s Q E ↔
      match B.simplify op vs with
      | some v => Q [.operation op vs v] s v
      | none => Q [.operation op vs (.instruction s.next (op.resultType (vs.map Value.type)))]
          (bump s) (.instruction s.next (op.resultType (vs.map Value.type))) := by
  unfold createOperation
  cases B.simplify op vs with
  | some v => rfl
  | none => rfl

theorem grows_bump (s : Codegen) : s.Grows (bump s) :=
  ⟨Nat.le_succ _, rfl, rfl, rfl, fun _ => id, fun _ => .inl⟩

variable {R : Codegen → Prop}

theorem gives_operation {A : IRAction → Prop} {B : IRBuilder} {op : Operation} {vs : List Value}
    (h : ∀ v, A (.operation op vs v)) :
    Gives A (createOperation B op vs) s
      (fun _ v => v.type = op.resultType (vs.map Value.type)) R := by
  unfold Gives
  rw [sat_createOperation]
  cases hv : B.simplify op vs with
  | some v => exact ⟨by simpa using h v, .refl s, B.type_simplify hv⟩
  | none => exact ⟨by simpa using h _, grows_bump s, rfl⟩

/-- A call of the builder that takes the next number. -/
theorem gives_bump {α : Type} {A : IRAction → Prop} {m : Gen α} {l : List IRAction} {a : α}
    {P : Codegen → α → Prop}
    (hm : ∀ {Q E}, Sat m s Q E ↔ Q l (bump s) a) (hl : ∀ x ∈ l, A x) (ha : P (bump s) a) :
    Gives A m s P R := by
  unfold Gives
  rw [hm]
  exact ⟨hl, grows_bump s, ha⟩

theorem gives_alloca {A : IRAction → Prop} {t : IRType} {size : Nat}
    (h : A (.alloca s.next t size)) :
    Gives A (createAlloca t size) s
      (fun s' v => ∃ id, s.next ≤ id ∧ id < s'.next ∧ v = .instruction id (.pointer t)) R :=
  gives_bump sat_createAlloca (by simpa using h) ⟨s.next, le_rfl, Nat.lt_succ_self _, rfl⟩

theorem gives_call {A : IRAction → Prop} {f : RuntimeFunction} {args : List Value}
    (h : A (.call s.next f args)) :
    Gives A (createCall f args) s
      (fun s' v => ∃ id, s.next ≤ id ∧ id < s'.next ∧ v = .instruction id f.returnType) R :=
  gives_bump sat_createCall (by simpa using h) ⟨s.next, le_rfl, Nat.lt_succ_self _, rfl⟩

theorem gives_load {A : IRAction → Prop} {p : Value} (h : A (.load s.next p)) :
    Gives A (createLoad p) s
      (fun s' v => ∃ id, s.next ≤ id ∧ id < s'.next ∧ v = .instruction id (elementType p.type)) R :=
  gives_bump sat_createLoad (by simpa using h) ⟨s.next, le_rfl, Nat.lt_succ_self _, rfl⟩

theorem gives_inBoundsGEP {A : IRAction → Prop} {p : Value} {i : Nat}
    (h : A (.inBoundsGEP s.next p i)) :
    Gives A (createInBoundsGEP p i) s (fun _ _ => True) R :=
  gives_bump sat_createInBoundsGEP (by simpa using h) trivial

theorem gives_globalStringPtr {A : IRAction → Prop} {t : Text} :
    Gives A (createGlobalStringPtr t) s (fun _ v => v.type = .string) R :=
  gives_bump sat_createGlobalStringPtr (by simp) rfl

theorem gives_basicBlock {A : IRAction → Prop} {attached : Bool}
    (h : A (.createBlock s.next attached)) :
    Gives A (createBasicBlock attached) s (fun _ _ => True) R :=
  gives_bump sat_createBasicBlock (by simpa using h) trivial

theorem gives_tell {A : IRAction → Prop} {x : IRAction} (h : A x) :
    Gives A (Effect.Traced.tell x) s (fun _ _ => True) R := by
  unfold Gives
  rw [sat_tell]
  exact ⟨by simpa using h, .refl s, trivial⟩

end Gen

end B2
