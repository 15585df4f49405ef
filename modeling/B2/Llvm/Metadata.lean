import B2.Llvm.Statements

/-!
# Loop metadata

Which for blocks read the metadata that they registered. The map is keyed by the
value of the iterable, and all references of one loop variable have one value: a
for block over a loop variable loses its entry to a for block over the same
variable in its body, which removes it at its end (`usesOwnMetadata_iff`).
-/

namespace B2

open Effect.Traced (Sat Returns Throws)
open PHPBindings LLVMVisitor
open IRAction (OutsideLoops Quiet)

/-- A call that reads metadata gets what `createForLoopInit` made for the same for block. -/
def IRAction.OwnMetadata (T : List IRAction) : IRAction → Prop
  | .call _ (.forloopGetvalues n) args | .call _ (.forloopNext n) args =>
    ∃ id iterable hashPosition rest,
      IRAction.call id (.forloopInit n) [iterable, hashPosition] ∈ T ∧
        args = .instruction id .hashTable :: hashPosition :: rest
  | _ => True

namespace AST

/-- A for block of the tree runs over the variable `x`, as it is bound outside. -/
def LoopsOver (x : Text) : AST → Prop
  | .statements l => LoopsOverList x l
  | .rawBlock _ | .printBlock _ | .includeBlock .. => False
  | .ifBlock _ t none => t.LoopsOver x
  | .ifBlock _ t (some e) => t.LoopsOver x ∨ e.LoopsOver x
  | .forBlock k v i b none =>
    i = .variableReference x ∨ (k ≠ some x ∧ v ≠ some x ∧ b.LoopsOver x)
  | .forBlock k v i b (some e) =>
    i = .variableReference x ∨ (k ≠ some x ∧ v ≠ some x ∧ b.LoopsOver x) ∨ e.LoopsOver x
where
  LoopsOverList (x : Text) : List AST → Prop
    | [] => False
    | s :: l => s.LoopsOver x ∨ LoopsOverList x l

/-- The variable that a for block runs over is a loop variable, and a for block in its body runs
over it too. -/
def RunsTwice (bound : Text → Prop) (k v : Option Text) (i : Expression) (b : AST) : Prop :=
  ∃ x, i = .variableReference x ∧ bound x ∧ k ≠ some x ∧ v ≠ some x ∧ b.LoopsOver x

/-- The loop variables in a body. -/
def bindNames (k v : Option Text) (bound : Text → Prop) (x : Text) : Prop :=
  k = some x ∨ v = some x ∨ bound x

mutual

/-- No for block whose body is visited to its end runs twice over a loop variable. -/
def RunsOnce (bound : Text → Prop) : AST → Prop
  | .statements l => RunsOnceList bound l
  | .rawBlock _ | .printBlock _ | .includeBlock .. => True
  | .ifBlock c t none => c.Generates → c.irType = .int1 → t.RunsOnce bound
  | .ifBlock c t (some e) =>
    c.Generates → c.irType = .int1 → t.RunsOnce bound ∧ (t.Compiles → e.RunsOnce bound)
  | .forBlock k v i b none =>
    i.Generates → b.RunsOnce (bindNames k v bound) ∧ (b.Compiles → ¬RunsTwice bound k v i b)
  | .forBlock k v i b (some e) =>
    i.Generates → b.RunsOnce (bindNames k v bound) ∧
      (b.Compiles → ¬RunsTwice bound k v i b ∧ e.RunsOnce bound)

def RunsOnceList (bound : Text → Prop) : List AST → Prop
  | [] => True
  | s :: l => s.RunsOnce bound ∧ (s.Compiles → RunsOnceList bound l)

end

variable {x : Text} {bound : Text → Prop} {c i : Expression} {t b : AST} {e : Option AST}
  {k v : Option Text}

theorem loopsOver_ifBlock :
    (ifBlock c t e).LoopsOver x ↔ t.LoopsOver x ∨ (elseOf e).LoopsOver x := by
  cases e <;> simp [LoopsOver, elseOf, LoopsOver.LoopsOverList]

theorem loopsOver_forBlock :
    (forBlock k v i b e).LoopsOver x ↔ i = .variableReference x ∨
      (k ≠ some x ∧ v ≠ some x ∧ b.LoopsOver x) ∨ (elseOf e).LoopsOver x := by
  cases e <;> simp [LoopsOver, elseOf, LoopsOver.LoopsOverList]

theorem runsOnce_ifBlock :
    (ifBlock c t e).RunsOnce bound ↔ (c.Generates → c.irType = .int1 →
      t.RunsOnce bound ∧ (t.Compiles → (elseOf e).RunsOnce bound)) := by
  cases e <;> simp [RunsOnce, elseOf, RunsOnceList]

theorem runsOnce_forBlock :
    (forBlock k v i b e).RunsOnce bound ↔ (i.Generates → b.RunsOnce (bindNames k v bound) ∧
      (b.Compiles → ¬RunsTwice bound k v i b ∧ (elseOf e).RunsOnce bound)) := by
  cases e <;> simp [RunsOnce, elseOf, RunsOnceList]

end AST

namespace Codegen

/-- Two names have different loop variables. -/
def Injective (s : Codegen) : Prop :=
  ∀ {x y u}, s.overridenVariables x = some u → s.overridenVariables y = some u → x = y

/-- The names of the loop variables. -/
def bound (s : Codegen) (x : Text) : Prop := s.overridenVariables x ≠ none

theorem not_fresh_of_counted {s : Codegen} {u : Value} (hs : s.Ready) (hu : s.Counted u) :
    ¬s.Fresh u := fun h => h.not_counted hs hu

theorem not_fresh_mono {s s' : Codegen} {u : Value} (h : s.next ≤ s'.next) (hu : ¬s.Fresh u) :
    ¬s'.Fresh u := by
  rintro ⟨id, hid, rfl⟩
  exact hu ⟨id, h.trans hid, rfl⟩

end Codegen

namespace LLVMVisitor

section

variable {B : IRBuilder} {s s' s₁ : Codegen} {l : List IRAction} {k v : Option Text}
  {i : Expression} {it u : Value} {f : LoopFrame} {n : Nat}

/-- The value of an iterable is a scalar, a loop variable or new. -/
theorem not_fresh_iterable (hs₁ : s₁.Ready) (h : s₁.Usable it) : ¬s₁.Fresh it := by
  rcases h with h | h
  · rintro ⟨id, -, rfl⟩
    exact h.ne_variant rfl
  · exact Codegen.not_fresh_of_counted hs₁ h

/-- A value that is not new is that of an iterable only as a loop variable or a scalar. -/
theorem iterable_eq (hs : s.Ready) (hi : Returns (expression B i) s l s₁ it)
    (hvar : it.type = .variant) (hit : ¬s.Fresh it) :
    ∃ x, i = .variableReference x ∧ s.overridenVariables x = some it := by
  rcases (expression_returns hs hi).2.2.origin hvar with h | h
  · exact h
  · exact absurd h hit

/-- The value of a loop variable. -/
theorem iterable_of_reference {x : Text} (hi : Returns (expression B (.variableReference x)) s l s₁ it)
    (hx : s.overridenVariables x = some u) : it = u := by
  unfold expression at hi
  obtain ⟨l₁, rfl, h⟩ := variableReference_returns hi
  rw [hx] at h
  exact (newReference_returns h).2

/-- A value that is not new is a loop variable in the body of a loop as it was before. -/
theorem Entered.overriden_iff (h : Entered s n k v it l s' f) (hu : ¬s.Fresh u) {x : Text} :
    s'.overridenVariables x = some u ↔
      k ≠ some x ∧ v ≠ some x ∧ s.overridenVariables x = some u := by
  have hkey : f.keyVariable ≠ some u := fun h' => hu (h.made u (.inl h')).1
  have hvalue : f.valueVariable ≠ some u := fun h' => hu (h.made u (.inr h')).1
  rw [h.overriden]
  unfold bindLoopVariables
  rw [bindVariable_apply, bindVariable_apply]
  split_ifs with hv hk
  · simp [hv, hvalue]
  · simp [hk, hkey]
  · simp [hv, hk]

theorem Entered.injective (h : Entered s n k v it l s' f) (hs : s.Ready) (hi : s.Injective) :
    s'.Injective := by
  intro x y u hx hy
  by_cases hu : s.Fresh u
  · -- a new value is the key or the value of this loop
    have hold : ∀ z, s.overridenVariables z ≠ some u := fun z hz =>
      hu.not_counted hs (hs.overriden hz)
    have hcase : ∀ {z : Text}, s'.overridenVariables z = some u →
        (v = some z ∧ f.valueVariable = some u) ∨ (k = some z ∧ f.keyVariable = some u) := by
      intro z hz
      rw [h.overriden] at hz
      unfold bindLoopVariables at hz
      rw [bindVariable_apply, bindVariable_apply] at hz
      split_ifs at hz with hv hk
      · exact .inl ⟨hv, hz⟩
      · exact .inr ⟨hk, hz⟩
      · exact absurd hz (hold z)
    rcases hcase hx with ⟨h₁, hv₁⟩ | ⟨h₁, hk₁⟩ <;> rcases hcase hy with ⟨h₂, hv₂⟩ | ⟨h₂, hk₂⟩
    · exact Option.some.inj (h₁.symm.trans h₂)
    · exact absurd hv₁ (h.distinct u hk₂)
    · exact absurd hv₂ (h.distinct u hk₁)
    · exact Option.some.inj (h₁.symm.trans h₂)
  · exact hi ((h.overriden_iff hu).1 hx).2.2 ((h.overriden_iff hu).1 hy).2.2

theorem Entered.bound_eq (h : Entered s n k v it l s' f) :
    s'.bound = AST.bindNames k v s.bound := by
  funext x
  refine propext ?_
  unfold Codegen.bound AST.bindNames
  rw [h.overriden]
  unfold bindLoopVariables
  rw [bindVariable_apply, bindVariable_apply]
  split_ifs with hv hk
  · simp [hv, ← Option.isSome_iff_ne_none, h.isSome_value]
  · simp [hk, ← Option.isSome_iff_ne_none, h.isSome_key]
  · simp [hv, hk]

end

/-- A value that is not new loses its entry in a run that returns exactly when it is the loop
variable of some for block's iterable, and keeps it otherwise. -/
def KeepsEntry (s s' : Codegen) (loopsOver : Text → Prop) (u : Value) : Prop :=
  ((∃ x, s.overridenVariables x = some u ∧ loopsOver x) → s'.forLoopMetadata u = none) ∧
    ((¬∃ x, s.overridenVariables x = some u ∧ loopsOver x) →
      s'.forLoopMetadata u = s.forLoopMetadata u)

theorem keepsEntry_of_eq {s s' : Codegen} {u : Value}
    (h : s'.forLoopMetadata = s.forLoopMetadata) : KeepsEntry s s' (fun _ => False) u :=
  ⟨fun ⟨_, _, h⟩ => h.elim, fun _ => by rw [h]⟩

/-- One run after another, with the loop variables of the first. -/
theorem KeepsEntry.trans {s s' s'' : Codegen} {p q r : Text → Prop} {u : Value}
    (h : KeepsEntry s s' p u) (h' : KeepsEntry s' s'' q u)
    (ho : s'.overridenVariables = s.overridenVariables) (hr : ∀ x, r x ↔ p x ∨ q x) :
    KeepsEntry s s'' r u := by
  unfold KeepsEntry at *
  rw [ho] at h'
  simp only [hr]
  constructor
  · rintro ⟨x, hx, hpq⟩
    by_cases hq : ∃ x, s.overridenVariables x = some u ∧ q x
    · exact h'.1 hq
    · rw [h'.2 hq]
      exact h.1 ⟨x, hx, hpq.resolve_right fun hqx => hq ⟨x, hx, hqx⟩⟩
  · intro hn
    rw [h'.2 fun ⟨x, hx, hq⟩ => hn ⟨x, hx, .inr hq⟩, h.2 fun ⟨x, hx, hp⟩ => hn ⟨x, hx, .inl hp⟩]

theorem KeepsEntry.congr {s s' t t' : Codegen} {p : Text → Prop} {u : Value}
    (h : KeepsEntry s s' p u) (ho : t.overridenVariables = s.overridenVariables)
    (hm : t.forLoopMetadata = s.forLoopMetadata) (hm' : t'.forLoopMetadata = s'.forLoopMetadata) :
    KeepsEntry t t' p u := by
  unfold KeepsEntry at *
  rw [ho, hm, hm']
  exact h

section

variable {B : IRBuilder}

/-- The metadata after a run that returns. -/
theorem Visits.metadata {a : AST} {s s' : Codegen} {l : List IRAction} {r : Bool}
    (h : Visits B a s l s' r) : s.Ready → r = true → ∀ u, ¬s.Fresh u →
      KeepsEntry s s' a.LoopsOver u := by
  induction h with
  | nil => exact fun _ _ u _ => keepsEntry_of_eq rfl
  | cons ha hs₁ has iha ihas =>
    intro hs hr u hu
    refine (iha hs rfl u hu).trans (ihas hs₁ hr u ?_) ((ha.frame hs).2 rfl) fun x => Iff.rfl
    exact Codegen.not_fresh_mono (ha.frame hs).1.next hu
  | rawBlock h =>
    intro hs _ u _
    exact keepsEntry_of_eq (h.sat (gives_printText (R := fun _ => True) hs)).2.1.metadata
  | printBlock he hs₁ hp =>
    intro hs _ u _
    obtain ⟨-, g₁, hv⟩ := expression_returns hs he
    have g₂ := (hp.sat (gives_printValue (R := fun _ => True) hs₁ hv.usable)).2.1
    exact keepsEntry_of_eq (g₂.metadata.trans g₁.metadata)
  | ifBlock hc hs₁ hv ht hs₂ he iht ihe =>
    intro hs _ u hu
    have g₁ := (expression_returns hs hc).2.1
    have hs₁' := ready_withBlocks hs₁
    have hu₁ : ¬(withBlocks _).Fresh u :=
      Codegen.not_fresh_mono (g₁.next.trans (Nat.le_add_right _ 3)) hu
    have ht' := (iht hs₁' rfl u hu₁).congr g₁.overriden.symm g₁.metadata.symm rfl
    refine ht'.trans (ihe hs₂ rfl u ?_) ?_ fun x => AST.loopsOver_ifBlock
    · exact Codegen.not_fresh_mono (ht.frame hs₁').1.next hu₁
    · exact ((ht.frame hs₁').2 rfl).trans g₁.overriden
  | @forBlock k v i b e s _ s₁ it _ s₂ f _ s₃ _ s₄ _ s₅ _ s₆ hi hs₁ hf hs₂ hb hs₃ hl hs₄ he hs₅ hz
      ihb ihe =>
    intro hs _ u hu
    have g₁ := (expression_returns (ready_withLoop hs) hi).2.1
    have hloop := loopVisit hf (hb.frame hs₂).1 ((hb.frame hs₂).2 rfl) hs₃ hl
    obtain ⟨hF, hit⟩ := hz.sat (finishLoop_spec hs₅)
    have ho₁ : s₁.overridenVariables = s.overridenVariables := g₁.overriden
    have hm₁ : s₁.forLoopMetadata = s.forLoopMetadata := g₁.metadata
    have hu₁ : ¬s₁.Fresh u := Codegen.not_fresh_mono g₁.next hu
    have hu₂ : ¬s₂.Fresh u := Codegen.not_fresh_mono hloop.entered.next hu₁
    have hu₄ : ¬s₄.Fresh u :=
      Codegen.not_fresh_mono ((hb.frame hs₂).1.next.trans hloop.left.next) hu₂
    have hbody := ihb hs₂ rfl u hu₂
    have helse := ihe hs₄ rfl u hu₄
    have ho₄ : s₄.overridenVariables = s.overridenVariables := hloop.overriden.trans ho₁
    -- the entries of other values
    by_cases hne : u = it
    · subst hne
      have hnone : s₆.forLoopMetadata u = none := by rw [hF.metadata, Function.update_self]
      obtain ⟨x, rfl, hx⟩ := iterable_eq (ready_withLoop hs) hi (hs₅.made hit).type hu
      exact ⟨fun _ => hnone, fun hn =>
        absurd ⟨x, hx, AST.loopsOver_forBlock.2 (.inl rfl)⟩ hn⟩
    · have hiff : ∀ x, s.overridenVariables x = some u →
          ((AST.forBlock k v i b e).LoopsOver x ↔
            (k ≠ some x ∧ v ≠ some x ∧ b.LoopsOver x) ∨ (AST.elseOf e).LoopsOver x) := by
        intro x hx
        rw [AST.loopsOver_forBlock, or_iff_right]
        rintro rfl
        exact hne (iterable_of_reference hi hx).symm
      have h₆ : s₆.forLoopMetadata u = s₅.forLoopMetadata u := by
        rw [hF.metadata, Function.update_of_ne hne]
      have h₄ : s₄.forLoopMetadata u = s₃.forLoopMetadata u := by
        rw [hloop.left.metadata, Function.update_of_ne hne]
      have h₂ : s₂.forLoopMetadata u = s.forLoopMetadata u := by
        obtain ⟨_, _, _, _, _, _, _, _, hmd, -⟩ := hloop.entered.calls
        rw [hmd, Function.update_of_ne hne, hm₁]
      have hbody' : KeepsEntry s s₄ (fun x => k ≠ some x ∧ v ≠ some x ∧ b.LoopsOver x) u := by
        unfold KeepsEntry at hbody ⊢
        simp only [hloop.entered.overriden_iff hu₁, ho₁] at hbody
        rw [h₄, ← h₂]
        refine ⟨fun ⟨x, hx, hk, hv, hl⟩ => hbody.1 ⟨x, ⟨hk, hv, hx⟩, hl⟩, fun hn => hbody.2 ?_⟩
        rintro ⟨x, ⟨hk, hv, hx⟩, hl⟩
        exact hn ⟨x, hx, hk, hv, hl⟩
      have hall := hbody'.trans helse ho₄ fun x => Iff.rfl
      unfold KeepsEntry at hall ⊢
      rw [h₆]
      refine ⟨fun ⟨x, hx, hl⟩ => hall.1 ⟨x, hx, (hiff x hx).1 hl⟩, fun hn => hall.2 ?_⟩
      exact fun ⟨x, hx, hl⟩ => hn ⟨x, hx, (hiff x hx).2 hl⟩
  | _ => exact fun _ hr => nomatch hr

/-! ## The reads -/

variable {T : List IRAction}

/-- The reads of a log get metadata of their own for block. -/
def AllOwn (T l : List IRAction) : Prop := ∀ x ∈ l, x.OwnMetadata T

theorem allOwn_append {l l' : List IRAction} : AllOwn T (l ++ l') ↔ AllOwn T l ∧ AllOwn T l' :=
  List.forall_mem_append

theorem allOwn_of_outsideLoops {l : List IRAction} (h : ∀ x ∈ l, OutsideLoops x) :
    AllOwn T l := by
  intro x hx
  have hx := h x hx
  cases x with
  | call id f args => cases f <;> trivial
  | _ => trivial

theorem allOwn_of_quiet {l : List IRAction} (h : ∀ x ∈ l, Quiet x) : AllOwn T l :=
  allOwn_of_outsideLoops fun x hx => (h x hx).outsideLoops

theorem allOwn_finished {it : Value} {f : LoopFrame} {s s' : Codegen} {l : List IRAction}
    (h : Finished s it f l s') : AllOwn T l := by
  obtain ⟨l₁, hq, rfl⟩ := h.calls
  exact allOwn_append.2 ⟨allOwn_of_outsideLoops (by simp [OutsideLoops]), allOwn_of_quiet hq⟩

theorem allOwn_ifHead {c : Value} {n : Nat} : AllOwn T (ifHead c n) :=
  allOwn_of_outsideLoops (by simp [ifHead, OutsideLoops])

theorem allOwn_ifNext {m n : Nat} : AllOwn T (ifNext m n) :=
  allOwn_of_outsideLoops (by simp [ifNext, OutsideLoops])

/-- The metadata after `enterLoop` is that of the call of `createForLoopInit`. -/
theorem Entered.registered {s s' : Codegen} {n : Nat} {k v : Option Text} {it : Value}
    {l : List IRAction} {f : LoopFrame} (h : Entered s n k v it l s' f) (hT : ∀ x ∈ l, x ∈ T) :
    ∃ id pos, s'.forLoopMetadata it = some ⟨.instruction id .hashTable, pos⟩ ∧
      IRAction.call id (.forloopInit n) [it, pos] ∈ T ∧ AllOwn T l := by
  obtain ⟨id, id', pos, kp, vp, l₁, l₂, l₃, hmd, hq, rfl⟩ := h.calls
  have hinit := hT (.call id (.forloopInit n) [it, pos]) (by simp)
  refine ⟨id, pos, by rw [hmd, Function.update_self], hinit, ?_⟩
  simp only [List.forall_mem_append] at hq
  simp only [allOwn_append]
  refine ⟨⟨⟨⟨⟨allOwn_of_quiet hq.1.1, ?_⟩, allOwn_of_quiet hq.1.2⟩, ?_⟩, allOwn_of_quiet hq.2⟩, ?_⟩
  · exact List.forall_mem_singleton.2 trivial
  · exact List.forall_mem_singleton.2 ⟨id, it, pos, _, hinit, rfl⟩
  · exact List.forall_mem_singleton.2 trivial

section

variable {k v : Option Text} {i : Expression} {b : AST} {s s₁ s₂ s₃ s₄ : Codegen}
  {l₁ l₂ l₃ l₄ : List IRAction} {it : Value} {f : LoopFrame} {r : Bool}

/-- A for block up to the end of its body. -/
theorem allOwn_body (hs : s.Ready) (hj : s.Injective)
    (hi : Returns (expression B i) (withLoop s) l₁ s₁ it) (hs₁ : s₁.Ready)
    (hE : Entered s₁ s.loops k v it l₂ s₂ f) (hT : ∀ x ∈ l₁ ++ l₂ ++ l₃, x ∈ T)
    (hb : s₂.Injective → (∀ x ∈ l₃, x ∈ T) → (AllOwn T l₃ ↔ b.RunsOnce s₂.bound)) :
    AllOwn T (l₁ ++ l₂ ++ l₃) ↔ b.RunsOnce (AST.bindNames k v s.bound) := by
  simp only [List.forall_mem_append] at hT
  have g₁ := (expression_returns (ready_withLoop hs) hi).2.1
  have ho₁ : s₁.overridenVariables = s.overridenVariables := g₁.overriden
  have hj₁ : s₁.Injective := by
    unfold Codegen.Injective
    rw [ho₁]
    exact hj
  have hbound : s₁.bound = s.bound := by
    unfold Codegen.bound
    rw [ho₁]
  obtain ⟨_, _, -, -, hown⟩ := hE.registered hT.1.2
  rw [allOwn_append, allOwn_append, hb (hE.injective hs₁ hj₁) hT.2, hE.bound_eq, hbound]
  exact and_iff_right
    ⟨allOwn_of_outsideLoops (expression_returns (ready_withLoop hs) hi).1, hown⟩

/-- The read at the end of a body is of its own for block, unless one over the same loop variable
was finished in between. -/
theorem allOwn_left (hs : s.Ready) (hj : s.Injective)
    (hi : Returns (expression B i) (withLoop s) l₁ s₁ it) (hs₁ : s₁.Ready)
    (hE : Entered s₁ s.loops k v it l₂ s₂ f) (hs₂ : s₂.Ready) (hb : Visits B b s₂ l₃ s₃ true)
    (hL : Left s₃ s.loops k v it f l₄ s₄) (hT : ∀ x ∈ l₂, x ∈ T) :
    AllOwn T l₄ ↔ ¬AST.RunsTwice s.bound k v i b := by
  obtain ⟨-, g₁, hv⟩ := expression_returns (ready_withLoop hs) hi
  have ho₁ : s₁.overridenVariables = s.overridenVariables := g₁.overriden
  have hit₁ := not_fresh_iterable hs₁ hv.usable
  have hkeep := hb.metadata hs₂ rfl it (Codegen.not_fresh_mono hE.next hit₁)
  obtain ⟨id, pos, hmd, hinit, -⟩ := hE.registered hT
  obtain ⟨id', c, l, hq, rfl⟩ := hL.calls
  have hcall : AllOwn T (l ++ [.call id' (.forloopNext s.loops)
      [(readMetadata s₃ it).hashTable, (readMetadata s₃ it).hashPosition],
      .condBr c f.loopBlock f.afterLoopBlock, .setInsertPoint f.loopElseBlock]) ↔
      IRAction.OwnMetadata T (.call id' (.forloopNext s.loops)
        [(readMetadata s₃ it).hashTable, (readMetadata s₃ it).hashPosition]) := by
    rw [allOwn_append, and_iff_right (allOwn_of_quiet hq)]
    simp [AllOwn, IRAction.OwnMetadata]
  rw [hcall]
  have htwice : (∃ x, s₂.overridenVariables x = some it ∧ b.LoopsOver x) ↔
      AST.RunsTwice s.bound k v i b := by
    constructor
    · rintro ⟨x, hx, hl⟩
      obtain ⟨hk, hv', hx⟩ := (hE.overriden_iff hit₁).1 hx
      rw [ho₁] at hx
      have hcount := hs.overriden hx
      obtain ⟨y, rfl, hy⟩ := iterable_eq (ready_withLoop hs) hi (hs.made hcount).type
        (Codegen.not_fresh_of_counted (ready_withLoop hs) hcount)
      obtain rfl := hj hx hy
      exact ⟨x, rfl, by rw [Codegen.bound, hx]; nofun, hk, hv', hl⟩
    · rintro ⟨x, rfl, hx, hk, hv', hl⟩
      obtain ⟨u, hu⟩ := Option.ne_none_iff_exists'.1 hx
      obtain rfl := iterable_of_reference hi hu
      exact ⟨x, (hE.overriden_iff hit₁).2 ⟨hk, hv', by rw [ho₁, hu]⟩, hl⟩
  rw [← htwice]
  by_cases hp : ∃ x, s₂.overridenVariables x = some it ∧ b.LoopsOver x
  · refine iff_of_false ?_ (not_not.2 hp)
    rw [readMetadata, hkeep.1 hp]
    rintro ⟨_, _, _, _, -, h⟩
    cases h
  · refine iff_of_true ?_ hp
    rw [readMetadata, hkeep.2 hp, hmd]
    exact ⟨id, it, pos, [], hinit, rfl⟩

end

/-- The reads of a visit get the metadata of their own for block exactly when no for block runs
twice over a loop variable. -/
theorem Visits.allOwn {a : AST} {s s' : Codegen} {l : List IRAction} {r : Bool}
    (h : Visits B a s l s' r) : s.Ready → s.Injective → (∀ x ∈ l, x ∈ T) →
      (AllOwn T l ↔ a.RunsOnce s.bound) := by
  have hsame : ∀ {s s' : Codegen}, s'.overridenVariables = s.overridenVariables →
      s'.bound = s.bound ∧ (s.Injective → s'.Injective) := by
    intro s s' ho
    unfold Codegen.bound Codegen.Injective
    rw [ho]
    exact ⟨rfl, id⟩
  induction h with
  | nil => exact fun _ _ _ => iff_of_true (fun x hx => absurd hx List.not_mem_nil) trivial
  | cons ha hs₁ has iha ihas =>
    intro hs hj hT
    simp only [List.forall_mem_append] at hT
    obtain ⟨hbound, hj₁⟩ := hsame ((ha.frame hs).2 rfl)
    rw [allOwn_append, iha hs hj hT.1, ihas hs₁ (hj₁ hj) hT.2, hbound]
    show _ ↔ _ ∧ (_ → AST.RunsOnceList _ _)
    simp only [(ha.compiles_iff hs).2 rfl, true_imp_iff]
    rfl
  | consThrows ha iha =>
    intro hs hj hT
    rw [iha hs hj hT]
    show _ ↔ _ ∧ (_ → AST.RunsOnceList _ _)
    simp [(ha.compiles_iff hs).not.2 (by simp)]
  | rawBlock h =>
    intro hs _ _
    have hq := (h.sat (gives_printText (R := fun _ => True) hs)).1
    exact iff_of_true (allOwn_of_quiet hq) trivial
  | printBlock he hs₁ hp =>
    intro hs _ _
    obtain ⟨ho, -, hv⟩ := expression_returns hs he
    have hq := (hp.sat (gives_printValue (R := fun _ => True) hs₁ hv.usable)).1
    exact iff_of_true (allOwn_append.2 ⟨allOwn_of_outsideLoops ho, allOwn_of_quiet hq⟩) trivial
  | printThrows he =>
    exact fun hs _ _ => iff_of_true (allOwn_of_outsideLoops (expression_throws hs he).1) trivial
  | ifBlock hc hs₁ hv ht hs₂ he iht ihe =>
    intro hs hj hT
    simp only [List.forall_mem_append] at hT
    obtain ⟨ho, g₁, hr⟩ := expression_returns hs hc
    have hs₁' := ready_withBlocks hs₁
    obtain ⟨hbound₁, hj₁⟩ := @hsame _ (withBlocks _) g₁.overriden
    obtain ⟨hbound₂, hj₂⟩ := hsame ((ht.frame hs₁').2 rfl)
    simp only [allOwn_append, and_iff_right (allOwn_of_outsideLoops ho), allOwn_ifHead,
      allOwn_ifNext, true_and, and_true, iht hs₁' (hj₁ hj) hT.1.1.1.2,
      ihe hs₂ (hj₂ (hj₁ hj)) hT.1.2, hbound₂, hbound₁, AST.runsOnce_ifBlock, hr.generates,
      hr.type.symm.trans hv, (ht.compiles_iff hs₁').2 rfl, true_imp_iff]
  | ifCondition hc =>
    intro hs _ _
    obtain ⟨ho, -, hn⟩ := expression_throws hs hc
    rw [AST.runsOnce_ifBlock]
    exact iff_of_true (allOwn_of_outsideLoops ho) fun hg => absurd hg hn
  | ifType hc hv =>
    intro hs _ _
    obtain ⟨ho, -, hr⟩ := expression_returns hs hc
    rw [AST.runsOnce_ifBlock]
    exact iff_of_true (allOwn_of_outsideLoops ho) fun _ ht => absurd (hr.type.trans ht) hv
  | ifThen hc hs₁ hv ht iht =>
    intro hs hj hT
    simp only [List.forall_mem_append] at hT
    obtain ⟨ho, g₁, hr⟩ := expression_returns hs hc
    have hs₁' := ready_withBlocks hs₁
    obtain ⟨hbound₁, hj₁⟩ := @hsame _ (withBlocks _) g₁.overriden
    simp only [allOwn_append, and_iff_right (allOwn_of_outsideLoops ho), allOwn_ifHead, true_and,
      iht hs₁' (hj₁ hj) hT.2, hbound₁, AST.runsOnce_ifBlock, hr.generates,
      hr.type.symm.trans hv, (ht.compiles_iff hs₁').not.2 (by simp), true_imp_iff, false_imp_iff,
      and_true]
  | ifElse hc hs₁ hv ht hs₂ he iht ihe =>
    intro hs hj hT
    simp only [List.forall_mem_append] at hT
    obtain ⟨ho, g₁, hr⟩ := expression_returns hs hc
    have hs₁' := ready_withBlocks hs₁
    obtain ⟨hbound₁, hj₁⟩ := @hsame _ (withBlocks _) g₁.overriden
    obtain ⟨hbound₂, hj₂⟩ := hsame ((ht.frame hs₁').2 rfl)
    simp only [allOwn_append, and_iff_right (allOwn_of_outsideLoops ho), allOwn_ifHead,
      allOwn_ifNext, true_and, and_true, iht hs₁' (hj₁ hj) hT.1.1.2,
      ihe hs₂ (hj₂ (hj₁ hj)) hT.2, hbound₂, hbound₁, AST.runsOnce_ifBlock, hr.generates,
      hr.type.symm.trans hv, (ht.compiles_iff hs₁').2 rfl, true_imp_iff]
  | forBlock hi hs₁ hf hs₂ hb hs₃ hl hs₄ he hs₅ hz ihb ihe =>
    intro hs hj hT
    simp only [List.forall_mem_append] at hT
    obtain ⟨-, g₁, hv⟩ := expression_returns (ready_withLoop hs) hi
    have hloop := loopVisit hf (hb.frame hs₂).1 ((hb.frame hs₂).2 rfl) hs₃ hl
    have hF := (hz.sat (finishLoop_spec hs₅)).1
    obtain ⟨hbound₄, hj₄⟩ := hsame (hloop.overriden.trans g₁.overriden)
    have hbody := allOwn_body hs hj hi hs₁ hloop.entered
      (by simpa only [List.forall_mem_append] using hT.1.1.1) (ihb hs₂)
    have hleft := allOwn_left hs hj hi hs₁ hloop.entered hs₂ hb hloop.left hT.1.1.1.1.2
    rw [AST.runsOnce_forBlock, allOwn_append, allOwn_append, allOwn_append, hbody, hleft,
      ihe hs₄ (hj₄ hj) hT.1.2, hbound₄]
    simp only [allOwn_finished hF, hv.generates, (hb.compiles_iff hs₂).2 rfl, true_imp_iff,
      and_true, and_assoc]
    rfl
  | forIterable hi =>
    intro hs _ _
    obtain ⟨ho, -, hn⟩ := expression_throws (ready_withLoop hs) hi
    rw [AST.runsOnce_forBlock]
    exact iff_of_true (allOwn_of_outsideLoops ho) fun hg => absurd hg hn
  | forBody hi hs₁ hf hs₂ hb ihb =>
    intro hs hj hT
    have hE := hf.sat (enterLoop_spec (E := fun _ _ _ => True))
    have hv := (expression_returns (ready_withLoop hs) hi).2.2
    rw [AST.runsOnce_forBlock, allOwn_body hs hj hi hs₁ hE hT (ihb hs₂)]
    simp [hv.generates, (hb.compiles_iff hs₂).not.2 (by simp)]
  | forElse hi hs₁ hf hs₂ hb hs₃ hl hs₄ he ihb ihe =>
    intro hs hj hT
    simp only [List.forall_mem_append] at hT
    obtain ⟨-, g₁, hv⟩ := expression_returns (ready_withLoop hs) hi
    have hloop := loopVisit hf (hb.frame hs₂).1 ((hb.frame hs₂).2 rfl) hs₃ hl
    obtain ⟨hbound₄, hj₄⟩ := hsame (hloop.overriden.trans g₁.overriden)
    have hbody := allOwn_body hs hj hi hs₁ hloop.entered
      (by simpa only [List.forall_mem_append] using hT.1.1) (ihb hs₂)
    have hleft := allOwn_left hs hj hi hs₁ hloop.entered hs₂ hb hloop.left hT.1.1.1.2
    rw [AST.runsOnce_forBlock, allOwn_append, allOwn_append, hbody, hleft,
      ihe hs₄ (hj₄ hj) hT.2, hbound₄]
    simp only [hv.generates, (hb.compiles_iff hs₂).2 rfl, true_imp_iff, and_assoc]
    rfl
  | forFinish hi hs₁ hf hs₂ hb hs₃ hl hs₄ he hs₅ hz ihb ihe =>
    intro hs hj hT
    simp only [List.forall_mem_append] at hT
    obtain ⟨-, g₁, hv⟩ := expression_returns (ready_withLoop hs) hi
    have hloop := loopVisit hf (hb.frame hs₂).1 ((hb.frame hs₂).2 rfl) hs₃ hl
    obtain ⟨_, hF, -⟩ := hz.sat (finishLoop_spec hs₅)
    obtain ⟨hbound₄, hj₄⟩ := hsame (hloop.overriden.trans g₁.overriden)
    have hbody := allOwn_body hs hj hi hs₁ hloop.entered
      (by simpa only [List.forall_mem_append] using hT.1.1.1) (ihb hs₂)
    have hleft := allOwn_left hs hj hi hs₁ hloop.entered hs₂ hb hloop.left hT.1.1.1.1.2
    rw [AST.runsOnce_forBlock, allOwn_append, allOwn_append, allOwn_append, hbody, hleft,
      ihe hs₄ (hj₄ hj) hT.1.2, hbound₄]
    simp only [allOwn_finished hF, hv.generates, (hb.compiles_iff hs₂).2 rfl, true_imp_iff,
      and_true, and_assoc]
    rfl
  | includeBlock => exact fun _ _ _ => iff_of_true (fun x hx => absurd hx List.not_mem_nil) trivial

end

/-! ## Functions -/

/-- In a function that a clean visitor makes every call of `createForLoopGetVariables` and
`createForLoopNextIteration` gets what `createForLoopInit` made for the same for block. -/
def UsesOwnMetadata (B : IRBuilder) (a : AST) : Prop :=
  ∀ s : Codegen, s.Clean → AllOwn (visit B a s).log (visit B a s).log

/-- The metadata is kept apart exactly when no for block has in its body a for block over the
same loop variable. -/
theorem usesOwnMetadata_iff (B : IRBuilder) (a : AST) :
    UsesOwnMetadata B a ↔ a.RunsOnce fun _ => False := by
  have hrun : ∀ s : Codegen, s.Clean →
      (AllOwn (visit B a s).log (visit B a s).log ↔ a.RunsOnce fun _ => False) := by
    intro s hs
    obtain ⟨l, s', r, h, hok, herr⟩ := visit_run B a hs
    have hbound : Codegen.start.bound = fun _ => False := by
      funext x
      exact eq_false (fun h => h rfl)
    have hstart : ∀ T, AllOwn T entryLog := fun T =>
      allOwn_of_outsideLoops (by simp [entryLog, OutsideLoops])
    have hsub : ∀ T, (∀ x ∈ l, x ∈ T) → (AllOwn T l ↔ a.RunsOnce fun _ => False) := fun T hT => by
      rw [h.allOwn Codegen.ready_start (by rintro _ _ _ ⟨⟩) hT, hbound]
    cases r with
    | true =>
      rw [hok rfl, allOwn_append, allOwn_append, and_iff_right (hstart _), hsub _ (by simp +contextual)]
      exact and_iff_left (allOwn_of_outsideLoops (by simp [OutsideLoops]))
    | false =>
      obtain ⟨err, hrun⟩ := herr rfl
      rw [hrun, allOwn_append, and_iff_right (hstart _), hsub _ (by simp +contextual)]
  exact ⟨fun h => (hrun _ Codegen.clean_fresh).1 (h _ Codegen.clean_fresh),
    fun h s hs => (hrun s hs).2 h⟩

/-- `{% for x in a %}{% for y in x %}{% for z in x %}{{ z }}{% endfor %}{% endfor %}{% endfor %}` -/
def loopsOverOne : AST :=
  .forBlock none (some ['x']) (.variableReference ['a'])
    (.forBlock none (some ['y']) (.variableReference ['x'])
      (.forBlock none (some ['z']) (.variableReference ['x']) (.printBlock (.variableReference ['z']))
        none) none) none

/-- The middle one of three for blocks goes on with null pointers. -/
theorem not_usesOwnMetadata_loopsOverOne : ¬UsesOwnMetadata .noFolding loopsOverOne := by
  intro h
  have hmem : IRAction.call 32 (.forloopNext 1) [.nullptr, .nullptr] ∈
      (visit .noFolding loopsOverOne .fresh).log := by decide
  obtain ⟨_, _, _, _, -, h⟩ := h _ Codegen.clean_fresh _ hmem
  cases h

end LLVMVisitor

end B2
