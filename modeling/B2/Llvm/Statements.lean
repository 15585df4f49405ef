import B2.Llvm.Loops

/-!
# Runs of the visitor

`Visits B a s l s' r` is a visit of the tree `a` from a state whose loop variables
are counted: what it writes, the state it leaves, and whether it returns. It has
a case for every place where the visit of a node can end.
-/

namespace B2

open Effect.Traced (Sat Returns Throws returns_bind sat_bind sat_pure sat_tell sat_get sat_modify sat_throw)
open PHPBindings LLVMVisitor
open IRAction (OutsideLoops Quiet)

/-- An else body as a tree. -/
def AST.elseOf (e : Option AST) : AST := e.getD (.statements [])

namespace LLVMVisitor

/-- The log of `enterIf`, when the first of its blocks has the number `n`. -/
def ifHead (condition : Value) (n : Nat) : List IRAction :=
  [.createBlock n true, .createBlock (n + 1) false, .createBlock (n + 2) false,
    .condBr condition n (n + 1), .setInsertPoint n]

/-- The log of `continueIn`. -/
def ifNext (mergeBlock block : Nat) : List IRAction :=
  [.br mergeBlock, .attachBlock block, .setInsertPoint block]

/-- The state after `enterIf`. -/
def withBlocks (s : Codegen) : Codegen := { s with next := s.next + 3 }

/-- The state after `nextLoop`. -/
def withLoop (s : Codegen) : Codegen := { s with loops := s.loops + 1 }

/-- What a print block does with its value. -/
def printValue (v : Value) : Gen Unit := do
  let _ ← createPrintCall v
  releasePrinted v

/-- The visit of a raw block. -/
def printText (t : Text) : Gen Unit := do
  let stringPtr ← Gen.createGlobalStringPtr t
  let _ ← createPrintCall stringPtr
  return

inductive Visits (B : IRBuilder) : AST → Codegen → List IRAction → Codegen → Bool → Prop
  | nil {s} : Visits B (.statements []) s [] s true
  | cons {a as s l₁ s₁ l₂ s₂ r} (ha : Visits B a s l₁ s₁ true) (hs₁ : s₁.Ready)
      (has : Visits B (.statements as) s₁ l₂ s₂ r) :
      Visits B (.statements (a :: as)) s (l₁ ++ l₂) s₂ r
  | consThrows {a as s l s'} (ha : Visits B a s l s' false) :
      Visits B (.statements (a :: as)) s l s' false
  | rawBlock {t s l s'} (h : Returns (printText t) s l s' ()) :
      Visits B (.rawBlock t) s l s' true
  | printBlock {e s l₁ s₁ v l₂ s₂} (he : Returns (expression B e) s l₁ s₁ v) (hs₁ : s₁.Ready)
      (hp : Returns (printValue v) s₁ l₂ s₂ ()) : Visits B (.printBlock e) s (l₁ ++ l₂) s₂ true
  | printThrows {e s l s'} (he : Throws (expression B e) s l s') :
      Visits B (.printBlock e) s l s' false
  | ifBlock {c t e s l₁ s₁ v l₂ s₂ l₃ s₃} (hc : Returns (expression B c) s l₁ s₁ v)
      (hs₁ : s₁.Ready) (hv : v.type = .int1) (ht : Visits B t (withBlocks s₁) l₂ s₂ true)
      (hs₂ : s₂.Ready) (he : Visits B (.elseOf e) s₂ l₃ s₃ true) :
      Visits B (.ifBlock c t e) s
        (l₁ ++ ifHead v s₁.next ++ l₂ ++ ifNext (s₁.next + 2) (s₁.next + 1) ++ l₃ ++
          ifNext (s₁.next + 2) (s₁.next + 2)) s₃ true
  | ifCondition {c t e s l s'} (hc : Throws (expression B c) s l s') :
      Visits B (.ifBlock c t e) s l s' false
  | ifType {c t e s l s' v} (hc : Returns (expression B c) s l s' v) (hv : v.type ≠ .int1) :
      Visits B (.ifBlock c t e) s l s' false
  | ifThen {c t e s l₁ s₁ v l₂ s₂} (hc : Returns (expression B c) s l₁ s₁ v)
      (hs₁ : s₁.Ready) (hv : v.type = .int1) (ht : Visits B t (withBlocks s₁) l₂ s₂ false) :
      Visits B (.ifBlock c t e) s (l₁ ++ ifHead v s₁.next ++ l₂) s₂ false
  | ifElse {c t e s l₁ s₁ v l₂ s₂ l₃ s₃} (hc : Returns (expression B c) s l₁ s₁ v)
      (hs₁ : s₁.Ready) (hv : v.type = .int1) (ht : Visits B t (withBlocks s₁) l₂ s₂ true)
      (hs₂ : s₂.Ready) (he : Visits B (.elseOf e) s₂ l₃ s₃ false) :
      Visits B (.ifBlock c t e) s
        (l₁ ++ ifHead v s₁.next ++ l₂ ++ ifNext (s₁.next + 2) (s₁.next + 1) ++ l₃) s₃ false
  | forBlock {k v i b e s l₁ s₁ it l₂ s₂ f l₃ s₃ l₄ s₄ l₅ s₅ l₆ s₆}
      (hi : Returns (expression B i) (withLoop s) l₁ s₁ it) (hs₁ : s₁.Ready)
      (hf : Returns (enterLoop B s.loops k v it) s₁ l₂ s₂ f) (hs₂ : s₂.Ready)
      (hb : Visits B b s₂ l₃ s₃ true) (hs₃ : s₃.Ready)
      (hl : Returns (leaveLoop s.loops k v it f) s₃ l₄ s₄ ()) (hs₄ : s₄.Ready)
      (he : Visits B (.elseOf e) s₄ l₅ s₅ true) (hs₅ : s₅.Ready)
      (hz : Returns (finishLoop it f) s₅ l₆ s₆ ()) :
      Visits B (.forBlock k v i b e) s (l₁ ++ l₂ ++ l₃ ++ l₄ ++ l₅ ++ l₆) s₆ true
  | forIterable {k v i b e s l s'} (hi : Throws (expression B i) (withLoop s) l s') :
      Visits B (.forBlock k v i b e) s l s' false
  | forBody {k v i b e s l₁ s₁ it l₂ s₂ f l₃ s₃}
      (hi : Returns (expression B i) (withLoop s) l₁ s₁ it) (hs₁ : s₁.Ready)
      (hf : Returns (enterLoop B s.loops k v it) s₁ l₂ s₂ f) (hs₂ : s₂.Ready)
      (hb : Visits B b s₂ l₃ s₃ false) :
      Visits B (.forBlock k v i b e) s (l₁ ++ l₂ ++ l₃) s₃ false
  | forElse {k v i b e s l₁ s₁ it l₂ s₂ f l₃ s₃ l₄ s₄ l₅ s₅}
      (hi : Returns (expression B i) (withLoop s) l₁ s₁ it) (hs₁ : s₁.Ready)
      (hf : Returns (enterLoop B s.loops k v it) s₁ l₂ s₂ f) (hs₂ : s₂.Ready)
      (hb : Visits B b s₂ l₃ s₃ true) (hs₃ : s₃.Ready)
      (hl : Returns (leaveLoop s.loops k v it f) s₃ l₄ s₄ ()) (hs₄ : s₄.Ready)
      (he : Visits B (.elseOf e) s₄ l₅ s₅ false) :
      Visits B (.forBlock k v i b e) s (l₁ ++ l₂ ++ l₃ ++ l₄ ++ l₅) s₅ false
  | forFinish {k v i b e s l₁ s₁ it l₂ s₂ f l₃ s₃ l₄ s₄ l₅ s₅ l₆ s₆}
      (hi : Returns (expression B i) (withLoop s) l₁ s₁ it) (hs₁ : s₁.Ready)
      (hf : Returns (enterLoop B s.loops k v it) s₁ l₂ s₂ f) (hs₂ : s₂.Ready)
      (hb : Visits B b s₂ l₃ s₃ true) (hs₃ : s₃.Ready)
      (hl : Returns (leaveLoop s.loops k v it f) s₃ l₄ s₄ ()) (hs₄ : s₄.Ready)
      (he : Visits B (.elseOf e) s₄ l₅ s₅ true) (hs₅ : s₅.Ready)
      (hz : Throws (finishLoop it f) s₅ l₆ s₆) :
      Visits B (.forBlock k v i b e) s (l₁ ++ l₂ ++ l₃ ++ l₄ ++ l₅ ++ l₆) s₆ false
  | includeBlock {n sc M s} : Visits B (.includeBlock n sc M) s [] s false

/-! ## The parts of a visit -/

section

variable {B : IRBuilder} {e : Expression} {s s' : Codegen} {l : List IRAction} {v : Value}

theorem expression_returns (hs : s.Ready) (h : Returns (expression B e) s l s' v) :
    (∀ x ∈ l, OutsideLoops x) ∧ s.Grows s' ∧ Result e s s' v :=
  h.sat (expression_spec e hs)

theorem expression_throws (hs : s.Ready) (h : Throws (expression B e) s l s') :
    (∀ x ∈ l, OutsideLoops x) ∧ s.Grows s' ∧ ¬e.Generates := by
  obtain ⟨_, h⟩ := h.sat (expression_spec e hs)
  exact h

/-- A reference of a loop variable, or a lookup. -/
theorem variableReference_returns {x : Text}
    (h : Returns (variableReferenceExpression x) s l s' v) :
    ∃ l₁, l = l₁ ++ [.reference x v] ∧
      match s.overridenVariables x with
      | some u => Returns (getNewReferenceForVariable u) s l₁ s' v
      | none => Returns (createVariableLookup x) s l₁ s' v := by
  unfold variableReferenceExpression at h
  obtain ⟨l₀, s₀, a, l', h₀, h', rfl⟩ := returns_bind.1 h
  cases h₀
  cases hx : s.overridenVariables x with
  | some u =>
    simp only [hx] at h'
    obtain ⟨l₁, s₁, u, l₂, h₁, h₂, rfl⟩ := returns_bind.1 h'
    cases h₂
    exact ⟨l₁, rfl, h₁⟩
  | none =>
    simp only [hx] at h'
    obtain ⟨l₁, s₁, u, l₂, h₁, h₂, rfl⟩ := returns_bind.1 h'
    cases h₂
    exact ⟨l₁, rfl, h₁⟩

theorem newReference_returns {u : Value} (h : Returns (getNewReferenceForVariable u) s l s' v) :
    l = [] ∧ v = u := by
  refine h.sat (Q := fun l _ v => l = [] ∧ v = u) (E := fun _ _ _ => True) ?_
  rw [sat_newReference]
  cases s.variablesRefCount u with
  | none => trivial
  | some c =>
    simp only
    split <;> simp

/-- The two operands of an operation, and the operation on their values. -/
theorem operands_return {e e' : Expression} {f : Value → Value → Gen Value} (hs : s.Ready)
    (h : Returns (do
      let left ← expression B e
      let right ← expression B e'
      f left right) s l s' v) :
    ∃ l₁ s₁ left l₂ s₂ right l₃, Returns (expression B e) s l₁ s₁ left ∧ s₁.Ready ∧
      Returns (expression B e') s₁ l₂ s₂ right ∧ s₂.Ready ∧ Returns (f left right) s₂ l₃ s' v ∧
      l = l₁ ++ (l₂ ++ l₃) ∧ s₂.Usable left ∧ s₂.Usable right ∧ left.type = e.irType ∧
      right.type = e'.irType := by
  obtain ⟨l₁, s₁, left, l', h₁, h', rfl⟩ := returns_bind.1 h
  obtain ⟨l₂, s₂, right, l₃, h₂, h₃, rfl⟩ := returns_bind.1 h'
  obtain ⟨-, g₁, hl⟩ := expression_returns hs h₁
  obtain ⟨-, g₂, hr⟩ := expression_returns (g₁.ready hs) h₂
  exact ⟨l₁, s₁, left, l₂, s₂, right, l₃, h₁, g₁.ready hs, h₂, g₂.ready (g₁.ready hs), h₃, rfl,
    hl.usable.mono g₂, hr.usable, hl.type, hr.type⟩

/-- The one operand of an operation. -/
theorem operand_returns {e : Expression} {f : Value → Gen Value} (hs : s.Ready)
    (h : Returns (do
      let u ← expression B e
      f u) s l s' v) :
    ∃ l₁ s₁ u l₂, Returns (expression B e) s l₁ s₁ u ∧ s₁.Ready ∧ Returns (f u) s₁ l₂ s' v ∧
      l = l₁ ++ l₂ ∧ s₁.Usable u ∧ u.type = e.irType := by
  obtain ⟨l₁, s₁, u, l₂, h₁, h₂, rfl⟩ := returns_bind.1 h
  obtain ⟨-, g₁, hu⟩ := expression_returns hs h₁
  exact ⟨l₁, s₁, u, l₂, h₁, g₁.ready hs, h₂, rfl, hu.usable, hu.type⟩

/-- The first argument of a method call and the others. -/
theorem arguments_return {e : Expression} {args : List (Option Expression)} {vs : List Value}
    (hs : s.Ready) (h : Returns (expressions B (some e :: args)) s l s' vs) :
    ∃ l₁ s₁ u l₂ us, Returns (expression B e) s l₁ s₁ u ∧ s₁.Ready ∧
      Returns (expressions B args) s₁ l₂ s' us ∧ l = l₁ ++ l₂ ∧ vs = u :: us := by
  unfold expressions at h
  obtain ⟨l₁, s₁, u, l₂, h₁, h', rfl⟩ := returns_bind.1 h
  obtain ⟨l₃, s₂, us, l₄, h₂, h₃, rfl⟩ := returns_bind.1 h'
  cases h₃
  have hs₁ := (expression_returns hs h₁).2.1.ready hs
  exact ⟨l₁, s₁, u, l₃, us, h₁, hs₁, h₂, by rw [List.append_nil], rfl⟩

/-- The values of the arguments can all be used. -/
theorem expressions_return {args : List (Option Expression)} {vs : List Value} (hs : s.Ready)
    (h : Returns (expressions B args) s l s' vs) :
    (∀ x ∈ l, OutsideLoops x) ∧ s.Grows s' ∧ Expr.GeneratesArguments args ∧
      (∀ u ∈ vs, s'.Usable u) ∧ vs.length = args.length :=
  h.sat (expressions_spec (fun e _ => expression_spec e) hs)

theorem gives_printValue {R : Codegen → Prop} (hs : s.Ready) (hv : s.Usable v) :
    Gives Quiet (printValue v) s (fun _ _ => True) R := by
  unfold printValue
  refine (gives_printCall hs hv).seq fun s₁ _ g₁ _ => ?_
  unfold releasePrinted
  simp only [isVariantType_iff]
  split
  · rename_i h
    exact gives_outOfScope (g₁.ready hs) (g₁.counted v ((hv.counted_iff hs).2 h))
  · exact Gives.pure trivial

theorem gives_printText {t : Text} {R : Codegen → Prop} (hs : s.Ready) :
    Gives Quiet (printText t) s (fun _ _ => True) R := by
  unfold printText
  refine Gen.gives_globalStringPtr.seq fun s₁ v g₁ hv => ?_
  refine (gives_printCall (g₁.ready hs) (.inl (.inr (.inr (.inr hv))))).seq fun _ _ _ _ => ?_
  exact Gives.pure trivial

theorem ready_withLoop (hs : s.Ready) : (withLoop s).Ready := ⟨hs.overriden, hs.made⟩

theorem ready_withBlocks (hs : s.Ready) : (withBlocks s).Ready :=
  ⟨hs.overriden, fun hv => (hs.made hv).mono (Nat.le_add_right _ 3)⟩

end

end LLVMVisitor

namespace Codegen

/-- What the visit of a tree keeps, whether or not it returns. -/
structure Extends (s s' : Codegen) : Prop where
  next : s.next ≤ s'.next
  loops : s.loops ≤ s'.loops
  counted : ∀ v, s.Counted v → s'.Counted v
  made : ∀ v, s'.Counted v → s.Counted v ∨ s'.Made v

variable {s s' s'' : Codegen}

theorem Extends.refl (s : Codegen) : s.Extends s := ⟨le_rfl, le_rfl, fun _ => id, fun _ => .inl⟩

theorem Extends.trans (h : s.Extends s') (h' : s'.Extends s'') : s.Extends s'' where
  next := h.next.trans h'.next
  loops := h.loops.trans h'.loops
  counted v hv := h'.counted v (h.counted v hv)
  made v hv := by
    rcases h'.made v hv with hv | hv
    · exact (h.made v hv).imp_right fun hv => hv.mono h'.next
    · exact .inr hv

theorem Grows.extends (h : s.Grows s') : s.Extends s' :=
  ⟨h.next, h.loops.ge, h.counted, h.made⟩

/-- The loop variables are those of before. -/
theorem Extends.ready (h : s.Extends s') (ho : s'.overridenVariables = s.overridenVariables)
    (hs : s.Ready) : s'.Ready where
  overriden hx := h.counted _ (hs.overriden (ho ▸ hx))
  made hv := by
    rcases h.made _ hv with hv | hv
    · exact (hs.made hv).mono h.next
    · exact hv

end Codegen

namespace LLVMVisitor

section

variable {B : IRBuilder} {s s' : Codegen} {loop : Nat} {k v : Option Text} {it : Value}
  {l : List IRAction} {f : LoopFrame}

theorem Entered.extends (h : Entered s loop k v it l s' f) : s.Extends s' where
  next := h.next
  loops := h.loops.ge
  counted u hu := by
    unfold Codegen.Counted at hu ⊢
    rw [h.counts u]
    split_ifs <;> simp_all
  made u hu := by
    unfold Codegen.Counted at hu
    rw [h.counts u] at hu
    split_ifs at hu with h₁ h₂
    · exact .inr (h.made u (.inr h₁)).2
    · exact .inr (h.made u (.inl h₂)).2
    · exact .inl hu

theorem Entered.counted (h : Entered s loop k v it l s' f) {u : Value}
    (hu : f.keyVariable = some u ∨ f.valueVariable = some u) : s'.Counted u := by
  unfold Codegen.Counted
  rw [h.counts u]
  rcases hu with hu | hu
  · rw [if_neg (h.distinct u hu), if_pos hu]
    simp
  · rw [if_pos hu]
    simp

theorem Entered.ready (h : Entered s loop k v it l s' f) (hs : s.Ready) : s'.Ready where
  overriden hx := by
    rw [h.overriden] at hx
    rcases bindVariable_eq_some hx with hx | hx
    · exact h.counted (.inr hx)
    · rcases bindVariable_eq_some hx with hx | hx
      · exact h.counted (.inl hx)
      · exact h.extends.counted _ (hs.overriden hx)
  made hv := by
    rcases h.extends.made _ hv with hv | hv
    · exact (hs.made hv).mono h.next
    · exact hv

theorem Left.extends (h : Left s loop k v it f l s') : s.Extends s' :=
  ⟨h.next, h.loops.ge, h.counted, h.made⟩

theorem Finished.extends (h : Finished s it f l s') : s.Extends s' :=
  ⟨h.next, h.loops.ge, h.counted, h.made⟩

end

/-! ## Every visit -/

section

variable {B : IRBuilder}

theorem extends_withLoop (s : Codegen) : s.Extends (withLoop s) :=
  ⟨le_rfl, Nat.le_succ _, fun _ => id, fun _ => .inl⟩

theorem extends_withBlocks (s : Codegen) : s.Extends (withBlocks s) :=
  ⟨Nat.le_add_right _ 3, le_rfl, fun _ => id, fun _ => .inl⟩

/-- The parts of a for block up to its else body. -/
structure LoopVisit (B : IRBuilder) (loop : Nat) (k v : Option Text) (it : Value) (f : LoopFrame)
    (s₁ s₂ s₃ s₄ : Codegen) (l₂ l₄ : List IRAction) : Prop where
  entered : Entered s₁ loop k v it l₂ s₂ f
  left : Left s₃ loop k v it f l₄ s₄
  overriden : s₄.overridenVariables = s₁.overridenVariables

theorem loopVisit {loop : Nat} {k v : Option Text} {it : Value} {f : LoopFrame}
    {s₁ s₂ s₃ s₄ : Codegen} {l₂ l₄ : List IRAction}
    (hf : Returns (enterLoop B loop k v it) s₁ l₂ s₂ f) (hb : s₂.Extends s₃)
    (ho : s₃.overridenVariables = s₂.overridenVariables) (hs₃ : s₃.Ready)
    (hl : Returns (leaveLoop loop k v it f) s₃ l₄ s₄ ()) :
    LoopVisit B loop k v it f s₁ s₂ s₃ s₄ l₂ l₄ := by
  have hE : Entered s₁ loop k v it l₂ s₂ f :=
    hf.sat (enterLoop_spec (E := fun _ _ _ => False))
  have hL : Left s₃ loop k v it f l₄ s₄ :=
    hl.sat (leaveLoop_spec (E := fun _ _ _ => False) hs₃ fun u hu =>
      hb.counted u (hE.counted hu))
  refine ⟨hE, hL, ?_⟩
  rw [hL.overriden, ho, hE.overriden, hE.oldKeyVariable, hE.oldValueVariable]
  exact restore_bindLoopVariables k v _ _ _

/-- A visit that returns has the loop variables of before. -/
theorem Visits.frame {a : AST} {s s' : Codegen} {l : List IRAction} {r : Bool}
    (h : Visits B a s l s' r) : s.Ready →
      s.Extends s' ∧ (r = true → s'.overridenVariables = s.overridenVariables) := by
  induction h with
  | nil => exact fun _ => ⟨.refl _, fun _ => rfl⟩
  | cons ha hs₁ has iha ihas =>
    intro hs
    obtain ⟨h₁, ho₁⟩ := iha hs
    obtain ⟨h₂, ho₂⟩ := ihas hs₁
    exact ⟨h₁.trans h₂, fun hr => (ho₂ hr).trans (ho₁ rfl)⟩
  | consThrows ha iha => exact fun hs => ⟨(iha hs).1, nofun⟩
  | rawBlock h =>
    intro hs
    have g := (h.sat (gives_printText (R := fun _ => False) hs)).2.1
    exact ⟨g.extends, fun _ => g.overriden⟩
  | printBlock he hs₁ hp =>
    intro hs
    obtain ⟨-, g₁, hv⟩ := expression_returns hs he
    have g₂ := (hp.sat (gives_printValue (R := fun _ => False) hs₁ hv.usable)).2.1
    exact ⟨g₁.extends.trans g₂.extends, fun _ => g₂.overriden.trans g₁.overriden⟩
  | printThrows he => exact fun hs => ⟨(expression_throws hs he).2.1.extends, nofun⟩
  | ifBlock hc hs₁ hv ht hs₂ he iht ihe =>
    intro hs
    obtain ⟨-, g₁, -⟩ := expression_returns hs hc
    obtain ⟨h₂, ho₂⟩ := iht (ready_withBlocks hs₁)
    obtain ⟨h₃, ho₃⟩ := ihe hs₂
    refine ⟨g₁.extends.trans ((extends_withBlocks _).trans (h₂.trans h₃)), fun _ => ?_⟩
    exact (ho₃ rfl).trans ((ho₂ rfl).trans g₁.overriden)
  | ifCondition hc => exact fun hs => ⟨(expression_throws hs hc).2.1.extends, nofun⟩
  | ifType hc hv => exact fun hs => ⟨(expression_returns hs hc).2.1.extends, nofun⟩
  | ifThen hc hs₁ hv ht iht =>
    intro hs
    have g₁ := (expression_returns hs hc).2.1
    exact ⟨g₁.extends.trans ((extends_withBlocks _).trans (iht (ready_withBlocks hs₁)).1), nofun⟩
  | ifElse hc hs₁ hv ht hs₂ he iht ihe =>
    intro hs
    have g₁ := (expression_returns hs hc).2.1
    have h₂ := (iht (ready_withBlocks hs₁)).1
    exact ⟨g₁.extends.trans ((extends_withBlocks _).trans (h₂.trans (ihe hs₂).1)), nofun⟩
  | @forBlock k v i b e s _ s₁ _ _ _ _ _ _ _ _ _ _ _ _ hi hs₁ hf hs₂ hb hs₃ hl hs₄ he hs₅ hz
      ihb ihe =>
    intro hs
    have g₁ := (expression_returns (ready_withLoop hs) hi).2.1
    obtain ⟨h₃, ho₃⟩ := ihb hs₂
    have hloop := loopVisit hf h₃ (ho₃ rfl) hs₃ hl
    obtain ⟨h₅, ho₅⟩ := ihe hs₄
    obtain ⟨hF, -⟩ := hz.sat (finishLoop_spec hs₅)
    refine ⟨(extends_withLoop s).trans (g₁.extends.trans (hloop.entered.extends.trans (h₃.trans
      (hloop.left.extends.trans (h₅.trans hF.extends))))), fun _ => ?_⟩
    rw [hF.overriden, ho₅ rfl, hloop.overriden, g₁.overriden]
    rfl
  | forIterable hi =>
    intro hs
    have g₁ := (expression_throws (ready_withLoop hs) hi).2.1
    exact ⟨(extends_withLoop _).trans g₁.extends, nofun⟩
  | forBody hi hs₁ hf hs₂ hb ihb =>
    intro hs
    have g₁ := (expression_returns (ready_withLoop hs) hi).2.1
    have hE := hf.sat (enterLoop_spec (E := fun _ _ _ => False))
    exact ⟨(extends_withLoop _).trans (g₁.extends.trans (hE.extends.trans (ihb hs₂).1)), nofun⟩
  | forElse hi hs₁ hf hs₂ hb hs₃ hl hs₄ he ihb ihe =>
    intro hs
    have g₁ := (expression_returns (ready_withLoop hs) hi).2.1
    obtain ⟨h₃, ho₃⟩ := ihb hs₂
    have hloop := loopVisit hf h₃ (ho₃ rfl) hs₃ hl
    exact ⟨(extends_withLoop _).trans (g₁.extends.trans (hloop.entered.extends.trans (h₃.trans
      (hloop.left.extends.trans (ihe hs₄).1)))), nofun⟩
  | forFinish hi hs₁ hf hs₂ hb hs₃ hl hs₄ he hs₅ hz ihb ihe =>
    intro hs
    have g₁ := (expression_returns (ready_withLoop hs) hi).2.1
    obtain ⟨h₃, ho₃⟩ := ihb hs₂
    have hloop := loopVisit hf h₃ (ho₃ rfl) hs₃ hl
    obtain ⟨_, hF, -⟩ := hz.sat (finishLoop_spec hs₅)
    exact ⟨(extends_withLoop _).trans (g₁.extends.trans (hloop.entered.extends.trans (h₃.trans
      (hloop.left.extends.trans ((ihe hs₄).1.trans hF.extends))))), nofun⟩
  | includeBlock => exact fun _ => ⟨.refl _, nofun⟩

theorem Visits.ready {a : AST} {s s' : Codegen} {l : List IRAction} (h : Visits B a s l s' true)
    (hs : s.Ready) : s'.Ready :=
  (h.frame hs).1.ready ((h.frame hs).2 rfl) hs

theorem sat_enterIf {v : Value} {s : Codegen} {Q : List IRAction → Codegen → IfFrame → Prop}
    {E : List IRAction → Codegen → Failure → Prop} :
    Sat (enterIf v) s Q E ↔
      if v.type = .int1 then
        Q (ifHead v s.next) (withBlocks s) ⟨s.next + 1, s.next + 2⟩
      else E [] s unimplemented := by
  unfold enterIf
  by_cases hv : v.type = .int1
  · simp only [ne_eq, hv, not_true_eq_false, if_false, if_true]
    rfl
  · simp only [ne_eq, hv, not_false_eq_true, if_true, if_false]
    rfl

theorem sat_continueIn {m b : Nat} {s : Codegen} {Q : List IRAction → Codegen → Unit → Prop}
    {E : List IRAction → Codegen → Failure → Prop} :
    Sat (continueIn m b) s Q E ↔ Q (ifNext m b) s () := Iff.rfl

theorem sat_nextLoop {s : Codegen} {Q : List IRAction → Codegen → Nat → Prop}
    {E : List IRAction → Codegen → Failure → Prop} :
    Sat nextLoop s Q E ↔ Q [] (withLoop s) s.loops := Iff.rfl

/-- What is to be shown of a tree. -/
abbrev AllVisits (B : IRBuilder) (a : AST) : Prop :=
  ∀ {s : Codegen}, s.Ready →
    Sat (ast B a) s (fun l s' _ => Visits B a s l s' true) (fun l s' _ => Visits B a s l s' false)

theorem statements_visits {l : List AST} (ih : ∀ a ∈ l, AllVisits B a) :
    AllVisits B (.statements l) := by
  induction l with
  | nil => exact fun _ => .nil
  | cons a as iha =>
    intro s hs
    have ha := ih a List.mem_cons_self hs
    have has : AllVisits B (.statements as) := iha fun b hb => ih b (List.mem_cons_of_mem _ hb)
    refine Sat.bind ha (fun l₁ s₁ _ h₁ => ?_) (fun l₁ s₁ _ h₁ => .consThrows h₁)
    refine (has (h₁.ready hs)).mono (fun l₂ s₂ _ h₂ => ?_) (fun l₂ s₂ _ h₂ => ?_)
    · exact .cons h₁ (h₁.ready hs) h₂
    · exact .cons h₁ (h₁.ready hs) h₂

theorem elseBody_visits {e : Option AST} (ih : ∀ a, e = some a → AllVisits B a) {s : Codegen}
    (hs : s.Ready) :
    Sat (elseBody B e) s (fun l s' _ => Visits B (.elseOf e) s l s' true)
      (fun l s' _ => Visits B (.elseOf e) s l s' false) := by
  cases e with
  | none => exact .nil
  | some a => exact ih a rfl hs

theorem ifBlock_visits {c : Expression} {t : AST} {e : Option AST} (iht : AllVisits B t)
    (ihe : ∀ a, e = some a → AllVisits B a) : AllVisits B (.ifBlock c t e) := by
  intro s hs
  refine Sat.bind Sat.self (fun l₁ s₁ v hc => ?_) (fun _ _ _ hc => .ifCondition hc)
  have hs₁ := (expression_returns hs hc).2.1.ready hs
  rw [sat_bind, sat_enterIf]
  by_cases hv : v.type = .int1
  · rw [if_pos hv]
    refine Sat.bind (iht (ready_withBlocks hs₁)) (fun l₂ s₂ _ ht => ?_) (fun l₂ s₂ _ ht => ?_)
    · have hs₂ := ht.ready (ready_withBlocks hs₁)
      rw [sat_bind, sat_continueIn]
      refine Sat.bind (elseBody_visits ihe hs₂) (fun l₃ s₃ _ he => ?_) (fun l₃ s₃ _ he => ?_)
      · rw [sat_continueIn]
        have h := Visits.ifBlock hc hs₁ hv ht hs₂ he
        simpa only [List.append_assoc] using h
      · have h := Visits.ifElse hc hs₁ hv ht hs₂ he
        simpa only [List.append_assoc] using h
    · have h := Visits.ifThen (e := e) hc hs₁ hv ht
      simpa only [List.append_assoc] using h
  · rw [if_neg hv, List.append_nil]
    exact .ifType hc hv

theorem forBlock_visits {k v : Option Text} {i : Expression} {b : AST} {e : Option AST}
    (ihb : AllVisits B b) (ihe : ∀ a, e = some a → AllVisits B a) :
    AllVisits B (.forBlock k v i b e) := by
  intro s hs
  have hself : ∀ {α : Type} {m : Gen α} {s : Codegen} {Q : List IRAction → Codegen → α → Prop},
      Sat m s Q (fun _ _ _ => False) →
      Sat m s (fun l s' a => Returns m s l s' a ∧ Q l s' a) (fun _ _ _ => False) := fun h =>
    (Sat.self.and h).mono (fun _ _ _ h => h) fun _ _ _ h => h.2
  unfold ast
  rw [sat_bind, sat_nextLoop]
  refine Sat.bind Sat.self (fun l₁ s₁ it hi => ?_) (fun _ _ _ hi => .forIterable hi)
  have hs₁ := (expression_returns (ready_withLoop hs) hi).2.1.ready (ready_withLoop hs)
  refine Sat.bind (hself enterLoop_spec) (fun l₂ s₂ f hf => ?_) (fun _ _ _ h => h.elim)
  have hs₂ := hf.2.ready hs₁
  refine Sat.bind (ihb hs₂) (fun l₃ s₃ _ hb => ?_) (fun l₃ s₃ _ hb => ?_)
  · have hs₃ := hb.ready hs₂
    have hcounted := fun u hu => (hb.frame hs₂).1.counted u (hf.2.counted hu)
    refine Sat.bind (hself (leaveLoop_spec hs₃ hcounted)) (fun l₄ s₄ _ hl => ?_)
      (fun _ _ _ h => h.elim)
    have hloop := loopVisit hf.1 (hb.frame hs₂).1 ((hb.frame hs₂).2 rfl) hs₃ hl.1
    have hs₄ : s₄.Ready := (hloop.entered.extends.trans
      ((hb.frame hs₂).1.trans hloop.left.extends)).ready hloop.overriden hs₁
    refine Sat.bind (elseBody_visits ihe hs₄) (fun l₅ s₅ _ he => ?_) (fun l₅ s₅ _ he => ?_)
    · have hs₅ := he.ready hs₄
      refine Sat.mono Sat.self (fun l₆ s₆ _ hz => ?_) (fun l₆ s₆ _ hz => ?_)
      · have h := Visits.forBlock hi hs₁ hf.1 hs₂ hb hs₃ hl.1 hs₄ he hs₅ hz
        simpa only [List.nil_append, List.append_assoc] using h
      · have h := Visits.forFinish hi hs₁ hf.1 hs₂ hb hs₃ hl.1 hs₄ he hs₅ hz
        simpa only [List.nil_append, List.append_assoc] using h
    · have h := Visits.forElse hi hs₁ hf.1 hs₂ hb hs₃ hl.1 hs₄ he
      simpa only [List.nil_append, List.append_assoc] using h
  · have h := Visits.forBody (e := e) hi hs₁ hf.1 hs₂ hb
    simpa only [List.nil_append, List.append_assoc] using h

/-- The run of `ast` from a state whose loop variables are counted is a visit. -/
theorem ast_visits (a : AST) : AllVisits B a := by
  induction a with
  | statements l ih => exact statements_visits ih
  | rawBlock t =>
    intro s hs
    refine Sat.mono (Sat.self.and (gives_printText (t := t) (R := fun _ => False) hs))
      (fun l s' _ h => .rawBlock h.1) (fun l s' _ h => h.2.2.2.elim)
  | printBlock e =>
    intro s hs
    refine Sat.bind Sat.self (fun l₁ s₁ v he => ?_) (fun _ _ _ he => .printThrows he)
    obtain ⟨-, g₁, hv⟩ := expression_returns hs he
    refine Sat.mono (Sat.self.and
      (gives_printValue (R := fun _ => False) (g₁.ready hs) hv.usable)) ?_ ?_
    · exact fun l₂ s₂ _ h => .printBlock he (g₁.ready hs) h.1
    · exact fun l₂ s₂ _ h => h.2.2.2.elim
  | ifBlock c t e iht ihe => exact ifBlock_visits iht ihe
  | forBlock k v i b e ihb ihe => exact forBlock_visits ihb ihe
  | includeBlock n sc M => exact fun _ => .includeBlock

end

end LLVMVisitor

/-! ## Trees that compile -/

namespace AST

mutual

/-- Nothing in the tree makes the visitor throw: values are made of its expressions, conditions
are `i1`, iterables are variants, and there is no include block. -/
def Compiles : AST → Prop
  | .statements l => CompilesList l
  | .rawBlock _ => True
  | .printBlock e => e.Generates
  | .ifBlock c t none => c.Generates ∧ c.irType = .int1 ∧ t.Compiles
  | .ifBlock c t (some e) => c.Generates ∧ c.irType = .int1 ∧ t.Compiles ∧ e.Compiles
  | .forBlock _ _ i b none => i.Generates ∧ i.irType = .variant ∧ b.Compiles
  | .forBlock _ _ i b (some e) =>
    i.Generates ∧ i.irType = .variant ∧ b.Compiles ∧ e.Compiles
  | .includeBlock .. => False

def CompilesList : List AST → Prop
  | [] => True
  | s :: l => s.Compiles ∧ CompilesList l

end

theorem compiles_ifBlock {c : Expression} {t : AST} {e : Option AST} :
    (ifBlock c t e).Compiles ↔
      c.Generates ∧ c.irType = .int1 ∧ t.Compiles ∧ (elseOf e).Compiles := by
  cases e <;> simp [Compiles, elseOf, CompilesList]

theorem compiles_forBlock {k v : Option Text} {i : Expression} {b : AST} {e : Option AST} :
    (forBlock k v i b e).Compiles ↔
      i.Generates ∧ i.irType = .variant ∧ b.Compiles ∧ (elseOf e).Compiles := by
  cases e <;> simp [Compiles, elseOf, CompilesList]

end AST

namespace LLVMVisitor

variable {B : IRBuilder}

/-- The visit returns exactly when the tree compiles. -/
theorem Visits.compiles_iff {a : AST} {s s' : Codegen} {l : List IRAction} {r : Bool}
    (h : Visits B a s l s' r) : s.Ready → (a.Compiles ↔ r = true) := by
  induction h with
  | nil => simp [AST.Compiles, AST.CompilesList]
  | cons ha hs₁ has iha ihas =>
    intro hs
    have h₁ := (iha hs).2 rfl
    have h₂ := ihas hs₁
    simp only [AST.Compiles, AST.CompilesList, h₁, true_and] at h₂ ⊢
    exact h₂
  | consThrows ha iha =>
    intro hs
    have h₁ := (iha hs).not.2 (by simp)
    simp [AST.Compiles, AST.CompilesList, h₁]
  | rawBlock h => simp [AST.Compiles]
  | printBlock he hs₁ hp =>
    intro hs
    simpa [AST.Compiles] using (expression_returns hs he).2.2.generates
  | printThrows he =>
    intro hs
    simpa [AST.Compiles] using (expression_throws hs he).2.2
  | ifBlock hc hs₁ hv ht hs₂ he iht ihe =>
    intro hs
    have hc := (expression_returns hs hc).2.2
    simp [AST.compiles_ifBlock, hc.generates, ← hc.type, hv, (iht (ready_withBlocks hs₁)).2 rfl,
      (ihe hs₂).2 rfl]
  | ifCondition hc =>
    intro hs
    simp [AST.compiles_ifBlock, (expression_throws hs hc).2.2]
  | ifType hc hv =>
    intro hs
    simp [AST.compiles_ifBlock, ← (expression_returns hs hc).2.2.type, hv]
  | ifThen hc hs₁ hv ht iht =>
    intro hs
    have h := (iht (ready_withBlocks hs₁)).not.2 (by simp)
    simp [AST.compiles_ifBlock, h]
  | ifElse hc hs₁ hv ht hs₂ he iht ihe =>
    intro hs
    have h := (ihe hs₂).not.2 (by simp)
    simp [AST.compiles_ifBlock, h]
  | forBlock hi hs₁ hf hs₂ hb hs₃ hl hs₄ he hs₅ hz ihb ihe =>
    intro hs
    have hi := (expression_returns (ready_withLoop hs) hi).2.2
    have hit := (hz.sat (finishLoop_spec hs₅)).2
    simp [AST.compiles_forBlock, hi.generates, ← hi.type, (hs₅.made hit).type, (ihb hs₂).2 rfl,
      (ihe hs₄).2 rfl]
  | forIterable hi =>
    intro hs
    simp [AST.compiles_forBlock, (expression_throws (ready_withLoop hs) hi).2.2]
  | forBody hi hs₁ hf hs₂ hb ihb =>
    intro hs
    have h := (ihb hs₂).not.2 (by simp)
    simp [AST.compiles_forBlock, h]
  | forElse hi hs₁ hf hs₂ hb hs₃ hl hs₄ he ihb ihe =>
    intro hs
    have h := (ihe hs₄).not.2 (by simp)
    simp [AST.compiles_forBlock, h]
  | forFinish hi hs₁ hf hs₂ hb hs₃ hl hs₄ he hs₅ hz ihb ihe =>
    intro hs
    have hi := (expression_returns (ready_withLoop hs) hi).2.2
    have hb := hb.frame hs₂
    have hloop := loopVisit hf hb.1 (hb.2 rfl) hs₃ hl
    obtain ⟨_, -, -, hit⟩ := hz.sat (finishLoop_spec hs₅)
    -- a counted iterable would still be counted
    have hnot : ¬_ := fun hu => hit ((he.frame hs₄).1.counted _ (hloop.left.counted _
      (hb.1.counted _ (hloop.entered.extends.counted _ hu))))
    have htype : ¬_ := mt (hi.usable.counted_iff hs₁).2 hnot
    rw [hi.type] at htype
    simp [AST.compiles_forBlock, htype]
  | includeBlock => simp [AST.Compiles]

end LLVMVisitor

/-! ## Whole functions -/

/-- Nothing of an earlier function is left: no loop variable, no count and no metadata. -/
structure Codegen.Clean (s : Codegen) : Prop where
  overriden : ∀ x, s.overridenVariables x = none
  counts : ∀ v, s.variablesRefCount v = none
  metadata : ∀ v, s.forLoopMetadata v = none

theorem Codegen.clean_fresh : Codegen.fresh.Clean := ⟨fun _ => rfl, fun _ => rfl, fun _ => rfl⟩

/-- The state in which the tree of a new function is visited. -/
def Codegen.start : Codegen := { Codegen.fresh with next := 1 }

theorem Codegen.ready_start : Codegen.start.Ready := ⟨nofun, fun h => absurd rfl h⟩

theorem Codegen.clean_start : Codegen.start.Clean := ⟨fun _ => rfl, fun _ => rfl, fun _ => rfl⟩

theorem Codegen.Clean.start {s : Codegen} (hs : s.Clean) :
    ({ s with next := 1, loops := 0 } : Codegen) = .start := by
  obtain ⟨ho, hc, hm⟩ := hs
  unfold Codegen.start Codegen.fresh
  rw [show s.overridenVariables = fun _ => none from funext ho,
    show s.variablesRefCount = fun _ => none from funext hc,
    show s.forLoopMetadata = fun _ => none from funext hm]

namespace LLVMVisitor

/-- The entry block. -/
def entryLog : List IRAction := [.createBlock 0 true, .setInsertPoint 0]

/-- The state after `functionTeardown`. -/
def tornDown (s : Codegen) : Codegen := { s with variablesRefCount := fun _ => none }

/-- A function made by a clean visitor is the entry block, the visit of its tree and, if that
returns, the return instruction. -/
theorem visit_run (B : IRBuilder) (a : AST) {s : Codegen} (hs : s.Clean) :
    ∃ l s' r, Visits B a .start l s' r ∧
      (r = true → visit B a s = ⟨entryLog ++ l ++ [.retVoid], tornDown s', .ok ()⟩) ∧
      (r = false → ∃ err, visit B a s = ⟨entryLog ++ l, s', .error err⟩) := by
  have hrun : visit B a s = Effect.Traced.andThen ⟨entryLog, .start, .ok ()⟩
      (fun _ => ast B a >>= fun _ => functionTeardown) := by
    rw [← hs.start]
    rfl
  have h := ast_visits (B := B) a Codegen.ready_start
  unfold Sat at h
  rw [hrun]
  cases ho : ast B a .start with
  | mk l s' r =>
    rw [ho] at h
    cases r with
    | ok u =>
      refine ⟨l, s', true, h, fun _ => ?_, nofun⟩
      show Effect.Traced.andThen _ (fun _ => Effect.Traced.bind (ast B a) _) = _
      simp only [Effect.Traced.andThen, Effect.Traced.bind, ho]
      rw [List.append_assoc]
      rfl
    | error err =>
      refine ⟨l, s', false, h, nofun, fun _ => ⟨err, ?_⟩⟩
      show Effect.Traced.andThen _ (fun _ => Effect.Traced.bind (ast B a) _) = _
      simp only [Effect.Traced.andThen, Effect.Traced.bind, ho]

end LLVMVisitor

end B2
