import B2.Llvm.Typing

/-!
# The parts of a for block

What `enterLoop`, `leaveLoop` and `finishLoop` write and change: the calls of the
runtime they make for the loop, the metadata they take them from, the loop
variables and their counts.
-/

namespace B2

open Effect.Traced (Sat sat_bind sat_pure sat_tell sat_get sat_modify sat_throw)
open PHPBindings LLVMVisitor
open IRAction (Quiet)

/-- A map of variables in which a loop variable has its value. -/
def bindVariable (x : Option Text) (value : Option Value) (ρ : Text → Option Value) :
    Text → Option Value :=
  match x with
  | some x => Function.update ρ x value
  | none => ρ

theorem bindVariable_apply (x : Option Text) (value : Option Value) (ρ : Text → Option Value)
    (y : Text) : bindVariable x value ρ y = if x = some y then value else ρ y := by
  cases x with
  | none => rfl
  | some x => simp only [bindVariable, Function.update_apply, Option.some.injEq, eq_comm]

theorem bindVariable_eq_some {x : Option Text} {value : Option Value} {ρ : Text → Option Value}
    {y : Text} {u : Value} (h : bindVariable x value ρ y = some u) :
    value = some u ∨ ρ y = some u := by
  rw [bindVariable_apply] at h
  split_ifs at h
  · exact .inl h
  · exact .inr h

/-- The map in the body of a loop; the value comes last. -/
def bindLoopVariables (k v : Option Text) (key value : Option Value) (ρ : Text → Option Value) :
    Text → Option Value :=
  bindVariable v value (bindVariable k key ρ)

/-- `for_block` restores what its loop variables covered. -/
theorem restore_bindLoopVariables (k v : Option Text) (key value : Option Value)
    (ρ : Text → Option Value) :
    bindLoopVariables k v (oldVariable ρ k) (oldVariable ρ v) (bindLoopVariables k v key value ρ) =
      ρ := by
  funext x
  unfold bindLoopVariables oldVariable
  simp only [bindVariable_apply]
  split_ifs with hv hk
  · rw [hv, Option.getD_some]
  · rw [hk, Option.getD_some]
  · rfl

namespace LLVMVisitor

variable {B : IRBuilder} {s : Codegen}

def withVariables (s : Codegen) (ρ : Text → Option Value) : Codegen :=
  { s with overridenVariables := ρ }

def withMetadata (s : Codegen) (it : Value) (md : Option ForLoopMetadata) : Codegen :=
  { s with forLoopMetadata := Function.update s.forLoopMetadata it md }

section

variable {E : List IRAction → Codegen → Failure → Prop}

theorem sat_setOverriden {x : Option Text} {value : Option Value}
    {Q : List IRAction → Codegen → Unit → Prop} :
    Sat (setOverriden x value) s Q E ↔
      Q [] (withVariables s (bindVariable x value s.overridenVariables)) () := by
  cases x <;> rfl

theorem sat_setForLoopMetadata {it : Value} {md : Option ForLoopMetadata}
    {Q : List IRAction → Codegen → Unit → Prop} :
    Sat (setForLoopMetadata it md) s Q E ↔ Q [] (withMetadata s it md) () := Iff.rfl

/-- What a read of the metadata of an iterable gives. -/
def readMetadata (s : Codegen) (it : Value) : ForLoopMetadata :=
  (s.forLoopMetadata it).getD ⟨.nullptr, .nullptr⟩

theorem sat_getForLoopMetadata {it : Value}
    {Q : List IRAction → Codegen → ForLoopMetadata → Prop} :
    Sat (getForLoopMetadata it) s Q E ↔
      Q [] (withMetadata s it (some (readMetadata s it))) (readMetadata s it) := by
  unfold getForLoopMetadata readMetadata
  rw [sat_bind, sat_get]
  cases h : s.forLoopMetadata it with
  | none => rfl
  | some md =>
    have heq : withMetadata s it (some md) = s := by
      rw [withMetadata, ← h, Function.update_eq_self]
    show Q [] s md ↔ Q [] (withMetadata s it (some md)) md
    rw [heq]

theorem sat_loopVariablePtr {wanted : Bool} {Q : List IRAction → Codegen → Value → Prop} :
    Sat (loopVariablePtr wanted) s Q E ↔
      if wanted then Q [.alloca s.next .variant 1] (Gen.bump s)
        (.instruction s.next (.pointer .variant))
      else Q [] s (.constant (.null (.pointer .variant))) := by
  cases wanted <;> rfl

theorem sat_loadLoopVariable {wanted : Bool} {ptr : Value} {c : Int}
    {Q : List IRAction → Codegen → Option Value → Prop} :
    Sat (loadLoopVariable wanted ptr c) s Q E ↔
      if wanted then Q [.load s.next ptr]
        (withCount (Gen.bump s) (.instruction s.next (Gen.elementType ptr.type)) c)
        (some (.instruction s.next (Gen.elementType ptr.type)))
      else Q [] s none := by
  cases wanted <;> rfl

end

/-- What `createForLoopGetVariables` leaves behind. -/
structure GotVariables (s : Codegen) (loop : Nat) (it : Value) (hasKey hasValue : Bool)
    (l : List IRAction) (s' : Codegen) (key value : Option Value) : Prop where
  next : s.next ≤ s'.next
  loops : s'.loops = s.loops
  isSome_key : key.isSome = hasKey
  isSome_value : value.isSome = hasValue
  made : ∀ u, key = some u ∨ value = some u → s.Fresh u ∧ s'.Made u
  distinct : ∀ u, key = some u → value ≠ some u
  overriden : s'.overridenVariables = s.overridenVariables
  metadata : s'.forLoopMetadata = Function.update s.forLoopMetadata it (some (readMetadata s it))
  counts : ∀ u, s'.variablesRefCount u =
    if value = some u then some (-1)
    else if key = some u then some 1 else s.variablesRefCount u
  calls : ∃ id kp vp l₁ l₂, (∀ x ∈ l₁ ++ l₂, Quiet x) ∧
    l = l₁ ++ [.call id (.forloopGetvalues loop)
      [(readMetadata s it).hashTable, (readMetadata s it).hashPosition, vp, kp]] ++ l₂

theorem getVariables_spec {loop : Nat} {it : Value} {hasKey hasValue : Bool}
    {E : List IRAction → Codegen → Failure → Prop} :
    Sat (createForLoopGetVariables loop it hasKey hasValue) s
      (fun l s' p => GotVariables s loop it hasKey hasValue l s' p.1 p.2) E := by
  unfold createForLoopGetVariables
  simp only [sat_bind, sat_pure, Gen.sat_createCall, sat_getForLoopMetadata, sat_loopVariablePtr,
    sat_loadLoopVariable]
  cases hasKey <;> cases hasValue
  all_goals
    simp only [Bool.false_eq_true, if_true, if_false, List.nil_append, List.cons_append, Gen.bump,
      withCount, withMetadata, Gen.elementType, Value.type]
    refine ⟨?_, rfl, rfl, rfl, ?_, ?_, rfl, rfl, ?_, ?_⟩
    · dsimp only
      omega
    · rintro u (h | h) <;> cases h <;> exact ⟨⟨_, by omega, rfl⟩, ⟨_, by dsimp only; omega, rfl⟩⟩
    · rintro u h h'
      cases h <;> simp at h'
    · intro u
      simp [Function.update_apply, eq_comm]
  · exact ⟨_, _, _, [], [], by simp, rfl⟩
  · exact ⟨_, _, _, [.alloca _ _ _], [.load _ _], by simp [IRAction.quiet_iff, IRAction.Fits,
      IRAction.OutsideLoops, IRAction.IsReference], rfl⟩
  · exact ⟨_, _, _, [.alloca _ _ _], [.load _ _], by simp [IRAction.quiet_iff, IRAction.Fits,
      IRAction.OutsideLoops, IRAction.IsReference], rfl⟩
  · exact ⟨_, _, _, [.alloca _ _ _, .alloca _ _ _], [.load _ _, .load _ _], by
      simp [IRAction.quiet_iff, IRAction.Fits, IRAction.OutsideLoops, IRAction.IsReference], rfl⟩

/-- What `enterLoop` leaves behind. -/
structure Entered (s : Codegen) (loop : Nat) (k v : Option Text) (it : Value)
    (l : List IRAction) (s' : Codegen) (f : LoopFrame) : Prop where
  next : s.next ≤ s'.next
  loops : s'.loops = s.loops
  isSome_key : f.keyVariable.isSome = k.isSome
  isSome_value : f.valueVariable.isSome = v.isSome
  made : ∀ u, f.keyVariable = some u ∨ f.valueVariable = some u → s.Fresh u ∧ s'.Made u
  distinct : ∀ u, f.keyVariable = some u → f.valueVariable ≠ some u
  oldKeyVariable : f.oldKeyVariable = oldVariable s.overridenVariables k
  oldValueVariable : f.oldValueVariable = oldVariable s.overridenVariables v
  overriden : s'.overridenVariables =
    bindLoopVariables k v f.keyVariable f.valueVariable s.overridenVariables
  counts : ∀ u, s'.variablesRefCount u =
    if f.valueVariable = some u then some (-1)
    else if f.keyVariable = some u then some 1 else s.variablesRefCount u
  calls : ∃ id id' pos kp vp l₁ l₂ l₃,
    s'.forLoopMetadata = Function.update s.forLoopMetadata it
      (some ⟨.instruction id .hashTable, pos⟩) ∧
    (∀ x ∈ l₁ ++ l₂ ++ l₃, Quiet x) ∧
    l = l₁ ++ [.call id (.forloopInit loop) [it, pos]] ++ l₂ ++
      [.call id' (.forloopGetvalues loop) [.instruction id .hashTable, pos, vp, kp]] ++ l₃ ++
      [.loopVariables loop f.keyVariable f.valueVariable]

/-- The block, the call and the metadata that `createForLoopInit` makes. -/
structure Initialised (s : Codegen) (loop : Nat) (it : Value) (l : List IRAction) (s' : Codegen)
    (c : Value) : Prop where
  next : s.next ≤ s'.next
  loops : s'.loops = s.loops
  overriden : s'.overridenVariables = s.overridenVariables
  counts : s'.variablesRefCount = s.variablesRefCount
  calls : ∃ id id' t size,
    s'.forLoopMetadata = Function.update s.forLoopMetadata it
      (some ⟨.instruction id .hashTable, .instruction id' (.pointer t)⟩) ∧
    l = [.alloca id' t size, .call id (.forloopInit loop) [it, .instruction id' (.pointer t)],
      .operation .isNotNull [.instruction id .hashTable] c]

theorem forLoopInit_spec {loop : Nat} {it : Value} {E : List IRAction → Codegen → Failure → Prop} :
    Sat (createForLoopInit B loop it) s (Initialised s loop it) E := by
  unfold createForLoopInit
  simp only [sat_bind, Gen.sat_createAlloca, Gen.sat_createCall, sat_setForLoopMetadata,
    Gen.sat_createOperation]
  split
  · exact ⟨by simp only [Gen.bump, withMetadata]; omega, rfl, rfl, rfl, _, _, _, _, rfl, rfl⟩
  · exact ⟨by simp only [Gen.bump, withMetadata]; omega, rfl, rfl, rfl, _, _, _, _, rfl, rfl⟩

theorem enterLoop_spec {loop : Nat} {k v : Option Text} {it : Value}
    {E : List IRAction → Codegen → Failure → Prop} :
    Sat (enterLoop B loop k v it) s (Entered s loop k v it) E := by
  unfold enterLoop
  simp only [sat_bind, Gen.sat_createBasicBlock]
  refine forLoopInit_spec.mono (fun l₁ s₁ c h₁ => ?_) (fun _ _ _ h => h)
  simp only [sat_tell, sat_get]
  refine getVariables_spec.mono (fun l₂ s₂ p h₂ => ?_) (fun _ _ _ h => h)
  obtain ⟨key, value⟩ := p
  simp only [sat_setOverriden, sat_pure]
  have hbump : s.next ≤ (Gen.bump (Gen.bump (Gen.bump s))).next := by
    simp only [Gen.bump]
    omega
  have hnext : s.next ≤ s₁.next := hbump.trans h₁.next
  refine ⟨hnext.trans h₂.next, h₂.loops.trans h₁.loops, h₂.isSome_key, h₂.isSome_value,
    fun u hu => ?_, h₂.distinct, ?_, ?_, ?_, fun u => ?_, ?_⟩
  · obtain ⟨⟨id, hid, rfl⟩, hm⟩ := h₂.made u hu
    exact ⟨⟨id, hnext.trans hid, rfl⟩, hm⟩
  · rw [h₁.overriden]
    rfl
  · rw [h₁.overriden]
    rfl
  · show bindVariable v value (bindVariable k key s₂.overridenVariables) = _
    rw [h₂.overriden, h₁.overriden]
    rfl
  · show s₂.variablesRefCount u = _
    rw [h₂.counts u, h₁.counts]
    rfl
  · obtain ⟨id, id', t, size, hmd, rfl⟩ := h₁.calls
    obtain ⟨id'', kp, vp, l₁, l₂, hq, rfl⟩ := h₂.calls
    have hread : readMetadata s₁ it = ⟨.instruction id .hashTable, .instruction id' (.pointer t)⟩ := by
      simp [readMetadata, hmd]
    refine ⟨id, id'', .instruction id' (.pointer t), kp, vp,
      [.createBlock s.next true, .createBlock (Gen.bump s).next true,
        .createBlock (Gen.bump (Gen.bump s)).next true, .alloca id' t size],
      [.operation .isNotNull [.instruction id .hashTable] c, .condBr c s.next (Gen.bump s).next,
        .setInsertPoint s.next] ++ l₁, l₂, ?_, ?_, ?_⟩
    · show s₂.forLoopMetadata = _
      rw [h₂.metadata, hread, hmd, Function.update_idem]
      rfl
    · simp only [List.forall_mem_append] at hq ⊢
      refine ⟨⟨?_, ?_, hq.1⟩, hq.2⟩
      · simp [IRAction.quiet_iff, IRAction.Fits, IRAction.OutsideLoops, IRAction.IsReference]
      · simp [IRAction.quiet_iff, IRAction.Fits, IRAction.OutsideLoops, IRAction.IsReference,
          Operation.OperandsFit, Value.type]
    · simp [hread]

/-! ## The end of the body -/

/-- What `leaveLoop` leaves behind. -/
structure Left (s : Codegen) (loop : Nat) (k v : Option Text) (it : Value) (f : LoopFrame)
    (l : List IRAction) (s' : Codegen) : Prop where
  next : s.next ≤ s'.next
  loops : s'.loops = s.loops
  overriden : s'.overridenVariables =
    bindLoopVariables k v f.oldKeyVariable f.oldValueVariable s.overridenVariables
  metadata : s'.forLoopMetadata = Function.update s.forLoopMetadata it (some (readMetadata s it))
  counted : ∀ u, s.Counted u → s'.Counted u
  made : ∀ u, s'.Counted u → s.Counted u ∨ s'.Made u
  calls : ∃ id c l₁, (∀ x ∈ l₁, Quiet x) ∧
    l = l₁ ++ [.call id (.forloopNext loop)
      [(readMetadata s it).hashTable, (readMetadata s it).hashPosition],
      .condBr c f.loopBlock f.afterLoopBlock, .setInsertPoint f.loopElseBlock]

theorem gives_destroyLoopVariable {value : Option Value} {R : Codegen → Prop} (hs : s.Ready)
    (hv : ∀ u, value = some u → s.Counted u) :
    Gives Quiet (destroyLoopVariable value) s (fun _ _ => True) R := by
  cases value with
  | none => exact Gives.pure trivial
  | some u => exact gives_outOfScope hs (hv u rfl)

theorem leaveLoop_spec {loop : Nat} {k v : Option Text} {it : Value} {f : LoopFrame}
    {E : List IRAction → Codegen → Failure → Prop} (hs : s.Ready)
    (hf : ∀ u, f.keyVariable = some u ∨ f.valueVariable = some u → s.Counted u) :
    Sat (leaveLoop loop k v it f) s (fun l s' _ => Left s loop k v it f l s') E := by
  have hkey : Gives Quiet (destroyLoopVariable f.keyVariable) s (fun _ _ => True)
      (fun _ => False) := gives_destroyLoopVariable hs fun u hu => hf u (.inl hu)
  unfold leaveLoop
  refine Sat.bind hkey ?_ (fun _ _ _ h => h.2.2.elim)
  rintro l₁ s₁ - ⟨hq₁, g₁, -⟩
  have hvalue : Gives Quiet (destroyLoopVariable f.valueVariable) s₁ (fun _ _ => True)
      (fun _ => False) :=
    gives_destroyLoopVariable (g₁.ready hs) fun u hu => g₁.counted u (hf u (.inr hu))
  refine Sat.bind hvalue ?_ (fun _ _ _ h => h.2.2.elim)
  rintro l₂ s₂ - ⟨hq₂, g₂, -⟩
  have g := g₁.trans g₂
  unfold createForLoopNextIteration
  simp only [sat_bind, sat_tell, sat_setOverriden, sat_getForLoopMetadata, Gen.sat_createCall]
  have hread : readMetadata (withVariables (withVariables s₂ (bindVariable k f.oldKeyVariable
      s₂.overridenVariables)) (bindVariable v f.oldValueVariable (withVariables s₂
      (bindVariable k f.oldKeyVariable s₂.overridenVariables)).overridenVariables)) it =
      readMetadata s it := by
    show (s₂.forLoopMetadata it).getD _ = _
    rw [g.metadata]
    rfl
  rw [hread]
  refine ⟨g.next.trans (Nat.le_succ _), g.loops, ?_, ?_, g.counted, fun u hu => ?_, ?_⟩
  · show bindVariable v _ (bindVariable k _ s₂.overridenVariables) = _
    rw [g.overriden]
    rfl
  · show Function.update s₂.forLoopMetadata it _ = _
    rw [g.metadata]
  · exact (g.made u hu).imp_right fun h => h.mono (Nat.le_succ _)
  · refine ⟨s₂.next, .instruction s₂.next .int1, l₁ ++ l₂, ?_, ?_⟩
    · simpa only [List.forall_mem_append] using ⟨hq₁, hq₂⟩
    · exact (List.append_assoc l₁ l₂ _).symm

/-! ## The end of the block -/

/-- After the else body the iterable goes out of scope; it has to be counted. -/
structure Finished (s : Codegen) (it : Value) (f : LoopFrame) (l : List IRAction)
    (s' : Codegen) : Prop where
  next : s.next ≤ s'.next
  loops : s'.loops = s.loops
  overriden : s'.overridenVariables = s.overridenVariables
  metadata : s'.forLoopMetadata = Function.update s.forLoopMetadata it none
  counted : ∀ u, s.Counted u → s'.Counted u
  made : ∀ u, s'.Counted u → s.Counted u ∨ s'.Made u
  calls : ∃ l₁, (∀ x ∈ l₁, Quiet x) ∧
    l = [.br f.afterLoopBlock, .setInsertPoint f.afterLoopBlock] ++ l₁

theorem finishLoop_spec {it : Value} {f : LoopFrame} (hs : s.Ready) :
    Sat (finishLoop it f) s (fun l s' _ => Finished s it f l s' ∧ s.Counted it)
      (fun l s' _ => Finished s it f l s' ∧ s'.variablesRefCount = s.variablesRefCount ∧
        ¬s.Counted it) := by
  unfold finishLoop createForLoopCleanup
  simp only [sat_bind, sat_tell, sat_setForLoopMetadata]
  have hs' : (withMetadata s it none).Ready := ⟨hs.overriden, hs.made⟩
  by_cases hc : s.Counted it
  · have h : Gives Quiet (variableGoesOutOfScope it) (withMetadata s it none) (fun _ _ => True)
        (fun _ => False) := gives_outOfScope hs' hc
    refine Sat.mono h ?_ (fun _ _ _ h => h.2.2.elim)
    rintro l s' - ⟨hq, g, -⟩
    exact ⟨⟨g.next, g.loops, g.overriden, g.metadata, g.counted, g.made, l, hq, rfl⟩, hc⟩
  · have h : Gives Quiet (variableGoesOutOfScope it) (withMetadata s it none) (fun _ _ => False)
        (· = withMetadata s it none) := gives_outOfScope_error hc
    refine Sat.mono h (fun _ _ _ h => h.2.2.elim) ?_
    rintro l s' - ⟨hq, g, rfl⟩
    exact ⟨⟨g.next, g.loops, g.overriden, g.metadata, g.counted, g.made, l, hq, rfl⟩, rfl, hc⟩

end LLVMVisitor

end B2
