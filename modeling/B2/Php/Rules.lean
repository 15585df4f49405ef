import B2.Llvm.Rules

/-!
# Rules for the bindings

What the calls of the bindings make of a state in which the variants are counted
(`Codegen.Ready`). The calls of a for block change its metadata and are left to
the visitor's `enterLoop`, `leaveLoop` and `finishLoop`.
-/

namespace B2

open Effect.Traced (Sat sat_bind sat_pure sat_tell sat_get sat_modify sat_throw)

namespace PHPBindings

open IRAction (Quiet)

variable {B : IRBuilder} {s : Codegen} {R : Codegen → Prop}

theorem quiet_call {id : Nat} {f : RuntimeFunction} {args : List Value} (h : f.loop? = none) :
    Quiet (.call id f args) := ⟨trivial, h, not_false⟩

def withCount (s : Codegen) (v : Value) (c : Int) : Codegen :=
  { s with variablesRefCount := Function.update s.variablesRefCount v c }

theorem sat_outOfScope {v : Value} {Q : List IRAction → Codegen → Unit → Prop}
    {E : List IRAction → Codegen → Failure → Prop} :
    Sat (variableGoesOutOfScope v) s Q E ↔
      match s.variablesRefCount v with
      | none => E [] s missingRefCount
      | some c =>
        if c = -1 then Q [] s ()
        else if c - 1 = 0 then
          Q [.call s.next .destructZval [v]] (Gen.bump (withCount s v (c - 1))) ()
        else Q [] (withCount s v (c - 1)) () := by
  unfold variableGoesOutOfScope
  rw [sat_bind, sat_get]
  cases s.variablesRefCount v with
  | none => rfl
  | some c =>
    simp only
    split
    · rfl
    · split <;> rfl

theorem sat_newReference {v : Value} {Q : List IRAction → Codegen → Value → Prop}
    {E : List IRAction → Codegen → Failure → Prop} :
    Sat (getNewReferenceForVariable v) s Q E ↔
      match s.variablesRefCount v with
      | none => E [] s missingRefCount
      | some c => if c = -1 then Q [] s v else Q [] (withCount s v (c + 1)) v := by
  unfold getNewReferenceForVariable
  rw [sat_bind, sat_get]
  cases s.variablesRefCount v with
  | none => rfl
  | some c =>
    by_cases h : c = -1
    · subst h
      rfl
    · simp only [ne_eq, h, not_false_eq_true, if_true, if_false]
      rfl

theorem grows_withCount {v : Value} {c : Int} (hv : s.Made v) : s.Grows (withCount s v c) := by
  refine ⟨le_rfl, rfl, rfl, rfl, fun u hu => ?_, fun u hu => ?_⟩
  · unfold Codegen.Counted withCount at *
    rcases eq_or_ne u v with rfl | h
    · simp
    · simpa [Function.update_of_ne h] using hu
  · rcases eq_or_ne u v with rfl | h
    · exact .inr hv
    · exact .inl (by simpa [Codegen.Counted, withCount, Function.update_of_ne h] using hu)

theorem counted_withCount {v : Value} {c : Int} : (withCount s v c).Counted v := by
  simp [Codegen.Counted, withCount]

theorem gives_setRefCount {A : IRAction → Prop} {v : Value} {c : Int} (hv : s.Made v) :
    Gives A (setRefCount v c) s (fun s' _ => s'.Counted v) R := by
  unfold Gives setRefCount
  rw [sat_modify]
  exact ⟨by simp, grows_withCount hv, counted_withCount⟩

/-- A variant that is counted can go out of scope. -/
theorem gives_outOfScope {v : Value} (hs : s.Ready) (hv : s.Counted v) :
    Gives Quiet (variableGoesOutOfScope v) s (fun _ _ => True) R := by
  unfold Gives
  rw [sat_outOfScope]
  cases hc : s.variablesRefCount v with
  | none => exact absurd hc hv
  | some c =>
    have hw : s.Grows (withCount s v (c - 1)) := grows_withCount (hs.made hv)
    simp only
    split
    · exact ⟨by simp, .refl s, trivial⟩
    · split
      · exact ⟨by simpa using quiet_call rfl, hw.trans (Gen.grows_bump _), trivial⟩
      · exact ⟨by simp, hw, trivial⟩

/-- A value that is not counted cannot. -/
theorem gives_outOfScope_error {v : Value} (hv : ¬s.Counted v) :
    Gives Quiet (variableGoesOutOfScope v) s (fun _ _ => False) (· = s) := by
  unfold Gives
  rw [sat_outOfScope, not_not.1 hv]
  exact ⟨by simp, .refl s, rfl⟩

theorem gives_newReference {v : Value} (hs : s.Ready) (hv : s.Counted v) :
    Gives Quiet (getNewReferenceForVariable v) s (fun _ u => u = v) R := by
  unfold Gives
  rw [sat_newReference]
  cases hc : s.variablesRefCount v with
  | none => exact absurd hc hv
  | some c =>
    simp only
    split
    · exact ⟨by simp, .refl s, trivial⟩
    · exact ⟨by simp, grows_withCount (hs.made hv), trivial⟩

theorem isVariantType_iff {t : IRType} : isVariantType t = true ↔ t = .variant := beq_iff_eq

/-- The wrapping function, found for every scalar. -/
theorem gives_wrappingFunction {t : IRType} (ht : t.IsScalar) :
    Gives Quiet (getWrappingFunction t) s (fun _ f => f.loop? = none) R := by
  rcases ht with rfl | rfl | rfl | rfl <;> exact Gives.pure rfl

theorem gives_printMethod {t : IRType} (ht : t.IsScalar ∨ t = .variant) :
    Gives Quiet (getPrintMethodForType t) s (fun _ f => f.loop? = none) R := by
  rcases ht with (rfl | rfl | rfl | rfl) | rfl <;> exact Gives.pure rfl

theorem gives_printCall {v : Value} (hs : s.Ready) (hv : s.Usable v) :
    Gives Quiet (createPrintCall v) s (fun _ _ => True) R := by
  unfold createPrintCall
  refine (gives_printMethod (hv.imp_right fun h => (hs.made h).type)).seq fun s₁ f _ hf => ?_
  exact (Gen.gives_call (quiet_call hf)).mono (fun _ h => h) (fun _ _ _ _ => trivial)
    fun _ _ h => h

theorem gives_wrapAsVariant {v : Value} (hv : v.type.IsScalar) :
    Gives Quiet (wrapAsVariant v) s (fun s' u => s'.Counted u) R := by
  unfold wrapAsVariant
  rw [if_neg (by simpa only [isVariantType_iff] using hv.ne_variant)]
  refine (gives_wrappingFunction hv).seq fun s₁ f _ hf => ?_
  refine (Gen.gives_alloca ⟨trivial, trivial, not_false⟩).seq ?_
  rintro s₂ _ _ ⟨id, -, hid, rfl⟩
  refine (Gen.gives_call (quiet_call hf)).seq fun s₃ _ g₃ _ => ?_
  have hz : s₃.Made (.instruction id (.pointer (.struct .zval))) :=
    Codegen.Made.mono ⟨id, hid, rfl⟩ g₃.next
  exact (gives_setRefCount hz).seq fun s₄ _ _ h => Gives.pure h

theorem gives_asVariant {v : Value} (hs : s.Ready) (hv : s.Usable v) :
    Gives Quiet (asVariant v) s (fun s' u => s'.Counted u) R := by
  unfold asVariant
  simp only [isVariantType_iff]
  split
  · rename_i h
    exact Gives.pure ((hv.counted_iff hs).2 h)
  · rename_i h
    refine gives_wrapAsVariant (hv.resolve_right ?_)
    rwa [hv.counted_iff hs]

theorem gives_retVoidIfCallFails {v : Value} :
    Gives Quiet (createRetVoidIfCallFails v) s (fun _ _ => True) R := by
  unfold createRetVoidIfCallFails
  refine (Gen.gives_basicBlock ⟨trivial, trivial, not_false⟩).seq fun s₁ success _ _ => ?_
  refine (Gen.gives_basicBlock ⟨trivial, trivial, not_false⟩).seq fun s₂ fail _ _ => ?_
  refine (Gen.gives_tell ⟨trivial, trivial, not_false⟩).seq fun s₃ _ _ _ => ?_
  refine (Gen.gives_tell ⟨trivial, trivial, not_false⟩).seq fun s₄ _ _ _ => ?_
  refine (Gen.gives_tell ⟨trivial, trivial, not_false⟩).seq fun s₅ _ _ _ => ?_
  exact Gen.gives_tell ⟨trivial, trivial, not_false⟩

theorem gives_variantComparison {op : ComparisonOperation} {left right : Value} (hs : s.Ready)
    (hl : s.Usable left) (hr : s.Usable right) :
    Gives Quiet (createVariantComparison B op left right) s (fun _ v => v.type = .int1) R := by
  unfold createVariantComparison
  refine (gives_asVariant hs hl).seq fun s₁ l g₁ hl => ?_
  refine (gives_asVariant (g₁.ready hs) (hr.mono g₁)).seq fun s₂ r g₂ hr => ?_
  refine (Gen.gives_alloca ⟨trivial, trivial, not_false⟩).seq ?_
  rintro s₃ _ g₃ ⟨id, -, -, rfl⟩
  refine (Gen.gives_call (quiet_call rfl)).seq fun s₄ c g₄ _ => ?_
  refine gives_retVoidIfCallFails.seq fun s₅ _ g₅ _ => ?_
  refine (Gen.gives_load ⟨trivial, trivial, not_false⟩).seq ?_
  rintro s₆ _ g₆ ⟨id', -, -, rfl⟩
  have hfits : ∀ v, Quiet (.operation .trunc [.instruction id' (.integer 8)] v) :=
    fun v => ⟨⟨8, rfl⟩, trivial, not_false⟩
  refine (Gen.gives_operation hfits).seq fun s₇ v g₇ hv => ?_
  have g : s₂.Grows s₇ := g₃.trans (g₄.trans (g₅.trans (g₆.trans g₇)))
  have hs₇ : s₇.Ready := g.ready (g₂.ready (g₁.ready hs))
  refine (gives_outOfScope hs₇ (g.counted _ (g₂.counted _ hl))).seq fun s₈ _ g₈ _ => ?_
  refine (gives_outOfScope (g₈.ready hs₇) (g₈.counted _ (g.counted _ hr))).seq
    fun s₉ _ _ _ => Gives.pure ?_
  exact hv

/-- The call, its check and the load of its result that an operation on variants ends with. -/
theorem gives_variantResult {f : RuntimeFunction} {args : Value → List Value}
    (hf : f.loop? = none) {α : Type} {k : Value → Gen α} {P : Codegen → α → Prop}
    (hk : ∀ s' v, s.Grows s' → s'.Counted v → s.Fresh v → Gives Quiet (k v) s' P R) :
    Gives Quiet (do
      let ptrToResult ← Gen.createAlloca .variant 1
      let callResult ← Gen.createCall f (args ptrToResult)
      createRetVoidIfCallFails callResult
      let value ← Gen.createLoad ptrToResult
      setRefCount value 1
      k value) s P R := by
  refine (Gen.gives_alloca ⟨trivial, trivial, not_false⟩).seq ?_
  rintro s₁ _ g₁ ⟨id, -, -, rfl⟩
  refine (Gen.gives_call (quiet_call hf)).seq fun s₂ c g₂ _ => ?_
  refine gives_retVoidIfCallFails.seq fun s₃ _ g₃ _ => ?_
  refine (Gen.gives_load ⟨trivial, trivial, not_false⟩).seq ?_
  rintro s₄ _ g₄ ⟨id', hid, hid', rfl⟩
  refine (gives_setRefCount ⟨id', hid', rfl⟩).seq fun s₅ _ g₅ hv => ?_
  have g : s.Grows s₃ := g₁.trans (g₂.trans g₃)
  exact hk s₅ _ (g.trans (g₄.trans g₅)) hv ⟨id', g.next.trans hid, rfl⟩

theorem gives_variantBinaryOperation {op : BinaryOperation} {left right : Value} (hs : s.Ready)
    (hl : s.Usable left) (hr : s.Usable right) :
    Gives Quiet (createVariantBinaryOperation op left right) s
      (fun s' v => s'.Counted v ∧ s.Fresh v) R := by
  unfold createVariantBinaryOperation
  refine (gives_asVariant hs hl).seq fun s₁ l g₁ hl => ?_
  refine (gives_asVariant (g₁.ready hs) (hr.mono g₁)).seq fun s₂ r g₂ hr => ?_
  have hs₂ : s₂.Ready := g₂.ready (g₁.ready hs)
  refine gives_variantResult rfl fun s₃ v g₃ hv hf => ?_
  refine (gives_outOfScope (g₃.ready hs₂) (g₃.counted _ (g₂.counted _ hl))).seq
    fun s₄ _ g₄ _ => ?_
  refine (gives_outOfScope (g₄.ready (g₃.ready hs₂)) (g₄.counted _ (g₃.counted _ hr))).seq
    fun s₅ _ g₅ _ => Gives.pure ?_
  exact ⟨g₅.counted _ (g₄.counted _ hv), hf.mono (g₁.trans g₂)⟩

theorem gives_variantUnaryOperation {op : UnaryOperation} {v : Value} (hs : s.Ready)
    (hv : s.Usable v) :
    Gives Quiet (createVariantUnaryOperation op v) s
      (fun s' u => s'.Counted u ∧ s.Fresh u) R := by
  unfold createVariantUnaryOperation
  refine (gives_asVariant hs hv).seq fun s₁ v g₁ hv => ?_
  refine gives_variantResult rfl fun s₂ u g₂ hu hf => ?_
  refine (gives_outOfScope (g₂.ready (g₁.ready hs)) (g₂.counted _ hv)).seq
    fun s₃ _ g₃ _ => Gives.pure ?_
  exact ⟨g₃.counted _ hu, hf.mono g₁⟩

/-- The variant that a call of the runtime returns. -/
theorem gives_calledVariant {f : RuntimeFunction} {args : List Value} {c : Int}
    (hf : f.loop? = none) (hv : f.returnType = .variant) {α : Type} {k : Value → Gen α}
    {P : Codegen → α → Prop}
    (hk : ∀ s' v, s.Grows s' → s'.Counted v → s.Fresh v → Gives Quiet (k v) s' P R) :
    Gives Quiet (do
      let value ← Gen.createCall f args
      setRefCount value c
      k value) s P R := by
  refine (Gen.gives_call (quiet_call hf)).seq ?_
  rintro s₁ _ g₁ ⟨id, hid, hid', rfl⟩
  rw [hv]
  refine (gives_setRefCount ⟨id, hid', rfl⟩).seq fun s₂ _ g₂ hv => ?_
  exact hk s₂ _ (g₁.trans g₂) hv ⟨id, hid, rfl⟩

theorem gives_variableLookup {x : Text} :
    Gives Quiet (createVariableLookup x) s (fun s' v => s'.Counted v ∧ s.Fresh v) R := by
  unfold createVariableLookup
  refine Gen.gives_globalStringPtr.seq fun s₁ _ g₁ _ => ?_
  exact gives_calledVariant rfl rfl fun s₂ v _ hv hf => Gives.pure ⟨hv, hf.mono g₁⟩

theorem gives_getAttribute {a : Text} {v : Value} (hs : s.Ready) (hv : s.Counted v) :
    Gives Quiet (createGetAttribute a v) s (fun s' u => s'.Counted u ∧ s.Fresh u) R := by
  unfold createGetAttribute
  refine Gen.gives_globalStringPtr.seq fun s₁ _ g₁ _ => ?_
  refine gives_calledVariant rfl rfl fun s₂ u g₂ hu hf => ?_
  have hs₂ : s₂.Ready := g₂.ready (g₁.ready hs)
  refine (gives_outOfScope hs₂ (g₂.counted _ (g₁.counted _ hv))).seq
    fun s₃ _ g₃ _ => Gives.pure ?_
  exact ⟨g₃.counted _ hu, hf.mono g₁⟩

/-- The attribute of a scalar: the call throws, after its result is counted. -/
theorem gives_getAttribute_error {a : Text} {v : Value} (hs : s.Ready) (hv : v.type.IsScalar) :
    Gives Quiet (createGetAttribute a v) s (fun _ _ => False) (fun s' => ∃ u, s'.Counted u) := by
  unfold createGetAttribute
  refine Gen.gives_globalStringPtr.seq fun s₁ _ g₁ _ => ?_
  refine gives_calledVariant rfl rfl fun s₂ u g₂ hu _ => ?_
  have hv₂ : ¬s₂.Counted v := fun h => hv.ne_variant ((g₂.ready (g₁.ready hs)).made h).type
  refine (gives_outOfScope_error hv₂).bind (fun _ _ _ => False.elim) ?_
  rintro _ _ rfl
  exact ⟨u, hu⟩

theorem gives_storeArguments {array : Value} : ∀ {arguments : List Value} {index : Nat}
    {s : Codegen}, s.Ready → (∀ v ∈ arguments, s.Usable v) →
      Gives Quiet (storeArguments array index arguments) s (fun s' vs => ∀ v ∈ vs, s'.Counted v) R
  | [], _, _, _, _ => Gives.pure (by simp)
  | v :: arguments, index, s, hs, hv => by
    rw [List.forall_mem_cons] at hv
    unfold storeArguments
    refine (Gen.gives_inBoundsGEP ⟨trivial, trivial, not_false⟩).seq fun s₁ ptr g₁ _ => ?_
    have hrest : ∀ {s'}, s₁.Grows s' → s'.Ready ∧ ∀ v ∈ arguments, s'.Usable v := fun g =>
      ⟨g.ready (g₁.ready hs), fun u hu => (hv.2 u hu).mono (g₁.trans g)⟩
    split
    · refine (Gen.gives_tell ⟨trivial, trivial, not_false⟩).seq fun s₂ _ g₂ _ => ?_
      exact gives_storeArguments (hrest g₂).1 (hrest g₂).2
    · rename_i h
      rw [isVariantType_iff, ← hv.1.counted_iff hs] at h
      refine (gives_wrapAsVariant (hv.1.resolve_right h)).seq fun s₂ u g₂ hu => ?_
      refine (Gen.gives_tell ⟨trivial, trivial, not_false⟩).seq fun s₃ _ g₃ _ => ?_
      refine (gives_storeArguments (hrest (g₂.trans g₃)).1 (hrest (g₂.trans g₃)).2).seq
        fun s₄ vs g₄ hvs => Gives.pure ?_
      exact List.forall_mem_cons.2 ⟨g₄.counted _ (g₃.counted _ hu), hvs⟩

theorem gives_createArguments {arguments : List Value} (hs : s.Ready)
    (hv : ∀ v ∈ arguments, s.Usable v) :
    Gives Quiet (createArguments arguments) s (fun s' p => ∀ v ∈ p.2, s'.Counted v) R := by
  unfold createArguments
  split
  · refine (Gen.gives_alloca ⟨trivial, trivial, not_false⟩).seq fun s₁ array g₁ _ => ?_
    refine (gives_storeArguments (g₁.ready hs) fun v h => (hv v h).mono g₁).seq
      fun s₂ vs _ hvs => Gives.pure ?_
    exact hvs
  · exact Gives.pure (by simp)

theorem gives_destroyValues : ∀ {vs : List Value} {s : Codegen}, s.Ready →
    (∀ v ∈ vs, s.Counted v) → Gives Quiet (destroyValues vs) s (fun _ _ => True) R
  | [], _, _, _ => Gives.pure trivial
  | v :: vs, s, hs, hv => by
    rw [List.forall_mem_cons] at hv
    unfold destroyValues
    refine (gives_outOfScope hs hv.1).seq fun s₁ _ g₁ _ => ?_
    exact gives_destroyValues (g₁.ready hs) fun u hu => g₁.counted _ (hv.2 u hu)

theorem gives_methodCall {m : Text} {arguments : List Value} (hs : s.Ready)
    (hv : ∀ v ∈ arguments, s.Usable v) :
    Gives Quiet (createMethodCall B m arguments) s (fun s' v => s'.Counted v ∧ s.Fresh v) R := by
  unfold createMethodCall
  refine (gives_createArguments hs hv).seq ?_
  rintro s₁ ⟨array, vs⟩ g₁ hvs
  refine Gen.gives_globalStringPtr.seq fun s₂ name g₂ _ => ?_
  refine gives_calledVariant rfl rfl fun s₃ v g₃ hv hf => ?_
  have hs₃ : s₃.Ready := g₃.ready (g₂.ready (g₁.ready hs))
  refine (gives_destroyValues hs₃ fun u hu => g₃.counted _ (g₂.counted _ (hvs u hu))).seq
    fun s₄ _ g₄ _ => ?_
  have hfits : ∀ u, Quiet (.operation .isNotNull [v] u) := fun u =>
    ⟨⟨.struct .zval, by simp [(hs₃.made hv).type]⟩, trivial, not_false⟩
  refine (Gen.gives_operation hfits).seq fun s₅ _ g₅ _ => ?_
  refine gives_retVoidIfCallFails.seq fun s₆ _ g₆ _ => Gives.pure ?_
  exact ⟨g₆.counted _ (g₅.counted _ (g₄.counted _ hv)), hf.mono (g₁.trans g₂)⟩

end PHPBindings

end B2
