import B2.Llvm.Balance

/-!
# References in expressions

What every call of the bindings and every expression adds to the references
(`Segment`). An expression adds one reference to its value if it owns that; an
operation and an attribute give theirs back, but a method call keeps those of
its arguments.
-/

namespace B2

open Effect.Traced (Sat Returns returns_bind sat_bind sat_pure sat_tell sat_modify)
open PHPBindings LLVMVisitor

namespace PHPBindings

variable {B : IRBuilder} {s : Codegen}

open Codegen (Balance Segment Readable hold)

/-- A variant that goes out of scope gives back a reference. -/
theorem segment_outOfScope {v : Value} (hs : s.Ready) (hv : s.Counted v)
    (hr : hold s v ≤ s.references) :
    Sat (variableGoesOutOfScope v) s (fun l s' _ => Segment s l s' (-hold s v))
      (fun _ _ _ => False) := by
  rw [sat_outOfScope]
  cases hc : s.variablesRefCount v with
  | none => exact hv hc
  | some c =>
    simp only
    split_ifs with hne hz
    · have : hold s v = 0 := Codegen.hold_eq_zero.2 fun ⟨c', hc', hne'⟩ => by
        rw [hc] at hc'
        cases hc'
        exact hne' hne
      rw [this, neg_zero]
      exact Codegen.segment_skip hs rfl id le_rfl
    all_goals
      have ho : s.Owned v := ⟨c, hc, hne⟩
      have hone : 1 ≤ c := by
        have := hr v
        rwa [hold, if_pos ho, Pi.single_eq_same, Codegen.references_of_owned hc hne] at this
      rw [Codegen.hold_of_owned ho, ← Pi.single_neg]
    · obtain rfl : c = 1 := by omega
      exact Codegen.segment_destroy hs hc
    · exact Codegen.segment_withCount (d := -1) hs hc (by omega) (by omega)

/-- A new reference to a variant that is not destroyed yet. -/
theorem segment_newReference {v : Value} (hs : s.Ready) (hv : s.Counted v)
    (hheld : s.Owned v → 0 < s.references v) :
    Sat (getNewReferenceForVariable v) s (fun l s' u => u = v ∧ Segment s l s' (hold s v))
      (fun _ _ _ => False) := by
  rw [sat_newReference]
  cases hc : s.variablesRefCount v with
  | none => exact hv hc
  | some c =>
    simp only
    split_ifs with hne
    · have : hold s v = 0 := Codegen.hold_eq_zero.2 fun ⟨c', hc', hne'⟩ => by
        rw [hc] at hc'
        cases hc'
        exact hne' hne
      rw [this]
      exact ⟨trivial, Codegen.segment_skip hs rfl id le_rfl⟩
    · have ho : s.Owned v := ⟨c, hc, hne⟩
      have hpos := hheld ho
      rw [Codegen.references_of_owned hc hne] at hpos
      rw [Codegen.hold_of_owned ho]
      exact ⟨trivial, Codegen.segment_withCount hs hc hpos (by omega)⟩

/-- Two operands that go out of scope. -/
theorem segment_operands {left right v : Value} (hs : s.Ready) (hl : s.Counted left)
    (hr : s.Counted right) (h : hold s left + hold s right ≤ s.references) :
    Sat (do
      variableGoesOutOfScope left
      variableGoesOutOfScope right
      return v) s
      (fun l s' u => u = v ∧ Segment s l s' (-(hold s left + hold s right)))
      (fun _ _ _ => False) := by
  have hle : hold s left ≤ s.references := le_trans (le_add_of_nonneg_right (s.hold_nonneg _)) h
  have h₁ := (segment_outOfScope hs hl hle).and (gives_outOfScope (R := fun _ => False) hs hl)
  refine Sat.bind h₁ ?_ (fun _ _ _ h => h.1)
  rintro l₁ s₁ - ⟨b₁, -, g₁, -⟩
  have hs₁ := g₁.ready hs
  have hhold : hold s₁ right = hold s right := b₁.hold hs₁ (.inr hr)
  have hle₁ : hold s₁ right ≤ s₁.references := by
    rw [hhold, b₁.references]
    exact (le_sub_iff_add_le'.2 h).trans_eq (sub_eq_add_neg _ _)
  refine Sat.bind (segment_outOfScope hs₁ (g₁.counted _ hr) hle₁) ?_ (fun _ _ _ h => h)
  rintro l₂ s₂ - b₂
  rw [sat_pure, List.append_nil]
  refine ⟨rfl, (b₁.trans b₂).congr ?_⟩
  rw [hhold, neg_add]

/-! ### Wrapped values -/

theorem segment_wrap {v : Value} (hs : s.Ready) (hv : v.type.IsScalar) :
    Segment s (wrapLog s v) (withWrapped s) 0 := by
  have hcall : ∀ p, (IRAction.call (s.next + 1) (wrapperOf v.type) [p, v]).Idle ∧
      (IRAction.call (s.next + 1) (wrapperOf v.type) [p, v]).destroyed = none ∧
      (wrapperOf v.type).returnType = .void := by
    intro p
    unfold wrapperOf
    split_ifs <;> exact ⟨IRAction.idle_call rfl (by decide), rfl, rfl⟩
  have hidle : ∀ x ∈ wrapLog s v, x.Idle := by
    exact List.forall_mem_cons.2 ⟨IRAction.Silent.idle trivial,
      List.forall_mem_singleton.2 (hcall _).1⟩
  refine Codegen.segment_newCount (o := none) hs ⟨_, le_rfl, rfl⟩ rfl (.inl ⟨rfl, rfl⟩) rfl
    (Nat.le_add_right _ 2) ?_ (ownSlots_of_idle hidle)
    (fun u => iff_of_false (not_acquired_of_idle hidle) (by simp)) (by simp)
    ⟨_, Php.wrote_wrapCode, (Codegen.straight_op _).seq (Codegen.straight_op _)⟩
  refine List.forall_mem_cons.2 ⟨Codegen.uses_of_silent trivial,
    List.forall_mem_singleton.2 ?_⟩
  refine ⟨fun u hu => ?_, fun u hu => ?_, (hcall _).2.1⟩
  · rw [IRAction.result, (hcall (wrapped s)).2.2] at hu
    cases hu
    exact ⟨Nat.le_succ _, Nat.lt_succ_self _⟩
  · rcases List.mem_cons.1 hu with rfl | hu
    · exact .inr ⟨le_rfl, Nat.lt_add_of_pos_right Nat.two_pos⟩
    · rw [List.mem_singleton.1 hu]
      exact .inl (Codegen.readable_of_type hv.ne_variant)

theorem segment_asVariant {v : Value} (hs : s.Ready) (hv : s.Usable v) :
    Sat (asVariant v) s
      (fun l s' u => Segment s l s' 0 ∧ s.Grows s' ∧ s'.Counted u ∧ hold s' u = hold s v)
      (fun _ _ _ => False) := by
  have hg := gives_asVariant (R := fun _ => False) hs hv
  rw [Gives, sat_asVariant hs hv] at hg
  rw [sat_asVariant hs hv]
  split_ifs at hg ⊢ with h
  · exact ⟨Codegen.segment_skip hs rfl id le_rfl, .refl s, hg.2.2, rfl⟩
  · have hscalar := hv.resolve_right ((hv.counted_iff hs).not.2 h)
    refine ⟨segment_wrap hs hscalar, hg.2.1, hg.2.2, ?_⟩
    rw [Codegen.hold_eq_zero.2, Codegen.hold_eq_zero.2]
    · exact fun ho => h (hs.made ho.counted).type
    · rintro ⟨c, hc, hne⟩
      refine hne ?_
      simpa [withWrapped, withCount, eq_comm] using hc

/-- The operands of an operation, wrapped if need be, may be used. -/
theorem segment_asVariants {α : Type} {left right : Value} {k : Value → Value → Gen α}
    {Q : List IRAction → Codegen → α → Prop} (hs : s.Ready) (hl : s.Usable left)
    (hr : s.Usable right) (h : hold s left + hold s right ≤ s.references)
    (hk : ∀ L s' l r, s'.Ready → Segment s L s' 0 → s'.Counted l → s'.Counted r →
      s'.Readable l → s'.Readable r → hold s' l = hold s left → hold s' r = hold s right →
      Sat (k l r) s' (fun L' s'' a => Q (L ++ L') s'' a) fun _ _ _ => False) :
    Sat (do
      let left ← asVariant left
      let right ← asVariant right
      k left right) s Q fun _ _ _ => False := by
  refine Sat.bind (segment_asVariant hs hl) ?_ (fun _ _ _ h => h)
  rintro L₁ s₁ l ⟨b₁, g₁, hcl, hhl⟩
  refine Sat.bind (segment_asVariant (g₁.ready hs) (hr.mono g₁)) ?_ (fun _ _ _ h => h)
  rintro L₂ s₂ r ⟨b₂, g₂, hcr, hhr⟩
  have hs₂ := g₂.ready (g₁.ready hs)
  have b := b₁.before b₂
  have hhl₂ : hold s₂ l = hold s left := (b₂.hold hs₂ (.inr hcl)).trans hhl
  have hhr₂ : hold s₂ r = hold s right := hhr.trans (b₁.hold (g₁.ready hs) hr)
  have hrefs : s₂.references = s.references := b.references.trans (add_zero _)
  have hreadl : s₂.Readable l := by
    refine Codegen.Usable.readable hs₂ (.inr (g₂.counted _ hcl)) ?_
    rw [hhl₂, hrefs]
    exact (le_add_of_nonneg_right (s.hold_nonneg _)).trans h
  have hreadr : s₂.Readable r := by
    refine Codegen.Usable.readable hs₂ (.inr hcr) ?_
    rw [hhr₂, hrefs]
    exact (le_add_of_nonneg_left (s.hold_nonneg _)).trans h
  have := hk (L₁ ++ L₂) s₂ l r hs₂ b (g₂.counted _ hcl) hcr hreadl hreadr hhl₂ hhr₂
  simpa only [List.append_assoc] using this

/-! ### Results -/

section

variable {f : RuntimeFunction} {args : Value → List Value}

/-- The pointer that the call of an operation on variants gets for its result. -/
def resultPointer (s : Codegen) : Value := .instruction s.next (.pointer .variant)

/-- Of the actions of an operation on variants only the call and the load of its result matter. -/
theorem of_mem_resultLog {x : IRAction} (hx : x ∈ resultLog s f args) :
    x = .call (s.next + 1) f (args (resultPointer s)) ∨
      x = .load (s.next + 4) (resultPointer s) ∨ x.Silent := by
  rcases List.mem_append.1 hx with hx | hx
  · rcases List.mem_append.1 hx with hx | hx
    · rcases List.mem_cons.1 hx with rfl | hx
      · exact .inr (.inr trivial)
      · exact .inl (List.mem_singleton.1 hx)
    · exact .inr (.inr (Codegen.silent_checkLog x hx))
  · exact .inr (.inl (List.mem_singleton.1 hx))

theorem acquired_resultLog {u : Value} (hf : f.returnType = .int1)
    (hslot : (IRAction.call (s.next + 1) f (args (resultPointer s))).resultSlot =
      some (resultPointer s)) : Acquired (resultLog s f args) u ↔ u = resultOf s := by
  constructor
  · rintro (⟨id, vs, hx, -⟩ | ⟨id, p, hx, ht, -, rfl⟩)
    · rcases of_mem_resultLog hx with h | h | h
      · obtain ⟨-, rfl, -⟩ := IRAction.call.inj h
        cases hf
      · cases h
      · exact absurd rfl (h.idle.call id vs)
    · rcases of_mem_resultLog hx with h | h | h
      · cases h
      · cases h
        rfl
      · exact absurd ht (h.idle.load id p rfl)
  · rintro rfl
    refine .inr ⟨s.next + 4, resultPointer s, ?_, rfl, ⟨_, ?_, hslot⟩, rfl⟩
    · simp [resultLog, resultPointer]
    · simp [resultLog, resultPointer]

theorem wrote_resultLog :
    Php.Wrote (resultLog s f args) s (withResult s) (Php.resultCode s .variant f args) where
  items := rfl
  spans := ⟨Nat.le_add_right _ 5, by simp [Php.resultCode, Cfg.Code.labels, withResult, withCount],
    by simp [Php.resultCode, Cfg.Code.labels]⟩

theorem straight_resultCode :
    Codegen.Straight (Php.resultCode s .variant f args) (resultLog s f args) :=
  (Codegen.straight_op _).seq <| (Codegen.straight_op _).seq <|
    (Codegen.straight_check (s := { s with next := s.next + 2 })).seq (Codegen.straight_op _)

/-- The load is the first that mentions the result. -/
theorem lives_resultLog (hs : s.Ready) (hf : f.returnType = .int1)
    (hargs : ∀ u ∈ args (resultPointer s), u = resultPointer s ∨ s.Readable u) :
    lives (resultOf s) false (resultLog s f args) = some true := by
  have hfresh : s.Fresh (resultOf s) := ⟨_, Nat.le_add_right _ 4, rfl⟩
  have hbefore : ∀ x ∈ [IRAction.alloca s.next .variant 1,
      .call (s.next + 1) f (args (resultPointer s))] ++ checkLog { s with next := s.next + 2 }
        (.instruction (s.next + 1) f.returnType), ¬x.Mentions (resultOf s) := by
    intro x hx
    simp only [List.cons_append, List.nil_append, List.mem_cons] at hx
    obtain rfl | rfl | hx := hx
    · exact IRAction.Silent.not_mentions trivial
    · rintro (h | h)
      · simp [IRAction.result, hf, resultOf] at h
      · rcases hargs _ h with h | h
        · simp [resultOf, resultPointer] at h
        · exact hfresh.not_counted hs (h rfl).1
    · exact (Codegen.silent_checkLog x hx).not_mentions
  exact lives_of_result _ [] (x := .load (s.next + 4) (resultPointer s)) rfl hbefore (by simp)

variable (f args) in
/-- The result of an operation on variants is a new one with a reference. -/
theorem segment_result (hs : s.Ready) (hf : f.returnType = .int1)
    (hslot : (IRAction.call (s.next + 1) f (args (resultPointer s))).resultSlot =
      some (resultPointer s))
    (hargs : ∀ u ∈ args (resultPointer s), u = resultPointer s ∨ s.Readable u) :
    Segment s (resultLog s f args) (withResult s) (Pi.single (resultOf s) 1) ∧
      (withResult s).Ready ∧ (withResult s).Owned (resultOf s) := by
  have hnext : s.Grows { s with next := s.next + 5 } :=
    ⟨Nat.le_add_right _ _, rfl, rfl, rfl, fun _ => id, fun _ => .inl⟩
  have hmade : ({ s with next := s.next + 5 } : Codegen).Made (resultOf s) :=
    ⟨_, Nat.lt_succ_self _, rfl⟩
  have hpointer : (resultPointer s).Between s.next (withResult s).next :=
    ⟨le_rfl, Nat.lt_add_of_pos_right (Nat.succ_pos 4)⟩
  refine ⟨?_, (hnext.trans (grows_withCount hmade)).ready hs, 1, Function.update_self .., by decide⟩
  refine Codegen.segment_newCount (o := some (resultOf s)) (c := 1) hs ⟨_, Nat.le_add_right _ 4, rfl⟩
    rfl (.inr ⟨rfl, rfl⟩) rfl (Nat.le_add_right _ 5) ?_ ⟨?_, ?_⟩
    (fun u => (acquired_resultLog hf hslot).trans (by rw [Option.some_inj, eq_comm])) ?_
    ⟨_, wrote_resultLog, straight_resultCode⟩
  · intro x hx
    rcases of_mem_resultLog hx with rfl | rfl | h
    · refine ⟨fun u hu => ?_, fun u hu => ?_, ?_⟩
      · rw [IRAction.result, hf] at hu
        cases hu
        exact ⟨Nat.le_succ _, Nat.add_lt_add_left (by decide) _⟩
      · rcases hargs u hu with rfl | hu
        · exact .inr hpointer
        · exact .inl hu
      · cases f <;> first | rfl | cases hf
    · refine ⟨fun u hu => ?_, fun u hu => ?_, rfl⟩
      · cases hu
        exact ⟨Nat.le_add_right _ 4, Nat.lt_succ_self _⟩
      · rw [List.mem_singleton.1 hu]
        exact .inr hpointer
    · exact Codegen.uses_of_silent h
  · intro x hx p hp
    rcases of_mem_resultLog hx with rfl | rfl | h
    · rw [hslot] at hp
      cases hp
      exact .inl hpointer
    · cases hp
    · rw [h.idle.slot] at hp
      cases hp
  · intro id p hx ht
    rcases of_mem_resultLog hx with h | h | h
    · cases h
    · cases h
      exact hpointer
    · exact absurd ht (h.idle.load id p rfl)
  · rintro u hu
    cases hu
    exact lives_resultLog hs hf hargs

end

theorem segment_variantBinaryOperation {op : BinaryOperation} {left right : Value} (hs : s.Ready)
    (hl : s.Usable left) (hr : s.Usable right) (h : hold s left + hold s right ≤ s.references) :
    Sat (createVariantBinaryOperation op left right) s
      (fun l s' v => s'.Owned v ∧ Segment s l s' (hold s' v - (hold s left + hold s right)))
      (fun _ _ _ => False) := by
  unfold createVariantBinaryOperation
  refine segment_asVariants hs hl hr h fun L s₁ l r hs₁ b₁ hcl hcr hreadl hreadr hhl hhr => ?_
  rw [sat_variantResult]
  have hargs : ∀ u ∈ [constantInt 8 op.code, resultPointer s₁, l, r],
      u = resultPointer s₁ ∨ s₁.Readable u := by
    simp only [List.forall_mem_cons, List.not_mem_nil, false_imp_iff, implies_true, and_true]
    exact ⟨.inr Codegen.readable_constantInt, .inl trivial, .inr hreadl, .inr hreadr⟩
  obtain ⟨b₂, hs₂, ho⟩ := segment_result .binaryVariantOperation
    (fun p => [constantInt 8 op.code, p, l, r]) hs₁ rfl rfl hargs
  have hhl₂ := b₂.hold hs₂ (.inr hcl)
  have hhr₂ := b₂.hold hs₂ (.inr hcr)
  refine (segment_operands hs₂ (b₂.counted _ hcl) (b₂.counted _ hcr) ?_).mono ?_ fun _ _ _ h => h
  · rw [hhl₂, hhr₂, hhl, hhr, b₂.references, b₁.references, add_zero]
    exact h.trans (le_add_of_nonneg_right (Pi.single_nonneg.2 zero_le_one))
  · rintro L' s' v ⟨rfl, b₃⟩
    have ho' : s'.Owned (resultOf s₁) := (b₃.owned _ ho.counted).2 ho
    refine ⟨ho', (b₁.before (b₂.trans b₃)).congr ?_⟩
    rw [Codegen.hold_of_owned ho', hhl₂, hhr₂, hhl, hhr, sub_eq_add_neg]

theorem segment_variantUnaryOperation {op : UnaryOperation} {v : Value} (hs : s.Ready)
    (hv : s.Usable v) (h : hold s v ≤ s.references) :
    Sat (createVariantUnaryOperation op v) s
      (fun l s' u => s'.Owned u ∧ Segment s l s' (hold s' u - hold s v))
      (fun _ _ _ => False) := by
  unfold createVariantUnaryOperation
  refine Sat.bind (segment_asVariant hs hv) ?_ (fun _ _ _ h => h)
  rintro L s₁ w ⟨b₁, g₁, hcw, hhw⟩
  have hs₁ := g₁.ready hs
  have hle₁ : hold s₁ w ≤ s₁.references := by
    rw [hhw, b₁.references, add_zero]
    exact h
  rw [sat_variantResult]
  have hargs : ∀ u ∈ [constantInt 8 op.code, resultPointer s₁, w],
      u = resultPointer s₁ ∨ s₁.Readable u := by
    simp only [List.forall_mem_cons, List.not_mem_nil, false_imp_iff, implies_true, and_true]
    exact ⟨.inr Codegen.readable_constantInt, .inl trivial,
      .inr (Codegen.Usable.readable hs₁ (.inr hcw) hle₁)⟩
  obtain ⟨b₂, hs₂, ho⟩ := segment_result .unaryVariantOperation
    (fun p => [constantInt 8 op.code, p, w]) hs₁ rfl rfl hargs
  have hhw₂ := b₂.hold hs₂ (.inr hcw)
  refine Sat.bind (segment_outOfScope hs₂ (b₂.counted _ hcw) ?_) ?_ fun _ _ _ h => h
  · rw [hhw₂, b₂.references]
    exact hle₁.trans (le_add_of_nonneg_right (Pi.single_nonneg.2 zero_le_one))
  · rintro L' s' - b₃
    have ho' : s'.Owned (resultOf s₁) := (b₃.owned _ ho.counted).2 ho
    rw [sat_pure, List.append_nil]
    refine ⟨ho', (b₁.before (b₂.trans b₃)).congr ?_⟩
    rw [Codegen.hold_of_owned ho', hhw₂, hhw, sub_eq_add_neg]

theorem segment_createOperation {op : Operation} {vs : List Value} (hs : s.Ready)
    (hvs : ∀ u ∈ vs, s.Readable u) :
    Sat (Gen.createOperation B op vs) s
      (fun l s' v => Segment s l s' 0 ∧ s.Grows s' ∧ v.type = op.resultType (vs.map Value.type))
      (fun _ _ _ => False) := by
  have hidle : ∀ v, (IRAction.operation op vs v).Idle := fun _ => IRAction.idle_of_result rfl
  have huses : ∀ s' v, s.Uses s' (.operation op vs v) := fun s' v =>
    ⟨fun _ h => (nomatch h), fun u hu => .inl (hvs u hu), rfl⟩
  rw [Gen.sat_createOperation]
  split
  · rename_i hv
    exact ⟨Codegen.segment_op hs rfl le_rfl rfl rfl (huses _ _) (hidle _), .refl s,
      B.type_simplify hv⟩
  · exact ⟨Codegen.segment_op hs rfl (Nat.le_succ _) rfl rfl (huses _ _) (hidle _),
      Gen.grows_bump s, rfl⟩

/-- A pointer for something else than a variant. -/
theorem segment_alloca (t : IRType) (size : Nat) (hs : s.Ready) :
    Segment s [.alloca s.next t size] (Gen.bump s) 0 :=
  Codegen.segment_op hs rfl (Nat.le_succ _) rfl rfl (Codegen.uses_of_silent trivial)
    (IRAction.Silent.idle trivial)

/-- A call that does not make or destroy a variant. -/
theorem segment_call (f : RuntimeFunction) (args : List Value) (hs : s.Ready)
    (hf : f.returnType ≠ .variant) (hslot : (IRAction.call s.next f args).resultSlot = none)
    (hdestroyed : (IRAction.call s.next f args).destroyed = none)
    (hargs : ∀ u ∈ args, s.Readable u ∨ u.Between s.next (Gen.bump s).next) :
    Segment s [.call s.next f args] (Gen.bump s) 0 := by
  refine Codegen.segment_op hs rfl (Nat.le_succ _) rfl rfl ⟨fun u hu => ?_, hargs, hdestroyed⟩
    (IRAction.idle_call hslot fun h => hf (by rw [h]; rfl))
  cases hu
  exact ⟨le_rfl, Nat.lt_succ_self _⟩

/-- The call of a comparison, its check and the load of its result. -/
theorem segment_comparisonCall (op : ComparisonOperation) {left right : Value} (hs : s.Ready)
    (hl : s.Readable left) (hr : s.Readable right) :
    Segment s ([.alloca s.next (.integer 8) 1] ++ ([.call (s.next + 1) .compareVariant
        [constantInt 16 op.code, .instruction s.next (.pointer (.integer 8)), left, right]] ++
      (checkLog { s with next := s.next + 2 } (.instruction (s.next + 1) .int1) ++
        [.load (s.next + 4) (.instruction s.next (.pointer (.integer 8)))])))
      { s with next := s.next + 5 } 0 ∧ s.Grows { s with next := s.next + 5 } := by
  have hready : ∀ n, s.next ≤ n → ({ s with next := n } : Codegen).Ready := fun n hn =>
    ⟨hs.overriden, fun h => (hs.made h).mono hn⟩
  have hpointer : ∀ s' : Codegen, s'.Readable (.instruction s.next (.pointer (.integer 8))) :=
    fun _ => Codegen.readable_of_type (by simp [Value.type])
  have b₁ : Segment s [.alloca s.next (.integer 8) 1] { s with next := s.next + 1 } 0 :=
    segment_alloca _ _ hs
  have b₂ := segment_call .compareVariant
    [constantInt 16 op.code, .instruction s.next (.pointer (.integer 8)), left, right]
    (hready (s.next + 1) (Nat.le_succ _)) (by decide) rfl rfl (by
      simp only [List.forall_mem_cons, List.not_mem_nil, false_imp_iff, implies_true, and_true]
      exact ⟨.inl Codegen.readable_constantInt, .inl (hpointer _), .inl hl, .inl hr⟩)
  have b₃ := Codegen.segment_check (hready (s.next + 2) (Nat.le_add_right _ 2))
    (c := .instruction (s.next + 1) .int1)
  have b₄ : Segment { s with next := s.next + 4 }
      [.load (s.next + 4) (.instruction s.next (.pointer (.integer 8)))]
      { s with next := s.next + 5 } 0 := by
    refine Codegen.segment_op (hready (s.next + 4) (Nat.le_add_right _ 4)) rfl (Nat.le_succ _) rfl
      rfl ⟨fun u hu => ?_, List.forall_mem_singleton.2 (.inl (hpointer _)), rfl⟩
      (IRAction.idle_load (by simp [Value.type]))
    cases hu
    exact ⟨le_rfl, Nat.lt_succ_self _⟩
  exact ⟨b₁.before (b₂.before (b₃.before b₄)),
    Nat.le_add_right _ _, rfl, rfl, rfl, fun _ => id, fun _ => .inl⟩

theorem segment_variantComparison {op : ComparisonOperation} {left right : Value} (hs : s.Ready)
    (hl : s.Usable left) (hr : s.Usable right) (h : hold s left + hold s right ≤ s.references) :
    Sat (createVariantComparison B op left right) s
      (fun l s' _ => Segment s l s' (-(hold s left + hold s right))) (fun _ _ _ => False) := by
  unfold createVariantComparison
  refine segment_asVariants hs hl hr h fun L s₁ l r hs₁ b₁ hcl hcr hreadl hreadr hhl hhr => ?_
  obtain ⟨b₂, g₂⟩ := segment_comparisonCall op hs₁ hreadl hreadr
  have hs₂ := g₂.ready hs₁
  rw [sat_bind, Gen.sat_createAlloca, sat_bind, Gen.sat_createCall, sat_bind,
    sat_retVoidIfCallFails, sat_bind, Gen.sat_createLoad]
  have hresult : ∀ u ∈ [Value.instruction (s₁.next + 4) (.integer 8)],
      ({ s₁ with next := s₁.next + 5 } : Codegen).Readable u :=
    List.forall_mem_singleton.2 (Codegen.readable_of_type fun h => nomatch h)
  refine Sat.bind (segment_createOperation hs₂ hresult) ?_ fun _ _ _ h => h
  rintro L₃ s₃ v ⟨b₃, g₃, -⟩
  have hs₃ := g₃.ready hs₂
  have b := b₂.before b₃
  have hhl₃ := b.hold hs₃ (.inr hcl)
  have hhr₃ := b.hold hs₃ (.inr hcr)
  refine (segment_operands hs₃ (b.counted _ hcl) (b.counted _ hcr) ?_).mono ?_ fun _ _ _ h => h
  · rw [hhl₃, hhr₃, hhl, hhr, b.references, b₁.references, add_zero, add_zero]
    exact h
  · rintro L₄ s₄ _ ⟨-, b₄⟩
    have b : Segment s _ s₄ (-(hold s left + hold s right)) :=
      (b₁.before (b₂.before (b₃.before b₄))).congr (by rw [hhl₃, hhr₃, hhl, hhr])
    simp only [List.append_assoc] at b ⊢
    exact b

/-! ### Calls -/

/-- A variant that a call of the runtime returned, with its first count. -/
theorem segment_called {f : RuntimeFunction} {args : List Value} {c : ℤ} {o : Option Value}
    {α : Type} {k : Value → Gen α} {Q : List IRAction → Codegen → α → Prop} (hs : s.Ready)
    (hf : f.returnType = .variant)
    (ho : c = -1 ∧ o = none ∧ f ≠ .doMethodCall ∨
      c = 1 ∧ o = some (.instruction s.next .variant) ∧ f = .doMethodCall)
    (hargs : ∀ u ∈ args, s.Readable u)
    (hk : ∀ s' v, v = .instruction s.next .variant → s.Grows s' →
      Segment s [.call s.next f args] s' (Codegen.acquires o) →
      s'.Counted v → (s'.Owned v ↔ o = some v) →
        Sat (k v) s' (fun l s'' a => Q ([.call s.next f args] ++ l) s'' a) fun _ _ _ => False) :
    Sat (do
      let value ← Gen.createCall f args
      setRefCount value c
      k value) s Q fun _ _ _ => False := by
  have hmade : (Gen.bump s).Made (.instruction s.next .variant) := ⟨_, Nat.lt_succ_self _, rfl⟩
  unfold setRefCount
  simp only [sat_bind, Gen.sat_createCall, sat_modify, hf]
  refine hk (withCount (Gen.bump s) (.instruction s.next .variant) c) _ rfl
    ((Gen.grows_bump s).trans (grows_withCount hmade)) (Codegen.segment_calledVariant hs hf ho hargs)
    counted_withCount ?_
  rcases ho with ⟨rfl, rfl, -⟩ | ⟨rfl, rfl, -⟩
  · simp [Codegen.Owned, withCount]
  · simp [Codegen.Owned, withCount]

theorem readable_globalString {id : Nat} {text : Text} :
    s.Readable (.constant (.globalString id text)) :=
  Codegen.readable_of_type fun h => nomatch h

theorem segment_variableLookup {x : Text} (hs : s.Ready) :
    Sat (createVariableLookup x) s (fun l s' v => ¬s'.Owned v ∧ Segment s l s' 0)
      (fun _ _ _ => False) := by
  unfold createVariableLookup
  rw [sat_bind, Gen.sat_createGlobalStringPtr]
  refine segment_called (o := none) ((Gen.grows_bump s).ready hs) rfl (.inl ⟨rfl, rfl, by decide⟩) ?_
    fun s' v _ _ b _ ho => ?_
  · simp only [List.forall_mem_cons, List.not_mem_nil, false_imp_iff, implies_true, and_true]
    exact ⟨Codegen.readable_of_type (by decide), readable_globalString, Codegen.readable_constantInt⟩
  · exact ⟨fun h => Option.some_ne_none _ (ho.1 h).symm, (Codegen.segment_bump hs).before b⟩

theorem segment_getAttribute {a : Text} {v : Value} (hs : s.Ready) (hv : s.Counted v)
    (h : hold s v ≤ s.references) :
    Sat (createGetAttribute a v) s (fun l s' u => ¬s'.Owned u ∧ Segment s l s' (-hold s v))
      (fun _ _ _ => False) := by
  unfold createGetAttribute
  rw [sat_bind, Gen.sat_createGlobalStringPtr]
  have hs₁ := (Gen.grows_bump s).ready hs
  have b₁ := Codegen.segment_bump hs
  have hread : (Gen.bump s).Readable v := by
    refine Codegen.Readable.mono (Codegen.Usable.readable hs (.inr hv) h) b₁.toBalance le_rfl
  refine segment_called (o := none) hs₁ rfl (.inl ⟨rfl, rfl, by decide⟩) ?_
    fun s₂ u _ g₂ b₂ hu ho => ?_
  · simp only [List.forall_mem_cons, List.not_mem_nil, false_imp_iff, implies_true, and_true]
    exact ⟨hread, readable_globalString, Codegen.readable_constantInt⟩
  · have b := b₁.before b₂
    have hs₂ := g₂.ready hs₁
    have hhold := b.hold hs₂ (.inr hv)
    refine Sat.bind (segment_outOfScope hs₂ (b.counted _ hv) ?_) ?_ fun _ _ _ h => h
    · rwa [hhold, b.references, Codegen.acquires, Option.elim_none, add_zero]
    · rintro L s₃ - b₃
      rw [sat_pure, List.append_nil]
      refine ⟨fun h => Option.some_ne_none _ (ho.1 ((b₃.owned _ hu).1 h)).symm, (b.trans b₃).congr ?_⟩
      rw [hhold, Codegen.acquires, Option.elim_none, zero_add]

/-! ### Method calls -/

/-- Borrowed values that go out of scope. -/
theorem sat_destroyBorrowed : ∀ {vs : List Value} {s : Codegen},
    (∀ v ∈ vs, s.Counted v ∧ ¬s.Owned v) →
      Sat (destroyValues vs) s (fun l s' _ => l = [] ∧ s' = s) fun _ _ _ => False
  | [], _, _ => ⟨rfl, rfl⟩
  | v :: vs, s, h => by
    rw [List.forall_mem_cons] at h
    unfold destroyValues
    rw [sat_bind, sat_outOfScope, Codegen.count_of_not_owned h.1.1 h.1.2]
    simp only [if_true]
    exact sat_destroyBorrowed h.2

/-- The pointer to an argument. -/
theorem segment_inBoundsGEP {array : Value} (index : Nat) (hs : s.Ready)
    (ha : array.type = .pointer .variant) :
    Segment s [.inBoundsGEP s.next array index] (Gen.bump s) 0 :=
  Codegen.segment_op hs rfl (Nat.le_succ _) rfl rfl
    ⟨fun _ h => (nomatch h), List.forall_mem_singleton.2 (.inl (Codegen.readable_of_type (by simp [ha]))),
      rfl⟩
    (IRAction.idle_of_result rfl)

theorem segment_store {v p : Value} (hs : s.Ready) (hv : s.Readable v) (hp : p.type = .pointer .variant) :
    Segment s [.store v p] s 0 := by
  refine Codegen.segment_op hs rfl le_rfl rfl rfl ⟨fun _ h => (nomatch h), ?_, rfl⟩
    (IRAction.idle_of_result rfl)
  simp only [IRAction.operands, List.forall_mem_cons, List.not_mem_nil, false_imp_iff, implies_true,
    and_true]
  exact ⟨.inl hv, .inl (Codegen.readable_of_type (by simp [hp]))⟩

theorem segment_storeArguments (array : Value) (ha : array.type = .pointer .variant) :
    ∀ {arguments : List Value} {index : Nat} {s : Codegen}, s.Ready →
      (∀ v ∈ arguments, s.Usable v) → (∀ v ∈ arguments, s.Readable v) →
      Sat (storeArguments array index arguments) s
        (fun l s' vs => Segment s l s' 0 ∧ ∀ v ∈ vs, s'.Counted v ∧ ¬s'.Owned v)
        (fun _ _ _ => False)
  | [], _, _, hs, _, _ => ⟨Codegen.segment_skip hs rfl id le_rfl, by simp⟩
  | v :: arguments, index, s, hs, hv, hread => by
    rw [List.forall_mem_cons] at hv hread
    unfold storeArguments
    rw [sat_bind, Gen.sat_createInBoundsGEP]
    have g₁ := Gen.grows_bump s
    have hs₁ := g₁.ready hs
    have b₁ := segment_inBoundsGEP index hs ha
    have hread₁ : ∀ u ∈ v :: arguments, (Gen.bump s).Readable u := fun u hu =>
      Codegen.Readable.mono (List.forall_mem_cons.2 hread u hu) b₁.toBalance le_rfl
    rw [List.forall_mem_cons] at hread₁
    split
    · rw [sat_bind, sat_tell]
      have b₂ := segment_store (p := .instruction s.next array.type) hs₁ hread₁.1 ha
      refine (segment_storeArguments array ha hs₁ (fun u hu => (hv.2 u hu).mono g₁) hread₁.2).mono ?_
        fun _ _ _ h => h
      rintro l s' vs ⟨b, hvs⟩
      exact ⟨b₁.before (b₂.before b), hvs⟩
    · rename_i h
      rw [isVariantType_iff, ← hv.1.counted_iff hs] at h
      have hw := segment_asVariant hs₁ (hv.1.mono g₁)
      have hvariant : v.type ≠ .variant := fun ht => h ((hv.1.counted_iff hs).2 ht)
      rw [sat_asVariant hs₁ (hv.1.mono g₁), if_neg hvariant] at hw
      rw [sat_bind, sat_wrapAsVariant (hv.1.resolve_right h)]
      obtain ⟨b₂, g₂, hcw, hhw⟩ := hw
      have hs₂ := g₂.ready hs₁
      have how : ¬(withWrapped (Gen.bump s)).Owned (wrapped (Gen.bump s)) := by
        rw [← Codegen.hold_eq_zero, hhw, Codegen.hold_eq_zero]
        exact fun ho => h ho.counted
      have b₃ := segment_store (v := wrapped (Gen.bump s)) (p := .instruction s.next array.type)
        hs₂ (fun _ => ⟨hcw, fun ho => absurd ho how⟩) ha
      rw [sat_bind, sat_tell]
      refine Sat.bind (segment_storeArguments array ha hs₂ (fun u hu => (hv.2 u hu).mono (g₁.trans g₂))
        fun u hu => Codegen.Readable.mono (hread₁.2 u hu) b₂.toBalance le_rfl) ?_ (fun _ _ _ h => h)
      rintro l s' vs ⟨b₄, hvs⟩
      rw [sat_pure, List.append_nil]
      refine ⟨b₁.before (b₂.before (b₃.before b₄)), List.forall_mem_cons.2 ⟨?_, hvs⟩⟩
      exact ⟨b₄.counted _ hcw, fun ho => how ((b₄.owned _ hcw).1 ho)⟩

theorem segment_createArguments {arguments : List Value} (hs : s.Ready)
    (hv : ∀ v ∈ arguments, s.Usable v) (hread : ∀ v ∈ arguments, s.Readable v) :
    Sat (createArguments arguments) s
      (fun l s' p => s.Grows s' ∧ Segment s l s' 0 ∧ p.1.type = .pointer .variant ∧
        ∀ v ∈ p.2, s'.Counted v ∧ ¬s'.Owned v)
      (fun _ _ _ => False) := by
  unfold createArguments
  split
  · rw [sat_bind, Gen.sat_createAlloca]
    have g₁ := Gen.grows_bump s
    have hs₁ := g₁.ready hs
    have b₁ := segment_alloca .variant arguments.length hs
    have hv₁ : ∀ v ∈ arguments, (Gen.bump s).Usable v := fun v h => (hv v h).mono g₁
    have hread₁ : ∀ v ∈ arguments, (Gen.bump s).Readable v := fun v h =>
      Codegen.Readable.mono (hread v h) b₁.toBalance le_rfl
    refine Sat.bind ((segment_storeArguments (.instruction s.next (.pointer .variant)) rfl
      hs₁ hv₁ hread₁).and (gives_storeArguments (R := fun _ => False) hs₁ hv₁)) ?_
      (fun _ _ _ h => h.1)
    rintro l s₂ vs ⟨⟨b₂, hvs⟩, -, g₂, -⟩
    rw [sat_pure, List.append_nil]
    exact ⟨g₁.trans g₂, b₁.before b₂, rfl, hvs⟩
  · exact ⟨.refl s, Codegen.segment_skip hs rfl id le_rfl, rfl, by simp⟩

theorem segment_methodCall {m : Text} {arguments : List Value} (hs : s.Ready)
    (hv : ∀ v ∈ arguments, s.Usable v) (hread : ∀ v ∈ arguments, s.Readable v) :
    Sat (createMethodCall B m arguments) s
      (fun l s' v => s'.Owned v ∧ Segment s l s' (hold s' v)) (fun _ _ _ => False) := by
  unfold createMethodCall
  refine Sat.bind (segment_createArguments hs hv hread) ?_ (fun _ _ _ h => h)
  rintro l₁ s₁ ⟨array, vs⟩ ⟨g₁, b₁, harray, hvs⟩
  rw [sat_bind, Gen.sat_createGlobalStringPtr]
  have hs₁ := g₁.ready hs
  have hs₂ := (Gen.grows_bump s₁).ready hs₁
  refine segment_called (c := 1) hs₂ rfl (.inr ⟨rfl, rfl, rfl⟩) ?_ fun s₃ v hv₃ g₃ b₃ hcv ho => ?_
  · simp only [List.forall_mem_cons, List.not_mem_nil, false_imp_iff, implies_true, and_true]
    exact ⟨Codegen.readable_of_type (by decide), readable_globalString, Codegen.readable_constantInt,
      Codegen.readable_constantInt, Codegen.readable_of_type (by simp [harray])⟩
  have hs₃ := g₃.ready hs₂
  have hvs₃ : ∀ u ∈ vs, s₃.Counted u ∧ ¬s₃.Owned u := fun u hu =>
    ⟨b₃.counted u (hvs u hu).1, fun h => (hvs u hu).2 ((b₃.owned u (hvs u hu).1).1 h)⟩
  refine Sat.bind (sat_destroyBorrowed hvs₃) ?_ (fun _ _ _ h => h)
  rintro l₃ s₃ - ⟨rfl, rfl⟩
  subst hv₃
  have ho₃ := ho.2 rfl
  have hnew : ¬(Gen.bump s₁).Owned (.instruction (Gen.bump s₁).next .variant) := fun h =>
    Codegen.Fresh.not_counted ⟨_, le_rfl, rfl⟩ hs₂ h.counted
  have hpos : 0 < s₃.references (.instruction (Gen.bump s₁).next .variant) := by
    rw [b₃.references, Pi.add_apply, Codegen.references_of_not_owned hnew, Codegen.acquires_self]
    exact one_pos
  have hvalue : ∀ u ∈ [Value.instruction (Gen.bump s₁).next .variant], s₃.Readable u :=
    List.forall_mem_singleton.2 fun _ => ⟨hcv, fun _ => hpos⟩
  refine Sat.bind (segment_createOperation hs₃ hvalue) ?_ fun _ _ _ h => h
  rintro l₄ s₄ c ⟨b₄, g₄, -⟩
  rw [sat_bind, sat_retVoidIfCallFails, sat_pure]
  have b₅ := Codegen.segment_check (c := c) (g₄.ready hs₃)
  have b := b₁.before ((Codegen.segment_bump hs₁).before (b₃.trans (b₄.before b₅)))
  have ho₅ := (b₅.owned _ (b₄.counted _ hcv)).2 ((b₄.owned _ hcv).2 ho₃)
  rw [List.append_nil]
  refine ⟨ho₅, b.congr ?_⟩
  rw [Codegen.hold_of_owned ho₅, add_zero]
  rfl

end PHPBindings

/-! ## Expressions -/

namespace Expr

/-- The generated code owns the value; `K` are the names of loop keys. -/
def Owns (K : Text → Prop) : Expression → Prop
  | .variableReference x => K x
  | .methodCall .. => True
  | .binaryOperation l r _ => l.irType = .variant ∨ r.irType = .variant
  | .unaryOperation e _ => e.irType = .variant
  | .getAttribute .. | .comparison .. | .doubleLiteral _ | .integerLiteral _ | .booleanLiteral _
  | .stringLiteral _ => False

mutual

/-- A method call in the expression has an argument that the generated code owns. -/
def Leaks (K : Text → Prop) : Expression → Prop
  | .getAttribute v _ => v.Leaks K
  | .methodCall _ args => ArgumentsLeak K args
  | .binaryOperation l r _ | .comparison l r _ => l.Leaks K ∨ r.Leaks K
  | .unaryOperation e _ => e.Leaks K
  | .variableReference _ | .doubleLiteral _ | .integerLiteral _ | .booleanLiteral _
  | .stringLiteral _ => False

def ArgumentsLeak (K : Text → Prop) : List (Option Expression) → Prop
  | [] => False
  | none :: args => ArgumentsLeak K args
  | some e :: args => e.Owns K ∨ e.Leaks K ∨ ArgumentsLeak K args

end

end Expr

namespace LLVMVisitor

open Codegen (Balance Segment hold)

variable {B : IRBuilder} {K : Text → Prop}

/-- `K` are the names that stand for the key of a loop, which is not destroyed before the end of the
body. -/
structure Keys (K : Text → Prop) (s : Codegen) : Prop where
  bound : ∀ {x u}, s.overridenVariables x = some u → (K x ↔ s.Owned u)
  free : ∀ {x}, s.overridenVariables x = none → ¬K x
  held : ∀ {x u}, s.overridenVariables x = some u → s.Owned u → 0 < s.references u

theorem Keys.balance {s s' : Codegen} {l : List IRAction} {δ : Value → ℤ} (h : Keys K s)
    (hs : s.Ready) (hb : Balance s l s' δ) (hδ : 0 ≤ δ)
    (ho : s'.overridenVariables = s.overridenVariables) : Keys K s' where
  bound hx := by
    rw [ho] at hx
    rw [h.bound hx, hb.owned _ (hs.overriden hx)]
  free hx := h.free (ho ▸ hx)
  held {x u} hx hu := by
    rw [ho] at hx
    rw [hb.references]
    have := h.held hx ((hb.owned u (hs.overriden hx)).1 hu)
    exact add_pos_of_pos_of_nonneg this (hδ u)

/-- The references after an expression: one for its value if that is owned, and those that method
calls keep. -/
structure Yields (K : Text → Prop) (e : Expression) (s : Codegen) (l : List IRAction) (s' : Codegen)
    (v : Value) : Prop where
  owned : s'.Owned v ↔ e.Owns K
  segment : ∃ leak, 0 ≤ leak ∧ Segment s l s' (hold s' v + leak) ∧ (leak = 0 ↔ ¬e.Leaks K)

/-- What is to be shown of an expression. -/
abbrev AllYield (B : IRBuilder) (K : Text → Prop) (e : Expression) : Prop :=
  ∀ {s s' : Codegen} {l : List IRAction} {v : Value}, s.Ready → s.Sane → Keys K s →
    Returns (expression B e) s l s' v → Yields K e s l s' v

/-- A scalar is not owned. -/
theorem not_owned_of_scalar {s : Codegen} {v : Value} (hs : s.Ready) (hv : v.type.IsScalar) :
    ¬s.Owned v :=
  fun h => hv.ne_variant (hs.made h.counted).type

/-- The value of a scalar has no reference. -/
theorem yields_scalar {e : Expression} {s s' : Codegen} {l : List IRAction} {v : Value}
    (hs' : s'.Ready) (hv : v.type.IsScalar) (he : ¬e.Owns K) (hl : ¬e.Leaks K)
    (h : Segment s l s' 0) : Yields K e s l s' v := by
  have ho := not_owned_of_scalar hs' hv
  refine ⟨iff_of_false ho he, 0, le_rfl, ?_, iff_of_true rfl hl⟩
  rwa [Codegen.hold_eq_zero.2 ho, add_zero]

theorem yields_variableReference {x : Text} {s s' : Codegen} {l : List IRAction} {v : Value}
    (hs : s.Ready) (hK : Keys K s) (h : Returns (variableReferenceExpression x) s l s' v) :
    Yields K (.variableReference x) s l s' v := by
  have hready := (h.sat (gives_variableReference (R := fun _ => False) hs)).2.1.ready hs
  have hnote := Codegen.segment_note (x := .reference x v) hready rfl trivial
  obtain ⟨l₁, rfl, hvalue⟩ := variableReference_returns h
  cases hx : s.overridenVariables x with
  | some u =>
    rw [hx] at hvalue
    obtain ⟨rfl, hb⟩ := hvalue.sat (segment_newReference hs (hs.overriden hx) (hK.held hx))
    have ho := hb.owned _ (hs.overriden hx)
    refine ⟨ho.trans (hK.bound hx).symm, 0, le_rfl, (hb.trans hnote).congr ?_, iff_of_true rfl id⟩
    have hhold : hold s' v = hold s v := by simp only [hold, ho]
    rw [hhold]
  | none =>
    rw [hx] at hvalue
    obtain ⟨ho, hb⟩ := hvalue.sat (segment_variableLookup hs)
    refine ⟨iff_of_false ho (hK.free hx), 0, le_rfl, (hb.trans hnote).congr ?_, iff_of_true rfl id⟩
    rw [Codegen.hold_eq_zero.2 ho]

/-- What is known after the operands of an operation. -/
structure Operands (K : Text → Prop) (e e' : Expression) (s : Codegen) (l : List IRAction)
    (s' : Codegen) (left right : Value) : Prop where
  held : hold s' left + hold s' right ≤ s'.references
  segment : ∃ leak, 0 ≤ leak ∧ Segment s l s' (hold s' left + hold s' right + leak) ∧
    (leak = 0 ↔ ¬(e.Leaks K ∨ e'.Leaks K))

theorem yields_operands {e e' : Expression} {s s₁ s₂ : Codegen} {l₁ l₂ : List IRAction}
    {left right : Value} (hs : s.Ready) (hsane : s.Sane) (hK : Keys K s) (ih : AllYield B K e)
    (ih' : AllYield B K e') (h : Returns (expression B e) s l₁ s₁ left)
    (h' : Returns (expression B e') s₁ l₂ s₂ right) : Operands K e e' s (l₁ ++ l₂) s₂ left right := by
  obtain ⟨-, g₁, hl⟩ := expression_returns hs h
  have hs₁ := g₁.ready hs
  obtain ⟨-, g₂, hr⟩ := expression_returns hs₁ h'
  obtain ⟨-, leak₁, hn₁, b₁, hz₁⟩ := ih hs hsane hK h
  have hle₁ := add_nonneg (s₁.hold_nonneg left) hn₁
  have hsane₁ := b₁.sane hsane hle₁
  obtain ⟨-, leak₂, hn₂, b₂, hz₂⟩ := ih' hs₁ hsane₁ (hK.balance hs b₁.toBalance hle₁ g₁.overriden) h'
  have hhold : hold s₂ left = hold s₁ left := b₂.hold (g₂.ready hs₁) hl.usable
  have b : Segment s (l₁ ++ l₂) s₂ (hold s₂ left + hold s₂ right + (leak₁ + leak₂)) := by
    refine (b₁.trans b₂).congr ?_
    rw [hhold]
    abel
  refine ⟨?_, leak₁ + leak₂, add_nonneg hn₁ hn₂, b, ?_⟩
  · rw [b.references]
    exact le_add_of_nonneg_of_le hsane (le_add_of_nonneg_right (add_nonneg hn₁ hn₂))
  · rw [add_eq_zero_iff_of_nonneg hn₁ hn₂, hz₁, hz₂, not_or]

/-- An operation on the values of two expressions: its result, if it has a reference, is the only
one it leaves. -/
theorem Operands.yields {e e' x : Expression} {s s₂ s' : Codegen} {l l' : List IRAction}
    {left right v : Value} (h : Operands K e e' s l s₂ left right)
    (hleaks : x.Leaks K ↔ e.Leaks K ∨ e'.Leaks K) (howns : s'.Owned v ↔ x.Owns K)
    (hb : Segment s₂ l' s' (hold s' v - (hold s₂ left + hold s₂ right))) :
    Yields K x s (l ++ l') s' v := by
  obtain ⟨leak, hn, b, hz⟩ := h.segment
  refine ⟨howns, leak, hn, (b.trans hb).congr (by abel), ?_⟩
  rw [hz, hleaks]

theorem segment_toDouble {s : Codegen} {v : Value} (hs : s.Ready) (hv : v.type ≠ .variant) :
    Sat (toDouble B v) s (fun l s' u => Segment s l s' 0 ∧ s.Grows s' ∧ u.type ≠ .variant)
      (fun _ _ _ => False) := by
  unfold toDouble
  split
  · exact ⟨Codegen.segment_skip hs rfl id le_rfl, .refl s, hv⟩
  · refine (segment_createOperation hs (List.forall_mem_singleton.2
      (Codegen.readable_of_type hv))).mono ?_ fun _ _ _ h => h
    rintro l s' u ⟨b, g, ht⟩
    exact ⟨b, g, fun h => nomatch ht.symm.trans h⟩

theorem segment_numericOperation {s : Codegen} {iop fop : Operation} {left right : Value}
    (hs : s.Ready) (hl : left.type ≠ .variant) (hr : right.type ≠ .variant) :
    Sat (numericOperation B iop fop left right) s (fun l s' _ => Segment s l s' 0)
      (fun _ _ _ => False) := by
  have hread : ∀ {s : Codegen} {left right : Value}, left.type ≠ .variant →
      right.type ≠ .variant → ∀ u ∈ [left, right], s.Readable u := by
    intro s left right hl hr
    simp only [List.forall_mem_cons, List.not_mem_nil, false_imp_iff, implies_true, and_true]
    exact ⟨Codegen.readable_of_type hl, Codegen.readable_of_type hr⟩
  unfold numericOperation
  split
  · exact (segment_createOperation hs (hread hl hr)).mono (fun _ _ _ h => h.1) fun _ _ _ h => h
  · refine Sat.bind (segment_toDouble hs hl) ?_ fun _ _ _ h => h
    rintro l₁ s₁ left ⟨b₁, g₁, hl⟩
    refine Sat.bind (segment_toDouble (g₁.ready hs) hr) ?_ fun _ _ _ h => h
    rintro l₂ s₂ right ⟨b₂, g₂, hr⟩
    refine (segment_createOperation (g₂.ready (g₁.ready hs)) (hread hl hr)).mono ?_ fun _ _ _ h => h
    rintro l₃ s₃ _ ⟨b₃, -, -⟩
    exact b₁.before (b₂.before b₃)

/-- An operation on numbers. -/
theorem Operands.numeric {e e' x : Expression} {iop fop : Operation} {s s₂ s' : Codegen}
    {l l' : List IRAction} {left right v : Value} (h : Operands K e e' s l s₂ left right)
    (hs₂ : s₂.Ready) (hl : left.type.IsScalar) (hr : right.type.IsScalar) (hv : v.type.IsScalar)
    (hs' : s'.Ready) (hleaks : x.Leaks K ↔ e.Leaks K ∨ e'.Leaks K) (howns : ¬x.Owns K)
    (hop : Returns (numericOperation B iop fop left right) s₂ l' s' v) :
    Yields K x s (l ++ l') s' v := by
  have ho := not_owned_of_scalar hs' hv
  refine h.yields hleaks (iff_of_false ho howns) ?_
  rw [Codegen.hold_eq_zero.2 ho, Codegen.hold_eq_zero.2 (not_owned_of_scalar hs₂ hl),
    Codegen.hold_eq_zero.2 (not_owned_of_scalar hs₂ hr), add_zero, sub_zero]
  exact hop.sat (segment_numericOperation hs₂ hl.ne_variant hr.ne_variant)

/-- The arguments of a method call may be used, but the references to their values stay. -/
theorem yields_arguments {args : List (Option Expression)}
    (ih : ∀ e, some e ∈ args → AllYield B K e) : ∀ {s s' : Codegen} {l : List IRAction}
      {vs : List Value}, s.Ready → s.Sane → Keys K s → Returns (expressions B args) s l s' vs →
      (∀ v ∈ vs, s'.Readable v) ∧
        ∃ leak, 0 ≤ leak ∧ Segment s l s' leak ∧ (leak = 0 ↔ ¬Expr.ArgumentsLeak K args) := by
  induction args with
  | nil =>
    intro s s' l vs hs _ _ h
    cases h
    exact ⟨by simp, 0, le_rfl, Codegen.segment_skip hs rfl id le_rfl, iff_of_true rfl id⟩
  | cons arg args iha =>
    intro s s' l vs hs hsane hK h
    cases arg with
    | none => cases h
    | some e =>
      obtain ⟨l₁, s₁, u, l₂, us, he, hs₁, hargs, rfl, rfl⟩ := arguments_return hs h
      obtain ⟨-, g₁, hu⟩ := expression_returns hs he
      obtain ⟨ho, leak₁, hn₁, b₁, hz₁⟩ := ih e List.mem_cons_self hs hsane hK he
      have hn := add_nonneg (s₁.hold_nonneg u) hn₁
      have hsane₁ := b₁.sane hsane hn
      have hK₁ := hK.balance hs b₁.toBalance hn g₁.overriden
      obtain ⟨hread, leak₂, hn₂, b₂, hz₂⟩ := iha (fun e he => ih e (List.mem_cons_of_mem _ he)) hs₁
        hsane₁ hK₁ hargs
      have hle : hold s₁ u ≤ s₁.references := by
        rw [b₁.references]
        exact le_add_of_nonneg_of_le hsane (le_add_of_nonneg_right hn₁)
      refine ⟨List.forall_mem_cons.2 ⟨?_, hread⟩, hold s₁ u + leak₁ + leak₂, add_nonneg hn hn₂,
        b₁.trans b₂, ?_⟩
      · exact Codegen.Readable.mono (Codegen.Usable.readable hs₁ hu.usable hle) b₂.toBalance hn₂
      · show _ ↔ ¬(_ ∨ _ ∨ _)
        rw [add_eq_zero_iff_of_nonneg hn hn₂,
          add_eq_zero_iff_of_nonneg (s₁.hold_nonneg u) hn₁, Codegen.hold_eq_zero, ho, hz₁, hz₂]
        tauto

theorem yields_expression (e : Expression) : AllYield B K e := by
  induction e using Expr.ind with
  | variableReference x =>
    intro s s' l v hs _ hK h
    unfold expression at h
    exact yields_variableReference hs hK h
  | getAttribute p a ih =>
    intro s s' l v hs hsane hK h
    unfold expression at h
    obtain ⟨l₁, s₁, u, l₂, he, hs₁, hop, rfl, hu, ht⟩ := operand_returns hs h
    obtain ⟨-, leak, hn, b₁, hz⟩ := ih hs hsane hK he
    rcases hu with hu | hu
    · exact absurd (hop.sat (gives_getAttribute_error hs₁ hu)).2.2 id
    · have hle : hold s₁ u ≤ s₁.references := by
        rw [b₁.references]
        exact le_add_of_nonneg_of_le hsane (le_add_of_nonneg_right hn)
      obtain ⟨ho, b₂⟩ := hop.sat (segment_getAttribute hs₁ hu hle)
      refine ⟨iff_of_false ho id, leak, hn, (b₁.trans b₂).congr ?_, hz⟩
      rw [Codegen.hold_eq_zero.2 ho]
      abel
  | methodCall m args ih =>
    intro s s' l v hs hsane hK h
    unfold expression at h
    obtain ⟨l₁, s₁, vs, l₂, hargs, hop, rfl⟩ := returns_bind.1 h
    obtain ⟨-, g₁, -, hvs, -⟩ := expressions_return hs hargs
    obtain ⟨hread, leak, hn, b₁, hz⟩ := yields_arguments (fun e he => ih e he) hs hsane hK hargs
    obtain ⟨ho, b₂⟩ := hop.sat (segment_methodCall (g₁.ready hs) hvs hread)
    exact ⟨iff_of_true ho trivial, leak, hn, (b₁.trans b₂).congr (add_comm _ _), hz⟩
  | doubleLiteral v | integerLiteral v | booleanLiteral v | stringLiteral v =>
    intro s s' l u hs _ _ h
    obtain ⟨-, g, hu⟩ := expression_returns hs h
    refine yields_scalar (g.ready hs) ?_ id id ?_
    · rw [hu.type]
      exact (Expr.irType_cases _).resolve_right (by rintro ⟨⟩)
    · cases h
      exact Codegen.segment_skip hs rfl id g.next
  | binaryOperation l r op ihl ihr =>
    intro s s' L v hs hsane hK h
    obtain ⟨-, g, hv⟩ := expression_returns hs h
    unfold expression at h
    obtain ⟨l₁, s₁, left, l₂, s₂, right, l₃, he, hs₁, he', hs₂, hop, rfl, hul, hur, htl, htr⟩ :=
      operands_return hs h
    have hops := yields_operands hs hsane hK ihl ihr he he'
    rw [← List.append_assoc]
    unfold binaryOperation at hop
    simp only [isVariantType_iff, htl, htr] at hop
    split_ifs at hop with hvar
    · obtain ⟨ho, b⟩ := hop.sat (segment_variantBinaryOperation hs₂ hul hur hops.held)
      exact hops.yields Iff.rfl (iff_of_true ho hvar) b
    · obtain ⟨hvl, hvr⟩ := not_or.1 hvar
      have hsl := l.irType_cases.resolve_right hvl
      have hsr := r.irType_cases.resolve_right hvr
      refine hops.numeric hs₂ (htl ▸ hsl) (htr ▸ hsr) ?_ (g.ready hs) Iff.rfl hvar hop
      rw [hv.type]
      exact (Expr.irType_cases _).resolve_right fun ht =>
        hvar (Expr.binaryType_eq_variant (.inl hsl) ht)
  | comparison l r op ihl ihr =>
    intro s s' L v hs hsane hK h
    obtain ⟨-, g, hv⟩ := expression_returns hs h
    unfold expression at h
    obtain ⟨l₁, s₁, left, l₂, s₂, right, l₃, he, hs₁, he', hs₂, hop, rfl, hul, hur, htl, htr⟩ :=
      operands_return hs h
    have hops := yields_operands hs hsane hK ihl ihr he he'
    rw [← List.append_assoc]
    have hscalar : v.type.IsScalar := by
      rw [hv.type]
      exact isScalar_comparisonType op l.irType_cases
    unfold comparison at hop
    simp only [isVariantType_iff, htl, htr] at hop
    split_ifs at hop with hvar
    · have b := hop.sat (segment_variantComparison hs₂ hul hur hops.held)
      have ho := not_owned_of_scalar (g.ready hs) hscalar
      refine hops.yields Iff.rfl (iff_of_false ho id) ?_
      rwa [Codegen.hold_eq_zero.2 ho, zero_sub]
    · obtain ⟨hvl, hvr⟩ := not_or.1 hvar
      exact hops.numeric hs₂ (htl ▸ l.irType_cases.resolve_right hvl)
        (htr ▸ r.irType_cases.resolve_right hvr) hscalar (g.ready hs) Iff.rfl id hop
  | unaryOperation e op ih =>
    intro s s' L v hs hsane hK h
    obtain ⟨-, g, hv⟩ := expression_returns hs h
    unfold expression at h
    obtain ⟨l₁, s₁, u, l₂, he, hs₁, hop, rfl, hu, ht⟩ := operand_returns hs h
    obtain ⟨-, leak, hn, b₁, hz⟩ := ih hs hsane hK he
    have hle : hold s₁ u ≤ s₁.references := by
      rw [b₁.references]
      exact le_add_of_nonneg_of_le hsane (le_add_of_nonneg_right hn)
    unfold unaryOperation at hop
    simp only [isVariantType_iff, ht] at hop
    split_ifs at hop with hvar
    · obtain ⟨ho, b₂⟩ := hop.sat (segment_variantUnaryOperation hs₁ hu hle)
      exact ⟨iff_of_true ho hvar, leak, hn, (b₁.trans b₂).congr (by abel), hz⟩
    · have hscalar := e.irType_cases.resolve_right hvar
      have hhold := Codegen.hold_eq_zero.2 (not_owned_of_scalar hs₁ (ht ▸ hscalar))
      have ho := not_owned_of_scalar (g.ready hs) (hv.type ▸ hscalar)
      have hread : ∀ w ∈ [u], s₁.Readable w :=
        List.forall_mem_singleton.2 (Codegen.readable_of_type (ht ▸ hscalar.ne_variant))
      have b₂ : Segment s₁ l₂ s' 0 := by
        cases op with
        | numericPositive =>
          cases hop
          exact Codegen.segment_skip hs₁ rfl id le_rfl
        | numericNegative | booleanNegation => exact (hop.sat (segment_createOperation hs₁ hread)).1
      refine ⟨iff_of_false ho hvar, leak, hn, (b₁.trans b₂).congr ?_, hz⟩
      rw [hhold, Codegen.hold_eq_zero.2 ho, add_zero]

end LLVMVisitor

end B2
