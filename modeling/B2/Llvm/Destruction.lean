import B2.Llvm.Functions
import B2.Llvm.Ownership

/-!
# Destruction of variants

On every path through the code of a tree, what the generated code owns is
destroyed once and not used afterwards (`Leaves`). A for block gives the
reference to its key back at the end of each turn, so its turns are alike.
-/

namespace B2

open Effect.Traced (Sat Returns returns_bind sat_bind sat_pure sat_tell sat_get sat_modify)
open PHPBindings LLVMVisitor
open Php (Code Wrote Spans)

/-- The keys of loops in the body of a for block. -/
def bindKeys (k v : Option Text) (K : Text → Prop) : Text → Prop :=
  fun x => v ≠ some x ∧ (k = some x ∨ K x)

namespace AST

/-- A method call in the tree has an argument that the generated code owns. -/
def Leaks : AST → (Text → Prop) → Prop
  | .statements l, K => LeaksList l K
  | .rawBlock _, _ | .includeBlock .., _ => False
  | .printBlock e, K => e.Leaks K
  | .ifBlock c t none, K => c.Leaks K ∨ t.Leaks K
  | .ifBlock c t (some e), K => c.Leaks K ∨ t.Leaks K ∨ e.Leaks K
  | .forBlock k v i b none, K => i.Leaks K ∨ b.Leaks (bindKeys k v K)
  | .forBlock k v i b (some e), K => i.Leaks K ∨ b.Leaks (bindKeys k v K) ∨ e.Leaks K
where
  LeaksList : List AST → (Text → Prop) → Prop
    | [], _ => False
    | s :: l, K => s.Leaks K ∨ LeaksList l K

theorem leaks_ifBlock {c : Expression} {t : AST} {e : Option AST} {K : Text → Prop} :
    (ifBlock c t e).Leaks K ↔ c.Leaks K ∨ t.Leaks K ∨ (elseOf e).Leaks K := by
  cases e <;> simp [Leaks, elseOf, Leaks.LeaksList]

theorem leaks_forBlock {k v : Option Text} {i : Expression} {b : AST} {e : Option AST}
    {K : Text → Prop} :
    (forBlock k v i b e).Leaks K ↔
      i.Leaks K ∨ b.Leaks (bindKeys k v K) ∨ (elseOf e).Leaks K := by
  cases e <;> simp [Leaks, elseOf, Leaks.LeaksList]

end AST

namespace LLVMVisitor

open Codegen (Balance Segment hold)

section

variable {B : IRBuilder} {K : Text → Prop} {s s' : Codegen} {loop : Nat} {k v : Option Text}
  {it : Value} {l : List IRAction} {f : LoopFrame}

/-! ## Prints -/

theorem segment_printCall {u : Value} (hs : s.Ready) (hu : s.Readable u) :
    Sat (createPrintCall u) s (fun l s' _ => Segment s l s' 0) fun _ _ _ => True := by
  have hcall : ∀ f : RuntimeFunction, f.returnType = .void →
      Segment s [.call s.next f [u, .argument 1]] (Gen.bump s) 0 := by
    intro f hf
    refine segment_call _ _ hs (by rw [hf]; decide) ?_ ?_ ?_
    · cases f <;> rfl
    · cases f <;> rfl
    · simp only [List.forall_mem_cons, List.not_mem_nil, false_imp_iff, implies_true, and_true]
      exact ⟨.inl hu, .inl (Codegen.readable_of_type (by decide))⟩
  unfold createPrintCall getPrintMethodForType
  rw [sat_bind]
  split_ifs <;> first | exact hcall _ rfl | trivial

theorem segment_printText {text : Text} (hs : s.Ready) :
    Sat (printText text) s (fun l s' _ => Segment s l s' 0) fun _ _ _ => True := by
  unfold printText
  rw [sat_bind, Gen.sat_createGlobalStringPtr]
  refine Sat.bind (segment_printCall ((Gen.grows_bump s).ready hs) readable_globalString) ?_
    fun _ _ _ _ => trivial
  rintro l s' _ b
  rw [sat_pure, List.append_nil]
  exact (Codegen.segment_bump hs).before b

theorem segment_printValue {u : Value} (hs : s.Ready) (hu : s.Usable u)
    (h : hold s u ≤ s.references) :
    Sat (printValue u) s (fun l s' _ => Segment s l s' (-hold s u)) fun _ _ _ => True := by
  unfold printValue
  have hcall := Sat.and (segment_printCall hs (Codegen.Usable.readable hs hu h))
    (gives_printCall (R := fun _ => False) hs hu)
  refine Sat.bind hcall ?_ fun _ _ _ _ => trivial
  rintro l₁ s₁ _ ⟨b₁, -, g₁, -⟩
  have hs₁ := g₁.ready hs
  have hhold := b₁.hold hs₁ hu
  unfold releasePrinted
  simp only [isVariantType_iff]
  split_ifs with hvar
  · refine (segment_outOfScope hs₁ (g₁.counted _ ((hu.counted_iff hs).2 hvar)) ?_).mono ?_
      fun _ _ _ _ => trivial
    · rwa [hhold, b₁.references, add_zero]
    · rintro l₂ s₂ - b₂
      refine (b₁.before b₂).congr ?_
      rw [hhold]
  · rw [sat_pure, List.append_nil]
    refine b₁.congr ?_
    rw [Codegen.hold_eq_zero.2, neg_zero]
    exact fun ho => hvar (hs.made ho.counted).type

/-! ## The variables of a loop -/

theorem typed_readMetadata (it : Value) (hm : s.MetadataTyped) :
    (readMetadata s it).hashTable.type ≠ .variant ∧
      (readMetadata s it).hashPosition.type ≠ .variant := by
  unfold readMetadata
  cases hmd : s.forLoopMetadata it with
  | none => exact ⟨fun h => (nomatch h), fun h => nomatch h⟩
  | some metadata => exact hm it metadata hmd

/-- The log of the variables of a loop, in which the key is acquired. -/
structure LoadsVariables (s : Codegen) (l : List IRAction) (s' : Codegen) (key : Option Value) :
    Prop where
  items : ∀ x ∈ l, x.items = [.emit (.op x)]
  results : ∀ x ∈ l, ∀ u, x.result = some u → u.Between s.next s'.next
  operands : ∀ x ∈ l, ∀ u ∈ x.operands, u.type ≠ .variant
  destroyed : ∀ x ∈ l, x.destroyed = none
  slots : OwnSlots l s.next s'.next
  acquired : ∀ u, Acquired l u ↔ key = some u
  lives : ∀ u, key = some u → lives u false l = some true

theorem getVariables_loads {hasKey hasValue : Bool} {E : List IRAction → Codegen → Failure → Prop}
    (hm : s.MetadataTyped) :
    Sat (createForLoopGetVariables loop it hasKey hasValue) s
      (fun l s' p => LoadsVariables s l s' p.1) E := by
  obtain ⟨htable, hposition⟩ := typed_readMetadata it hm
  unfold createForLoopGetVariables
  simp only [sat_bind, sat_pure, Gen.sat_createCall, sat_getForLoopMetadata, sat_loopVariablePtr,
    sat_loadLoopVariable]
  have hne : ∀ id, Value.instruction id .variant ≠ (readMetadata s it).hashTable ∧
      Value.instruction id .variant ≠ (readMetadata s it).hashPosition := fun id =>
    ⟨fun h => htable (by rw [← h]; rfl), fun h => hposition (by rw [← h]; rfl)⟩
  have hloads : ∀ {l : List IRAction} {n n' : Nat}, (∀ x ∈ l, ∀ id p, x = .load id p →
      p.type = .pointer .variant → p.Between n n') →
        ∀ id p, .load id p ∈ l → p.type = .pointer .variant → p.Between n n' :=
    fun h id p hx => h _ hx id p rfl
  cases hasKey <;> cases hasValue
  all_goals
    simp only [Bool.false_eq_true, if_true, if_false, List.nil_append, List.cons_append, Gen.bump,
      withCount, withMetadata, Gen.elementType, Value.type]
    refine ⟨by simp [IRAction.items], ?_, ?_, by simp [IRAction.destroyed], ⟨?_, hloads ?_⟩, ?_, ?_⟩
    · simp [IRAction.result, Value.Between, add_assoc]
    · simp [IRAction.operands, htable, hposition]
    · simp [IRAction.resultSlot, Value.Between, add_assoc]
    · simp [Value.Between, add_assoc]
    · simp [Acquired, IRAction.resultSlot, eq_comm]
  · rintro u hu
    cases hu
  · rintro u hu
    cases hu
  · rintro u hu
    cases hu
    refine lives_of_result [.alloca _ _ _, .call _ _ _] [] rfl ?_ (by simp)
    simp [IRAction.Mentions, IRAction.result, IRAction.operands, hne]
  · rintro u hu
    cases hu
    refine lives_of_result [.alloca _ _ _, .alloca _ _ _, .call _ _ _] [.load _ _] rfl ?_ ?_
    · simp [IRAction.Mentions, IRAction.result, IRAction.operands, hne]
    · simp [IRAction.Mentions, IRAction.result, IRAction.operands]

theorem typed_update {metadata : ForLoopMetadata} (hm : s.MetadataTyped)
    (h : metadata.hashTable.type ≠ .variant ∧ metadata.hashPosition.type ≠ .variant)
    (hs' : s'.forLoopMetadata = Function.update s.forLoopMetadata it (some metadata)) :
    s'.MetadataTyped := by
  intro it' metadata' hmd
  rw [hs', Function.update_apply] at hmd
  split_ifs at hmd
  · cases hmd
    exact h
  · exact hm it' metadata' hmd

theorem segment_getVariables {hasKey hasValue : Bool} (hs : s.Ready) (hm : s.MetadataTyped) :
    Sat (createForLoopGetVariables loop it hasKey hasValue) s
      (fun l s' p => Segment s l s' (Codegen.acquires p.1) ∧ s'.Ready) fun _ _ _ => True := by
  have hspec : Sat (createForLoopGetVariables loop it hasKey hasValue) s _ fun _ _ _ => True :=
    getVariables_spec
  refine (hspec.and (getVariables_loads (E := fun _ _ _ => True) hm)).mono ?_ fun _ _ _ _ => trivial
  rintro l s' ⟨key, value⟩ ⟨h, hl⟩
  have hnew : ∀ u, s.Counted u → value ≠ some u ∧ key ≠ some u := fun u hu =>
    ⟨fun hv => (h.made u (.inr hv)).1.not_counted hs hu,
      fun hk => (h.made u (.inl hk)).1.not_counted hs hu⟩
  have hleaf : Codegen.Leaf s l s' key :=
    { next := h.next
      counts := fun u hu => by rw [h.counts, if_neg (hnew u hu).1, if_neg (hnew u hu).2]
      made := fun u hu => by
        unfold Codegen.Counted at hu ⊢
        rw [h.counts] at hu
        split_ifs at hu with hv hk
        · exact .inr (h.made u (.inr hv)).1
        · exact .inr (h.made u (.inl hk)).1
        · exact .inl hu
      owned := fun u hu ho => by
        obtain ⟨c, hc, hne⟩ := ho
        rw [h.counts] at hc
        split_ifs at hc with hv hk
        · cases hc
          exact absurd rfl hne
        · exact hk
        · exact absurd (Codegen.counted_of_count hc) hu
      count := fun u hu =>
        ⟨(h.made u (.inl hu)).1, by rw [h.counts, if_neg (h.distinct u hu), if_pos hu]⟩
      uses := fun x hx => ⟨hl.results x hx,
        fun u hu => .inl (Codegen.readable_of_type (hl.operands x hx u hu)), hl.destroyed x hx⟩
      slots := hl.slots
      acquired := hl.acquired
      lives := hl.lives
      metadata := fun hm => typed_update hm (typed_readMetadata _ hm) h.metadata }
  have b := hleaf.segment hs (Codegen.exists_straight hl.items h.next)
  refine ⟨b, fun {x u} hx => ?_, fun {u} hu => ?_⟩
  · rw [h.overriden] at hx
    exact b.counted u (hs.overriden hx)
  · by_cases hc : s.Counted u
    · exact (hs.made hc).mono h.next
    · have hu' := hu
      unfold Codegen.Counted at hu' hc
      rw [h.counts] at hu'
      split_ifs at hu' with hv hk
      · exact (h.made u (.inr hv)).2
      · exact (h.made u (.inl hk)).2
      · exact absurd hu' hc

/-! ## Loops -/

theorem segment_forLoopInit (hs : s.Ready) (hit : s.Readable it) :
    Sat (createForLoopInit B loop it) s (fun l s' _ => Segment s l s' 0 ∧ s'.Ready)
      fun _ _ _ => False := by
  unfold createForLoopInit
  rw [sat_bind, Gen.sat_createAlloca, sat_bind, Gen.sat_createCall, sat_bind, sat_setForLoopMetadata]
  have g₁ := Gen.grows_bump s
  have g₂ := g₁.trans (Gen.grows_bump _)
  have b₁ := segment_alloca (.pointer (.struct .bucket)) 1 hs
  have b₂ : Segment (Gen.bump s) [.call (s.next + 1) (.forloopInit loop)
      [it, .instruction s.next (.pointer (.pointer (.struct .bucket)))]]
      (Gen.bump (Gen.bump s)) 0 := by
    refine segment_call _ _ (g₁.ready hs) (by simp [RuntimeFunction.returnType]) rfl rfl ?_
    simp only [List.forall_mem_cons, List.not_mem_nil, false_imp_iff, implies_true, and_true]
    exact ⟨.inl (Codegen.Readable.mono hit b₁.toBalance le_rfl),
      .inl (Codegen.readable_of_type (by simp))⟩
  have hs₂ := g₂.ready hs
  have hs₃ : (withMetadata (Gen.bump (Gen.bump s)) it (some ⟨.instruction (s.next + 1) .hashTable,
      .instruction s.next (.pointer (.pointer (.struct .bucket)))⟩)).Ready :=
    ⟨hs₂.overriden, hs₂.made⟩
  have b₃ : Segment (Gen.bump (Gen.bump s)) [] (withMetadata (Gen.bump (Gen.bump s)) it
      (some ⟨.instruction (s.next + 1) .hashTable,
        .instruction s.next (.pointer (.pointer (.struct .bucket)))⟩)) 0 :=
    Codegen.segment_skip hs₂ rfl (fun hm => typed_update hm ⟨by simp, by simp⟩ rfl) le_rfl
  refine (segment_createOperation hs₃ (List.forall_mem_singleton.2
    (Codegen.readable_of_type (by simp [RuntimeFunction.returnType])))).mono ?_ fun _ _ _ h => h
  rintro l s' _ ⟨b₄, g₄, -⟩
  exact ⟨b₁.before (b₂.before (b₃.before b₄)), g₄.ready hs₃⟩

/-- What `enterLoop` writes: the initialisation and, in the body, the variables. -/
structure Enters (s : Codegen) (l : List IRAction) (s' : Codegen) (f : LoopFrame)
    (l₁ : List IRAction) (s₁ : Codegen) (c : Value) (l₂ : List IRAction) : Prop where
  loopBlock : f.loopBlock = s.next
  loopElseBlock : f.loopElseBlock = s.next + 1
  afterLoopBlock : f.afterLoopBlock = s.next + 2
  log : l = [.createBlock s.next true, .createBlock (s.next + 1) true,
    .createBlock (s.next + 2) true] ++ l₁ ++
      [.condBr c s.next (s.next + 1), .setInsertPoint s.next] ++ l₂
  ready : s₁.Ready
  init : Segment (withBlocks s) l₁ s₁ 0
  loopVariables : Segment s₁ l₂ s' (Codegen.acquires f.keyVariable)

theorem enters_enterLoop (hs : s.Ready) (hm : s.MetadataTyped) (hit : s.Readable it) :
    Sat (enterLoop B loop k v it) s (fun l s' f => ∃ l₁ s₁ c l₂, Enters s l s' f l₁ s₁ c l₂)
      fun _ _ _ => True := by
  unfold enterLoop
  simp only [sat_bind, Gen.sat_createBasicBlock]
  have hs₀ : (withBlocks s).Ready := ready_withBlocks hs
  refine Sat.mono (segment_forLoopInit (s := withBlocks s) hs₀ hit) ?_ fun _ _ _ _ => trivial
  rintro l₁ s₁ c ⟨b₁, hs₁⟩
  simp only [sat_tell, sat_get]
  refine Sat.mono (segment_getVariables hs₁ (b₁.metadata hm)) ?_ fun _ _ _ _ => trivial
  rintro l₂ s₂ ⟨key, value⟩ ⟨b₂, hs₂⟩
  simp only [sat_setOverriden, sat_pure]
  have hnote := Codegen.segment_note (x := .loopVariables loop key value) hs₂ rfl trivial
  refine ⟨l₁, s₁, c, l₂ ++ [.loopVariables loop key value], rfl, rfl, rfl, ?_, hs₁, b₁, ?_⟩
  · simp only [List.append_assoc, List.nil_append, List.append_nil]
    rfl
  · have b := (b₂.trans hnote).congr (add_zero _)
    refine b.of_eq ?_ ?_ ?_ <;> rfl

/-- The value of a loop goes out of scope. -/
theorem sat_destroyLoopVariable {value : Option Value} {E : List IRAction → Codegen → Failure → Prop}
    (hvalue : ∀ u, value = some u → s.Counted u ∧ ¬s.Owned u)
    {Q : List IRAction → Codegen → Unit → Prop} :
    Sat (destroyLoopVariable value) s Q E ↔ Q [] s () := by
  cases value with
  | none => rfl
  | some u =>
    obtain ⟨hc, ho⟩ := hvalue u rfl
    show Sat (variableGoesOutOfScope u) s Q E ↔ _
    rw [sat_outOfScope, Codegen.count_of_not_owned hc ho]
    simp only [if_true]

/-- The key of a loop goes out of scope. -/
theorem segment_destroyLoopVariable {key : Option Value} (hs : s.Ready)
    (hkey : ∀ u, key = some u → s.Owned u) (h : Codegen.acquires key ≤ s.references) :
    Sat (destroyLoopVariable key) s
      (fun l s' _ => Segment s l s' (-Codegen.acquires key)) fun _ _ _ => False := by
  cases key with
  | none => exact (Codegen.segment_skip hs rfl id le_rfl).congr neg_zero.symm
  | some u =>
    have ho := hkey u rfl
    have hhold : hold s u = Codegen.acquires (some u) := Codegen.hold_of_owned ho
    rw [← hhold] at h ⊢
    exact segment_outOfScope hs ho.counted h

/-- The key of a loop goes out of scope, its value is borrowed. -/
theorem segment_leaveLoop (hs : s.Ready) (hm : s.MetadataTyped)
    (hkey : ∀ u, f.keyVariable = some u → s.Owned u)
    (hvalue : ∀ u, f.valueVariable = some u → s.Counted u ∧ ¬s.Owned u)
    (h : Codegen.acquires f.keyVariable ≤ s.references) :
    Sat (leaveLoop loop k v it f) s
      (fun l s' _ => ∃ l₁ c, l = l₁ ++ [.condBr c f.loopBlock f.afterLoopBlock,
          .setInsertPoint f.loopElseBlock] ∧ Segment s l₁ s' (-Codegen.acquires f.keyVariable))
      (fun _ _ _ => False) := by
  unfold leaveLoop
  have hfirst := (segment_destroyLoopVariable hs hkey h).and
    (gives_destroyLoopVariable (R := fun _ => False) hs fun u hu => (hkey u hu).counted)
  refine Sat.bind hfirst ?_ fun _ _ _ h => h.1
  rintro l₁ s₁ - ⟨b₁, -, g₁, -⟩
  have hs₁ := g₁.ready hs
  have hvalue₁ : ∀ u, f.valueVariable = some u → s₁.Counted u ∧ ¬s₁.Owned u := by
    intro u hu
    obtain ⟨hc, ho⟩ := hvalue u hu
    exact ⟨g₁.counted u hc, fun h => ho ((b₁.owned u hc).1 h)⟩
  rw [sat_bind, sat_destroyLoopVariable hvalue₁]
  unfold createForLoopNextIteration
  simp only [sat_bind, sat_tell, sat_setOverriden, sat_getForLoopMetadata, Gen.sat_createCall]
  have hm₁ := b₁.metadata hm
  have hread := typed_readMetadata it hm₁
  have hs₂ : (withMetadata s₁ it (some (readMetadata s₁ it))).Ready := ⟨hs₁.overriden, hs₁.made⟩
  have b₂ : Segment s₁ [] (withMetadata s₁ it (some (readMetadata s₁ it))) 0 :=
    Codegen.segment_skip hs₁ rfl (fun hm => typed_update hm hread rfl) le_rfl
  have b₃ := segment_call (.forloopNext loop)
    [(readMetadata s₁ it).hashTable, (readMetadata s₁ it).hashPosition] hs₂
    (by simp [RuntimeFunction.returnType]) rfl rfl (by
      simp only [List.forall_mem_cons, List.not_mem_nil, false_imp_iff, implies_true, and_true]
      exact ⟨.inl (Codegen.readable_of_type hread.1), .inl (Codegen.readable_of_type hread.2)⟩)
  have b := (b₁.trans (b₂.before b₃)).congr (add_zero _)
  refine ⟨_, .instruction s₁.next .int1, ?_, b.of_eq ?_ ?_ ?_⟩
  · exact (List.append_assoc l₁ [_] _).symm
  all_goals rfl

theorem segment_finishLoop (hs : s.Ready) (hit : s.Counted it) (h : hold s it ≤ s.references) :
    Sat (finishLoop it f) s
      (fun l s' _ => ∃ l₁, l = [.br f.afterLoopBlock, .setInsertPoint f.afterLoopBlock] ++ l₁ ∧
        Segment s l₁ s' (-hold s it)) (fun _ _ _ => False) := by
  unfold finishLoop createForLoopCleanup
  simp only [sat_bind, sat_tell, sat_setForLoopMetadata]
  have hs' : (withMetadata s it none).Ready := ⟨hs.overriden, hs.made⟩
  refine (segment_outOfScope (s := withMetadata s it none) hs' hit h).mono ?_ fun _ _ _ h => h
  rintro l s' - b
  have b₀ : Segment s [] (withMetadata s it none) 0 := by
    refine Codegen.segment_skip hs rfl (fun hm it' metadata hmd => ?_) le_rfl
    simp only [withMetadata, Function.update_apply] at hmd
    split_ifs at hmd
    exact hm it' metadata hmd
  exact ⟨l, rfl, b₀.before b⟩

end

/-! ## Paths -/

theorem Wrote.trace_subset {l : List IRAction} {s s' : Codegen} {c : Code} {xs : List IRAction}
    (h : Wrote l s s' c) (hxs : c.Trace xs) : xs ⊆ l := by
  intro x hx
  have hop := Cfg.Code.mem_ops_iff.1 (hxs.subset hx)
  rw [h.items, List.mem_flatMap] at hop
  obtain ⟨y, hy, hop⟩ := hop
  have hxy : x = y := by
    unfold IRAction.items at hop
    split at hop <;> simp_all
  exact hxy ▸ hy

/-- A path through a part of a visit, and the variants that are alive before and after it. -/
structure Route (s : Codegen) (l : List IRAction) (s' : Codegen) (δ : Value → ℤ)
    (xs : List IRAction) : Prop extends Balance s l s' δ where
  subset : xs ⊆ l
  lives : s.Lives xs s'

/-- Part of a visit; if `p`, the paths through its code keep to the lifetimes of variants. -/
structure Part (p : Prop) (s : Codegen) (l : List IRAction) (s' : Codegen) (δ : Value → ℤ) : Prop
    extends Balance s l s' δ where
  code : ∃ c, Wrote l s s' c ∧ (p → ∀ xs, c.Trace xs → s.Lives xs s')

section

variable {p q : Prop} {s s₁ s₂ s₃ s₄ s₅ s' s'' : Codegen} {δ δ' δ₁ δ₂ δ₃ δ₄ δ₅ : Value → ℤ}
  {l l' l₁ l₂ l₃ l₄ l₅ xs ys : List IRAction}

theorem Route.append (h : Route s l s' δ xs) (h' : Route s' l' s'' δ' ys) :
    Route s (l ++ l') s'' (δ + δ') (xs ++ ys) where
  toBalance := h.toBalance.trans h'.toBalance
  subset := List.append_subset.2 ⟨List.subset_append_of_subset_left _ h.subset,
    List.subset_append_of_subset_right _ h'.subset⟩
  lives := .append h.toBalance h'.toBalance h.subset h.lives h'.lives

/-- A path that goes past a part without references. -/
theorem route_nil (h : Balance s l s' δ) (hδ : δ = 0) : Route s l s' δ [] where
  toBalance := h
  subset := List.nil_subset l
  lives := Codegen.lives_nil (by rw [h.references, hδ, add_zero])

theorem Part.congr (h : Part p s l s' δ) (hδ : δ = δ') : Part p s l s' δ' := hδ ▸ h

theorem Part.mono (h : Part p s l s' δ) (hq : q → p) : Part q s l s' δ where
  toBalance := h.toBalance
  code := by
    obtain ⟨c, hc, hlives⟩ := h.code
    exact ⟨c, hc, fun h => hlives (hq h)⟩

theorem Part.seq (h : Part p s l s' δ) (h' : Part p s' l' s'' δ') :
    Part p s (l ++ l') s'' (δ + δ') where
  toBalance := h.toBalance.trans h'.toBalance
  code := by
    obtain ⟨c, hc, hlives⟩ := h.code
    obtain ⟨d, hd, hlives'⟩ := h'.code
    refine ⟨c.seq d, hc.seq hd, fun hp => ?_⟩
    rintro _ ⟨xs, ys, hxs, hys, rfl⟩
    exact .append h.toBalance h'.toBalance (Wrote.trace_subset hc hxs) (hlives hp xs hxs)
      (hlives' hp ys hys)

theorem part_of_segment (h : Segment s l s' δ) : Part p s l s' δ where
  toBalance := h.toBalance
  code := by
    obtain ⟨c, hc, hstraight⟩ := h.code
    refine ⟨c, hc, fun _ xs hxs u hu => ?_⟩
    rw [hstraight xs hxs]
    exact h.lives u hu

/-- Blocks and jumps. -/
theorem route_silent (hs : s.Ready) (hn : s.next ≤ s'.next)
    (hc : s'.variablesRefCount = s.variablesRefCount) (hm : s'.forLoopMetadata = s.forLoopMetadata)
    (h : ∀ x ∈ l, x.Silent) : Route s l s' 0 [] :=
  route_nil (Codegen.balance_silent hs hc hm hn h) rfl

/-- Two branches that add no references. -/
theorem Part.ite {v : Value} (hs₁ : s₁.Ready) (hs₂ : s₂.Ready) (hs₃ : s₃.Ready)
    (ht : Part p (withBlocks s₁) l₂ s₂ δ₂) (he : Part p s₂ l₃ s₃ δ₃) (h₂ : p → δ₂ = 0)
    (h₃ : p → δ₃ = 0) :
    Part p s₁ (ifHead v s₁.next ++ l₂ ++ ifNext (s₁.next + 2) (s₁.next + 1) ++ l₃ ++
      ifNext (s₁.next + 2) (s₁.next + 2)) s₃ (δ₂ + δ₃) := by
  have hhead : Route s₁ (ifHead v s₁.next) (withBlocks s₁) 0 [] :=
    route_silent hs₁ (Nat.le_add_right _ 3) rfl rfl (by simp [ifHead, IRAction.Silent])
  have helse : Route s₂ (ifNext (s₁.next + 2) (s₁.next + 1)) s₂ 0 [] :=
    route_silent hs₂ le_rfl rfl rfl (by simp [ifNext, IRAction.Silent])
  have hmerge : Route s₃ (ifNext (s₁.next + 2) (s₁.next + 2)) s₃ 0 [] :=
    route_silent hs₃ le_rfl rfl rfl (by simp [ifNext, IRAction.Silent])
  obtain ⟨ct, hct, hlives⟩ := ht.code
  obtain ⟨ce, hce, hlives'⟩ := he.code
  have hb := (((hhead.toBalance.trans ht.toBalance).trans helse.toBalance).trans
    he.toBalance).trans hmerge.toBalance
  refine ⟨hb.congr (by simp), _, Php.wrote_ite hct hce, fun hp => ?_⟩
  rintro xs (hxs | hxs)
  · have hthen : Route (withBlocks s₁) l₂ s₂ δ₂ xs :=
      ⟨ht.toBalance, Wrote.trace_subset hct hxs, hlives hp xs hxs⟩
    have h := (((hhead.append hthen).append helse).append
      (route_nil he.toBalance (h₃ hp))).append hmerge
    simpa using h.lives
  · have hother : Route s₂ l₃ s₃ δ₃ xs :=
      ⟨he.toBalance, Wrote.trace_subset hce hxs, hlives' hp xs hxs⟩
    have h := (((hhead.append (route_nil ht.toBalance (h₂ hp))).append helse).append
      hother).append hmerge
    simpa using h.lives

/-- Every turn leaves the variant as it was. -/
theorem lives_turns {R : List IRAction → Prop} {u : Value} {b : Bool}
    (hR : ∀ xs, R xs → lives u b xs = some b) (h : Cfg.Turns R xs) : lives u b xs = some b := by
  induction h with
  | one h => exact hR _ h
  | more h _ ih => rw [lives_append, hR _ h, Option.bind_some, ih]

/-- The log of a loop whose blocks are numbered from `n`: initialisation, turn and else body. -/
def loopLog (c again : Value) (n : Nat) (init turn els : List IRAction) : List IRAction :=
  [.createBlock n true, .createBlock (n + 1) true, .createBlock (n + 2) true] ++ init ++
    [.condBr c n (n + 1), .setInsertPoint n] ++ turn ++
      [.condBr again n (n + 2), .setInsertPoint (n + 1)] ++ els ++
        [.br (n + 2), .setInsertPoint (n + 2)]

theorem wrote_loop {c again : Value} {ci cb ce : Code} (hi : Wrote l₁ (withBlocks s) s₁ ci)
    (hb : Wrote l₂ s₁ s₂ cb) (he : Wrote l₃ s₂ s₃ ce) :
    Wrote (loopLog c again s.next l₁ l₂ l₃) s s₃
      (.loop s.next (s.next + 1) (s.next + 2) ci c cb again ce) where
  items := by
    simp only [loopLog, Cfg.Code.items, List.flatMap_append, hi.items, hb.items, he.items]
    rfl
  spans := by
    refine ((hi.spans.seq hb.spans).seq he.spans).around (List.perm_iff_count.2 fun x => ?_)
    simp only [Cfg.Code.labels, List.count_append, List.count_cons, List.count_nil]
    omega

/-- A loop whose turns add no references, and its else body. -/
theorem Part.loop (c again : Value) (hs : s.Ready) (hs₁ : s₁.Ready) (hs₂ : s₂.Ready)
    (hs₃ : s₃.Ready) (hi : Part p (withBlocks s) l₁ s₁ 0) (hb : Part p s₁ l₂ s₂ δ₂)
    (he : Part p s₂ l₃ s₃ δ₃) (h₂ : p → δ₂ = 0) (h₃ : p → δ₃ = 0) :
    Part p s (loopLog c again s.next l₁ l₂ l₃) s₃ (δ₂ + δ₃) := by
  have hblocks : Route s [.createBlock s.next true, .createBlock (s.next + 1) true,
      .createBlock (s.next + 2) true] (withBlocks s) 0 [] :=
    route_silent hs (Nat.le_add_right _ 3) rfl rfl (by simp [IRAction.Silent])
  have hbody : Route s₁ [.condBr c s.next (s.next + 1), .setInsertPoint s.next] s₁ 0 [] :=
    route_silent hs₁ le_rfl rfl rfl (by simp [IRAction.Silent])
  have helse : Route s₂ [.condBr again s.next (s.next + 2), .setInsertPoint (s.next + 1)] s₂ 0 [] :=
    route_silent hs₂ le_rfl rfl rfl (by simp [IRAction.Silent])
  have hafter : Route s₃ [.br (s.next + 2), .setInsertPoint (s.next + 2)] s₃ 0 [] :=
    route_silent hs₃ le_rfl rfl rfl (by simp [IRAction.Silent])
  obtain ⟨ci, hci, hlives⟩ := hi.code
  obtain ⟨cb, hcb, hlives₂⟩ := hb.code
  obtain ⟨ce, hce, hlives₃⟩ := he.code
  have hbal := (((((hblocks.toBalance.trans hi.toBalance).trans hbody.toBalance).trans
    hb.toBalance).trans helse.toBalance).trans he.toBalance).trans hafter.toBalance
  refine ⟨hbal.congr (by simp), _, wrote_loop hci hcb hce, fun hp => ?_⟩
  rintro _ ⟨xs, ys, hxs, hys, rfl⟩
  have hinit : Route (withBlocks s) l₁ s₁ 0 xs :=
    ⟨hi.toBalance, Wrote.trace_subset hci hxs, hlives hp xs hxs⟩
  rcases hys with hys | hys
  · have hturns : Route s₁ l₂ s₂ δ₂ ys := by
      refine ⟨hb.toBalance, ?_, fun u hu => ?_⟩
      · exact Cfg.Code.subset_of_turns (fun zs hzs => Wrote.trace_subset hcb hzs) hys
      · have halive : s₂.alive u = s₁.alive u :=
          Codegen.alive_of_references (by rw [hb.references, h₂ hp, add_zero])
        rw [halive]
        refine lives_turns (fun zs hzs => ?_) hys
        rw [hlives₂ hp zs hzs u hu, halive]
    have h := (((((hblocks.append hinit).append hbody).append hturns).append helse).append
      (route_nil he.toBalance (h₃ hp))).append hafter
    simpa using h.lives
  · have hother : Route s₂ l₃ s₃ δ₃ ys :=
      ⟨he.toBalance, Wrote.trace_subset hce hys, hlives₃ hp ys hys⟩
    have h := (((((hblocks.append hinit).append hbody).append
      (route_nil hb.toBalance (h₂ hp))).append helse).append hother).append hafter
    simpa using h.lives

end

/-! ## Trees -/

section

variable {B : IRBuilder} {K : Text → Prop}

/-- A visit that returns adds the references that method calls keep. If there are none, the paths
through its code destroy what they have acquired. -/
def Leaves (K : Text → Prop) (a : AST) (s : Codegen) (l : List IRAction) (s' : Codegen) : Prop :=
  ∃ leak, 0 ≤ leak ∧ Part (leak = 0) s l s' leak ∧ (leak = 0 ↔ ¬a.Leaks K)

/-- What a visit needs: no variant was given back too often, and the loop variables and the metadata
of for blocks are in order. -/
structure Sound (K : Text → Prop) (s : Codegen) : Prop where
  sane : s.Sane
  metadata : s.MetadataTyped
  keys : Keys K s

theorem Sound.balance {s s' : Codegen} {l : List IRAction} {δ : Value → ℤ} (h : Sound K s)
    (hs : s.Ready) (hb : Balance s l s' δ) (hδ : 0 ≤ δ)
    (ho : s'.overridenVariables = s.overridenVariables) : Sound K s' :=
  ⟨hb.sane h.sane hδ, hb.metadata h.metadata, h.keys.balance hs hb hδ ho⟩

theorem Leaves.seq {a : AST} {as : List AST} {s s₁ s₂ : Codegen} {l₁ l₂ : List IRAction}
    (h : Leaves K a s l₁ s₁) (h' : Leaves K (.statements as) s₁ l₂ s₂) :
    Leaves K (.statements (a :: as)) s (l₁ ++ l₂) s₂ := by
  obtain ⟨leak₁, hn₁, b₁, hz₁⟩ := h
  obtain ⟨leak₂, hn₂, b₂, hz₂⟩ := h'
  have hzero := add_eq_zero_iff_of_nonneg hn₁ hn₂
  refine ⟨leak₁ + leak₂, add_nonneg hn₁ hn₂,
    (b₁.mono fun h => (hzero.1 h).1).seq (b₂.mono fun h => (hzero.1 h).2), ?_⟩
  rw [hzero, hz₁, hz₂]
  exact not_or.symm

theorem leaves_printBlock {e : Expression} {s s₁ s₂ : Codegen} {l₁ l₂ : List IRAction} {v : Value}
    (hs : s.Ready) (hsane : s.Sane) (hK : Keys K s) (he : Returns (expression B e) s l₁ s₁ v)
    (hs₁ : s₁.Ready) (hp : Returns (printValue v) s₁ l₂ s₂ ()) :
    Leaves K (.printBlock e) s (l₁ ++ l₂) s₂ := by
  have hv := (expression_returns hs he).2.2
  obtain ⟨-, leak, hn, b₁, hz⟩ := yields_expression (K := K) _ hs hsane hK he
  have hle : hold s₁ v ≤ s₁.references := by
    rw [b₁.references]
    exact le_add_of_nonneg_of_le hsane (le_add_of_nonneg_right hn)
  have b₂ := hp.sat (segment_printValue hs₁ hv.usable hle)
  exact ⟨leak, hn, part_of_segment ((b₁.trans b₂).congr (by abel)), hz⟩

theorem leaves_ifBlock {c : Expression} {t : AST} {e : Option AST} {s s₁ s₂ s₃ : Codegen}
    {l₁ l₂ l₃ : List IRAction} {v : Value} (hs : s.Ready) (h : Sound K s)
    (hc : Returns (expression B c) s l₁ s₁ v) (hs₁ : s₁.Ready) (hv : v.type = .int1)
    (ht : Sound K s₁ → Leaves K t (withBlocks s₁) l₂ s₂) (hs₂ : s₂.Ready)
    (ho : s₂.overridenVariables = s₁.overridenVariables)
    (he : Sound K s₂ → Leaves K (.elseOf e) s₂ l₃ s₃) (hs₃ : s₃.Ready) :
    Leaves K (.ifBlock c t e) s
      (l₁ ++ ifHead v s₁.next ++ l₂ ++ ifNext (s₁.next + 2) (s₁.next + 1) ++ l₃ ++
        ifNext (s₁.next + 2) (s₁.next + 2)) s₃ := by
  have g₁ := (expression_returns hs hc).2.1
  obtain ⟨-, leak₁, hn₁, b₁, hz₁⟩ := yields_expression (K := K) _ hs h.sane h.keys hc
  rw [Codegen.hold_eq_zero.2 (not_owned_of_scalar hs₁ (.inr (.inl hv))), zero_add] at b₁
  have h₁ := h.balance hs b₁.toBalance hn₁ g₁.overriden
  obtain ⟨leak₂, hn₂, b₂, hz₂⟩ := ht h₁
  have b₀ : Balance s₁ [] (withBlocks s₁) 0 :=
    Codegen.balance_silent hs₁ rfl rfl (Nat.le_add_right _ 3) (by simp)
  have b₁₂ : Balance s₁ l₂ s₂ leak₂ := (b₀.trans b₂.toBalance).congr (zero_add _)
  obtain ⟨leak₃, hn₃, b₃, hz₃⟩ := he (h₁.balance hs₁ b₁₂ hn₂ ho)
  have hzero₂₃ := add_eq_zero_iff_of_nonneg hn₂ hn₃
  have hzero := add_eq_zero_iff_of_nonneg hn₁ (add_nonneg hn₂ hn₃)
  refine ⟨leak₁ + (leak₂ + leak₃), add_nonneg hn₁ (add_nonneg hn₂ hn₃), ?_, ?_⟩
  · have hite := Part.ite (p := leak₁ + (leak₂ + leak₃) = 0) (v := v) hs₁ hs₂ hs₃
      (b₂.mono fun h => (hzero₂₃.1 (hzero.1 h).2).1) (b₃.mono fun h => (hzero₂₃.1 (hzero.1 h).2).2)
      (fun h => (hzero₂₃.1 (hzero.1 h).2).1) fun h => (hzero₂₃.1 (hzero.1 h).2).2
    have h := (part_of_segment b₁).seq hite
    simpa only [List.append_assoc] using h
  · rw [hzero, hzero₂₃, hz₁, hz₂, hz₃, AST.leaks_ifBlock, not_or, not_or]

/-- The names of keys in the body of a loop. -/
theorem Entered.keys {s s' : Codegen} {loop : Nat} {k v : Option Text} {it : Value}
    {l : List IRAction} {f : LoopFrame} (h : Entered s loop k v it l s' f) (hs : s.Ready)
    (hb : Balance s l s' (Codegen.acquires f.keyVariable)) (hK : Keys K s) :
    Keys (bindKeys k v K) s' ∧ (∀ u, f.keyVariable = some u → s'.Owned u) ∧
      ∀ u, f.valueVariable = some u → s'.Counted u ∧ ¬s'.Owned u := by
  have hcases : ∀ x, s'.overridenVariables x =
      if v = some x then f.valueVariable else if k = some x then f.keyVariable
        else s.overridenVariables x := by
    intro x
    rw [h.overriden]
    unfold bindLoopVariables
    rw [bindVariable_apply, bindVariable_apply]
  have hcount : ∀ u, f.keyVariable = some u → s'.variablesRefCount u = some 1 := fun u hu => by
    rw [h.counts u, if_neg (h.distinct u hu), if_pos hu]
  have hkey : ∀ u, f.keyVariable = some u → s'.Owned u := fun u hu => ⟨1, hcount u hu, by decide⟩
  have hvalue : ∀ u, f.valueVariable = some u → s'.Counted u ∧ ¬s'.Owned u := by
    intro u hu
    have hc : s'.variablesRefCount u = some (-1) := by rw [h.counts u, if_pos hu]
    refine ⟨Codegen.counted_of_count hc, ?_⟩
    rintro ⟨c, hc', hne⟩
    rw [hc] at hc'
    cases hc'
    exact hne rfl
  refine ⟨⟨fun {x u} hx => ?_, fun {x} hx => ?_, fun {x u} hx hu => ?_⟩, hkey, hvalue⟩
  · rw [hcases] at hx
    unfold bindKeys
    split_ifs at hx with hvx hkx
    · exact iff_of_false (fun h => h.1 hvx) (hvalue u hx).2
    · exact iff_of_true ⟨hvx, .inl hkx⟩ (hkey u hx)
    · rw [hb.owned u (hs.overriden hx), ← hK.bound hx]
      exact ⟨fun h => h.2.resolve_left hkx, fun h => ⟨hvx, .inr h⟩⟩
  · rw [hcases] at hx
    split_ifs at hx with hvx hkx
    · exact fun h => h.1 hvx
    · have := h.isSome_key
      rw [hx, hkx] at this
      cases this
    · exact fun h => h.2.elim hkx (hK.free hx)
  · rw [hcases] at hx
    split_ifs at hx with hvx hkx
    · exact absurd hu (hvalue u hx).2
    · rw [Codegen.references_of_owned (hcount u hx) (by decide)]
      exact one_pos
    · rw [hb.references]
      exact add_pos_of_pos_of_nonneg (hK.held hx ((hb.owned u (hs.overriden hx)).1 hu))
        (Codegen.acquires_nonneg u)

theorem leaves_forBlock {k v : Option Text} {i : Expression} {b : AST} {e : Option AST}
    {s s₁ s₂ s₃ s₄ s₅ s₆ : Codegen} {l₁ l₂ l₃ l₄ l₅ l₆ : List IRAction} {it : Value}
    {f : LoopFrame} (hs : s.Ready) (h : Sound K s)
    (hi : Returns (expression B i) (withLoop s) l₁ s₁ it) (hs₁ : s₁.Ready)
    (hf : Returns (enterLoop B s.loops k v it) s₁ l₂ s₂ f)
    (hb : Sound (bindKeys k v K) s₂ → Leaves (bindKeys k v K) b s₂ l₃ s₃) (hs₃ : s₃.Ready)
    (hl : Returns (leaveLoop s.loops k v it f) s₃ l₄ s₄ ()) (hs₄ : s₄.Ready)
    (ho : s₄.overridenVariables = s₁.overridenVariables)
    (he : Sound K s₄ → Leaves K (.elseOf e) s₄ l₅ s₅) (hs₅ : s₅.Ready)
    (hz : Returns (finishLoop it f) s₅ l₆ s₆ ()) :
    Leaves K (.forBlock k v i b e) s (l₁ ++ l₂ ++ l₃ ++ l₄ ++ l₅ ++ l₆) s₆ := by
  have hs₀ := ready_withLoop hs
  obtain ⟨-, g₁, hr⟩ := expression_returns hs₀ hi
  have b₀ : Segment s [] (withLoop s) 0 := Codegen.segment_skip hs rfl id le_rfl
  have h₀ : Sound K (withLoop s) := h.balance hs b₀.toBalance le_rfl rfl
  obtain ⟨-, leak₁, hn₁, b₁, hz₁⟩ := yields_expression i hs₀ h₀.sane h₀.keys hi
  have hhold := s₁.hold_nonneg it
  have hle₁ : hold s₁ it ≤ s₁.references := by
    rw [b₁.references]
    exact le_add_of_nonneg_of_le h₀.sane (le_add_of_nonneg_right hn₁)
  have h₁ := h₀.balance hs₀ b₁.toBalance (add_nonneg hhold hn₁) g₁.overriden
  have hit := Codegen.Usable.readable hs₁ hr.usable hle₁
  -- the head of the loop
  have hE : Entered s₁ s.loops k v it l₂ s₂ f := hf.sat (enterLoop_spec (E := fun _ _ _ => False))
  obtain ⟨li, si, c, lv, hlog⟩ := hf.sat (enters_enterLoop hs₁ h₁.metadata hit)
  have bblocks : Balance s₁ [.createBlock s₁.next true, .createBlock (s₁.next + 1) true,
      .createBlock (s₁.next + 2) true] (withBlocks s₁) 0 :=
    Codegen.balance_silent hs₁ rfl rfl (Nat.le_add_right _ 3) (by simp [IRAction.Silent])
  have bbody : Balance si [.condBr c s₁.next (s₁.next + 1), .setInsertPoint s₁.next] si 0 :=
    Codegen.balance_silent hlog.ready rfl rfl le_rfl (by simp [IRAction.Silent])
  have b₂ : Balance s₁ l₂ s₂ (Codegen.acquires f.keyVariable) := by
    rw [hlog.log]
    exact ((((bblocks.trans hlog.init.toBalance).trans bbody).trans
      hlog.loopVariables.toBalance)).congr (by simp)
  obtain ⟨hK₂, hkey, hvalue⟩ := Entered.keys hE hs₁ b₂ h₁.keys
  have h₂ : Sound (bindKeys k v K) s₂ :=
    ⟨b₂.sane h₁.sane Codegen.acquires_nonneg, b₂.metadata h₁.metadata, hK₂⟩
  -- its body
  obtain ⟨leak₃, hn₃, b₃, hz₃⟩ := hb h₂
  have hle₃ : Codegen.acquires f.keyVariable ≤ s₃.references := by
    rw [b₃.references, b₂.references]
    exact le_add_of_le_of_nonneg (le_add_of_nonneg_left h₁.sane) hn₃
  obtain ⟨ls, again, rfl, b₄⟩ := hl.sat (segment_leaveLoop hs₃ (b₃.metadata h₂.metadata)
    (fun u hu => (b₃.owned u (hkey u hu).counted).2 (hkey u hu))
    (fun u hu => ⟨b₃.counted u (hvalue u hu).1,
      fun h => (hvalue u hu).2 ((b₃.owned u (hvalue u hu).1).1 h)⟩) hle₃)
  have b₁₄ : Balance s₁ (l₂ ++ l₃ ++ ls) s₄ leak₃ :=
    ((b₂.trans b₃.toBalance).trans b₄.toBalance).congr (by abel)
  -- the else body and the end
  obtain ⟨leak₅, hn₅, b₅, hz₅⟩ := he (h₁.balance hs₁ b₁₄ hn₃ ho)
  have b₁₅ := b₁₄.trans b₅.toBalance
  have hit₅ : hold s₅ it = hold s₁ it := b₁₅.hold hs₅ hr.usable
  have hle₅ : hold s₅ it ≤ s₅.references := by
    rw [hit₅, b₁₅.references]
    exact le_add_of_le_of_nonneg hle₁ (add_nonneg hn₃ hn₅)
  obtain ⟨lf, rfl, b₆⟩ := hz.sat (segment_finishLoop hs₅ (hz.sat (finishLoop_spec hs₅)).2 hle₅)
  have hzero₃₅ := add_eq_zero_iff_of_nonneg hn₃ hn₅
  have hzero := add_eq_zero_iff_of_nonneg hn₁ (add_nonneg hn₃ hn₅)
  refine ⟨leak₁ + (leak₃ + leak₅), add_nonneg hn₁ (add_nonneg hn₃ hn₅), ?_, ?_⟩
  · have hturn : Part (leak₁ + (leak₃ + leak₅) = 0) si (lv ++ l₃ ++ ls) s₄ leak₃ :=
      (((part_of_segment hlog.loopVariables).seq (b₃.mono fun h => (hzero₃₅.1 (hzero.1 h).2).1)).seq
        (part_of_segment b₄)).congr (by abel)
    have hloop := Part.loop c again hs₁ hlog.ready hs₄ hs₅
      (part_of_segment hlog.init) hturn (b₅.mono fun h => (hzero₃₅.1 (hzero.1 h).2).2)
      (fun h => (hzero₃₅.1 (hzero.1 h).2).1) fun h => (hzero₃₅.1 (hzero.1 h).2).2
    have hpart := (((part_of_segment b₀).seq (part_of_segment b₁)).seq hloop).seq
      (part_of_segment b₆)
    rw [hlog.log, hlog.loopBlock, hlog.loopElseBlock, hlog.afterLoopBlock]
    have hpart := hpart.congr (show _ = leak₁ + (leak₃ + leak₅) by rw [hit₅]; abel)
    simpa only [loopLog, List.append_assoc, List.nil_append] using hpart
  · rw [hzero, hzero₃₅, hz₁, hz₃, hz₅, AST.leaks_forBlock, not_or, not_or]

theorem Visits.leaves {a : AST} {s s' : Codegen} {l : List IRAction} {r : Bool}
    (h : Visits B a s l s' r) : s.Ready → r = true → ∀ {K}, Sound K s → s'.Ready →
      Leaves K a s l s' := by
  induction h with
  | nil =>
    exact fun hs _ _ _ _ => ⟨0, le_rfl, part_of_segment (Codegen.segment_skip hs rfl id le_rfl),
      iff_of_true rfl id⟩
  | cons ha hs₁ has iha ihas =>
    intro hs hr K h hs₂
    obtain ⟨leak₁, hn₁, b₁, hz₁⟩ := iha hs rfl h hs₁
    have h₁ := h.balance hs b₁.toBalance hn₁ ((ha.frame hs).2 rfl)
    exact Leaves.seq ⟨leak₁, hn₁, b₁, hz₁⟩ (ihas hs₁ hr h₁ hs₂)
  | rawBlock h =>
    exact fun hs _ _ _ _ => ⟨0, le_rfl, part_of_segment (h.sat (segment_printText hs)),
      iff_of_true rfl id⟩
  | printBlock he hs₁ hp =>
    exact fun hs _ _ h _ => leaves_printBlock hs h.sane h.keys he hs₁ hp
  | ifBlock hc hs₁ hv ht hs₂ he iht ihe =>
    intro hs _ K h hs₃
    have hs₁' := ready_withBlocks hs₁
    refine leaves_ifBlock hs h hc hs₁ hv (fun h => iht hs₁' rfl ?_ hs₂) hs₂ ?_
      (fun h => ihe hs₂ rfl h hs₃) hs₃
    · exact ⟨h.sane, h.metadata, h.keys.bound, h.keys.free, h.keys.held⟩
    · exact (ht.frame hs₁').2 rfl
  | forBlock hi hs₁ hf hs₂ hb hs₃ hl hs₄ he hs₅ hz ihb ihe =>
    intro hs _ K h hs₆
    have hloop := loopVisit hf (hb.frame hs₂).1 ((hb.frame hs₂).2 rfl) hs₃ hl
    exact leaves_forBlock hs h hi hs₁ hf (fun h => ihb hs₂ rfl h hs₃) hs₃ hl hs₄ hloop.overriden
      (fun h => ihe hs₄ rfl h hs₅) hs₅ hz
  | _ => exact fun _ hr => nomatch hr

end

/-! ## Functions -/

section

variable {B : IRBuilder} {a : AST} {s s' : Codegen} {l : List IRAction}

/-- What `visit` does before `functionTeardown`. -/
def beforeTeardown (B : IRBuilder) (a : AST) : Gen Unit := do
  Effect.Traced.modify fun s => { s with next := 0, loops := 0 }
  functionSetup
  ast B a

/-- When the function is finished, each variant is borrowed or has been destroyed. -/
def GivesBack (B : IRBuilder) (a : AST) (s : Codegen) : Prop :=
  ∀ v c, (beforeTeardown B a s).state.variablesRefCount v = some c → c ≠ -1 → c = 0

/-- On every path of the function to its last return, the variants that the generated code owns are
destroyed once whenever they are made, and not used afterwards. Nothing that is borrowed is
destroyed. -/
structure DestroysOnce (B : IRBuilder) (a : AST) (s : Codegen) : Prop where
  lifetimes : ∀ xs, (functionGraph (visit B a s).log).Completes 0 xs →
    ∀ u, Acquired (visit B a s).log u → Lifetimes u xs
  borrowed : ∀ x ∈ (visit B a s).log, ∀ u, x.destroyed = some u → Acquired (visit B a s).log u ∧
    (beforeTeardown B a s).state.variablesRefCount u ≠ some (-1)

/-- Every run that comes to the last return keeps to the lifetimes of variants. -/
theorem DestroysOnce.run {Z W : Type} {R : Php.Runtime Z W} {m m' : Php.State Z W} {e : Nat}
    {is : List (Cfg.Instr Nat IRAction Value)} (h : DestroysOnce B a s)
    (he : (functionGraph (visit B a s).log).current = some e)
    (hrun : Cfg.Reaches (functionGraph (visit B a s).log) R.machine
      ⟨0, (functionGraph (visit B a s).log).code 0, m⟩ ⟨e, .ret :: is, m'⟩) :
    ∃ xs, m' = xs.foldl (fun m x => R.machine.exec x m) m ∧
      ∀ u, Acquired (visit B a s).log u → Lifetimes u xs := by
  obtain ⟨n, xs, hpath, hm⟩ := hrun.path
  exact ⟨xs, hm, h.lifetimes xs ⟨n, e, he, hpath⟩⟩

/-- The visit of a tree that compiles, from a clean visitor. -/
theorem beforeTeardown_run (hs : s.Clean) (ha : a.Compiles) :
    ∃ l s', Visits B a .start l s' true ∧ (beforeTeardown B a s).state = s' ∧
      (visit B a s).log = entryLog ++ l ++ [.retVoid] := by
  have hrun : beforeTeardown B a s = Effect.Traced.andThen ⟨entryLog, .start, .ok ()⟩
      fun _ => ast B a := by
    rw [← hs.start]
    rfl
  have hvisit : visit B a s = Effect.Traced.andThen ⟨entryLog, .start, .ok ()⟩
      fun _ => ast B a >>= fun _ => functionTeardown := by
    rw [← hs.start]
    rfl
  have h := ast_visits (B := B) a Codegen.ready_start
  unfold Sat at h
  rw [hrun, hvisit]
  cases ho : ast B a .start with
  | mk l s' r =>
    rw [ho] at h
    cases r with
    | ok u =>
      refine ⟨l, s', h, ?_, ?_⟩
      · simp only [Effect.Traced.andThen, ho]
      · show (Effect.Traced.andThen _ (fun _ => Effect.Traced.bind (ast B a) _)).log = _
        simp only [Effect.Traced.andThen, Effect.Traced.bind, ho]
        rw [List.append_assoc]
        rfl
    | error err => cases (h.compiles_iff Codegen.ready_start).1 ha

/-- Before the visit nothing is counted. -/
theorem sound_start : Sound (fun _ => False) Codegen.start where
  sane := fun _ => le_rfl
  metadata := fun _ _ h => nomatch h
  keys := {
    bound := fun h => nomatch h
    free := fun _ h => h
    held := fun h => nomatch h }

theorem not_owned_start {u : Value} : ¬Codegen.start.Owned u := by
  rintro ⟨c, hc, -⟩
  cases hc

theorem beforeTeardown_leaves (hs : s.Clean) (ha : a.Compiles) :
    ∃ l s', Leaves (fun _ => False) a .start l s' ∧ (beforeTeardown B a s).state = s' ∧
      (visit B a s).log = entryLog ++ l ++ [.retVoid] := by
  obtain ⟨l, s', h, hstate, hlog⟩ := beforeTeardown_run (B := B) hs ha
  have hframe := h.frame Codegen.ready_start
  have hready := hframe.1.ready (hframe.2 rfl) Codegen.ready_start
  exact ⟨l, s', h.leaves Codegen.ready_start rfl sound_start hready, hstate, hlog⟩

/-- The entry block and the last return acquire nothing. -/
theorem acquired_function {leak : Value → ℤ} (h : Balance .start l s' leak) {u : Value} :
    Acquired (entryLog ++ l ++ [.retVoid]) u ↔ s'.Owned u := by
  have hentry : ∀ x ∈ entryLog, x.Idle := fun x hx => IRAction.Silent.idle <| by
    revert x
    simp [entryLog, IRAction.Silent]
  have hret : ∀ x ∈ [IRAction.retVoid], x.Idle := fun x hx => IRAction.Silent.idle <| by
    revert x
    simp [IRAction.Silent]
  have hslots : OwnSlots entryLog 1 1 := ownSlots_of_idle hentry
  have hlast : OwnSlots [IRAction.retVoid] s'.next s'.next := ownSlots_of_idle hret
  rw [acquired_append (hslots.append h.slots le_rfl h.next) hlast,
    acquired_append hslots h.slots, h.acquired, or_iff_left (not_acquired_of_idle hret),
    or_iff_right (not_acquired_of_idle hentry), or_iff_right not_owned_start]

/-- What is destroyed by a function is owned. -/
theorem destroyed_function {leak : Value → ℤ} (h : Balance .start l s' leak) {x : IRAction}
    {u : Value} (hx : x ∈ entryLog ++ l ++ [.retVoid]) (hu : x.destroyed = some u) :
    s'.Owned u ∧ s'.references u = 0 := by
  rcases List.mem_append.1 hx with hx | hx
  · rcases List.mem_append.1 hx with hx | hx
    · simp only [entryLog, List.mem_cons, List.not_mem_nil, or_false] at hx
      rcases hx with rfl | rfl <;> cases hu
    · exact h.destroyed x hx u hu
  · obtain rfl := List.mem_singleton.1 hx
    cases hu

/-- What has references at the end is not destroyed on a path on which it is made. -/
theorem exists_trace_of_references {leak : Value → ℤ} {c : Code} (h : Balance .start l s' leak)
    (hc : Wrote l .start s' c) {u : Value} (hu : s'.references u ≠ 0) :
    s'.Owned u ∧ ∃ xs, c.Trace xs ∧ ¬Lifetimes u xs := by
  have howned : s'.Owned u := by
    by_contra ho
    exact hu (Codegen.references_of_not_owned ho)
  have hacquired := ((h.acquired u).1 howned).resolve_left not_owned_start
  obtain ⟨x, hx, hresult⟩ := hacquired.exists_result
  have hitems : x.items = [.emit (.op x)] := by
    unfold IRAction.result at hresult
    split at hresult <;> first | rfl | cases hresult
  have hop : x ∈ c.ops := by
    rw [Cfg.Code.mem_ops_iff, hc.items]
    exact List.mem_flatMap.2 ⟨x, hx, by rw [hitems]; exact List.mem_singleton_self _⟩
  obtain ⟨xs, hxs, hmem⟩ := c.exists_trace_of_mem hop
  refine ⟨howned, xs, hxs, fun hlife => ?_⟩
  obtain ⟨z, hz, hd⟩ := hlife.exists_destroyed hmem hresult
  exact hu (h.destroyed z (Wrote.trace_subset hc hxs hz) u hd).2

theorem destroysOnce_of_leaves (hl : Leaves (fun _ => False) a .start l s')
    (hstate : (beforeTeardown B a s).state = s')
    (hlog : (visit B a s).log = entryLog ++ l ++ [.retVoid]) :
    DestroysOnce B a s ↔ ¬a.Leaks fun _ => False := by
  obtain ⟨leak, -, hpart, hz⟩ := hl
  obtain ⟨c, hc, hlives⟩ := hpart.code
  have hb := hpart.toBalance
  have hreferences : s'.references = leak := hb.references.trans (zero_add leak)
  obtain ⟨hnodup, hgraph⟩ := functionGraph_of_wrote hc
  have hpaths : ∀ xs, (functionGraph (visit B a s).log).Completes 0 xs ↔ c.Trace xs := by
    intro xs
    rw [hlog, hgraph]
    exact c.completes_function_iff hnodup
  have hacquired : ∀ u, Acquired (visit B a s).log u ↔ s'.Owned u := by
    intro u
    rw [hlog]
    exact acquired_function hb
  rw [← hz]
  constructor
  · intro h
    funext u
    by_contra hu
    rw [← hreferences] at hu
    obtain ⟨howned, xs, hxs, hnot⟩ := exists_trace_of_references hb hc hu
    exact hnot (h.lifetimes xs ((hpaths xs).2 hxs) u ((hacquired u).2 howned))
  · intro hzero
    refine ⟨fun xs hxs u hu => ?_, fun x hx u hu => ?_⟩
    · have hlife := hlives hzero xs ((hpaths xs).1 hxs) u ((hacquired u).1 hu)
      have hend : s'.alive u = false := by
        rw [Codegen.alive, hreferences, hzero]
        rfl
      rw [hend] at hlife
      exact lifetimes_of_lives hlife
    · rw [hlog] at hx
      obtain ⟨howned, -⟩ := destroyed_function hb hx hu
      refine ⟨(hacquired u).2 howned, ?_⟩
      rw [hstate]
      obtain ⟨d, hd, hne⟩ := howned
      rw [hd]
      exact fun heq => hne (Option.some.inj heq)

theorem givesBack_of_leaves (hl : Leaves (fun _ => False) a .start l s')
    (hstate : (beforeTeardown B a s).state = s') :
    GivesBack B a s ↔ ¬a.Leaks fun _ => False := by
  obtain ⟨leak, -, hpart, hz⟩ := hl
  have hreferences : s'.references = leak := hpart.references.trans (zero_add leak)
  rw [← hz, ← hreferences, GivesBack, hstate]
  constructor
  · intro hall
    funext v
    by_cases ho : s'.Owned v
    · obtain ⟨c, hc, hne⟩ := ho
      rw [Codegen.references_of_owned hc hne]
      exact hall v c hc hne
    · exact Codegen.references_of_not_owned ho
  · intro hzero v c hc hne
    rw [← Codegen.references_of_owned hc hne, hzero]
    rfl

/-- Exactly when no method call has an argument that the generated code owns, each variant that it
owns is destroyed once on every path, and the counts say so. -/
theorem destroysOnce_iff (hs : s.Clean) (ha : a.Compiles) :
    (DestroysOnce B a s ↔ ¬a.Leaks fun _ => False) ∧
      (GivesBack B a s ↔ ¬a.Leaks fun _ => False) := by
  obtain ⟨l, s', hl, hstate, hlog⟩ := beforeTeardown_leaves (B := B) hs ha
  exact ⟨destroysOnce_of_leaves hl hstate hlog, givesBack_of_leaves hl hstate⟩

/-- `{% for k, v in xs %}{{ k }}{{ f(v) }}{% endfor %}` -/
def keysOfLoop : AST :=
  .forBlock (some ['k']) (some ['v']) (.variableReference ['x', 's'])
    (.statements [.printBlock (.variableReference ['k']),
      .printBlock (.methodCall ['f'] [some (.variableReference ['v'])])]) none

/-- The key of each turn and the value of the call are destroyed. -/
theorem destroysOnce_keysOfLoop :
    DestroysOnce .noFolding keysOfLoop .fresh ∧ GivesBack .noFolding keysOfLoop .fresh := by
  have hcompiles := (visit_returns_iff (B := .noFolding) keysOfLoop Codegen.clean_fresh).1 rfl
  have h := destroysOnce_iff (B := .noFolding) Codegen.clean_fresh hcompiles
  have hleaks : ¬keysOfLoop.Leaks fun _ => False := by
    simp [keysOfLoop, AST.leaks_forBlock, AST.elseOf, AST.Leaks, AST.Leaks.LeaksList, Expr.Leaks,
      Expr.ArgumentsLeak, Expr.Owns, bindKeys]
  exact ⟨h.1.2 hleaks, h.2.2 hleaks⟩

/-- `{{ f(g(x)) }}` -/
def callOfCall : AST :=
  .printBlock (.methodCall ['f'] [some (.methodCall ['g'] [some (.variableReference ['x'])])])

/-- The value of the argument is made, but no instruction destroys it. -/
theorem not_destroysOnce_callOfCall :
    (¬DestroysOnce .noFolding callOfCall .fresh ∧ ¬GivesBack .noFolding callOfCall .fresh) ∧
      ∃ u, Acquired (visit .noFolding callOfCall .fresh).log u ∧
        ∀ x ∈ (visit .noFolding callOfCall .fresh).log, x.destroyed ≠ some u := by
  constructor
  · have hcompiles := (visit_returns_iff (B := .noFolding) callOfCall Codegen.clean_fresh).1 rfl
    obtain ⟨l, s', hl, hstate, hlog⟩ :=
      beforeTeardown_leaves (B := .noFolding) Codegen.clean_fresh hcompiles
    have hleaks : callOfCall.Leaks fun _ => False := by
      simp [callOfCall, AST.Leaks, Expr.Leaks, Expr.ArgumentsLeak, Expr.Owns]
    exact ⟨fun h => (destroysOnce_of_leaves hl hstate hlog).1 h hleaks,
      fun h => (givesBack_of_leaves hl hstate).1 h hleaks⟩
  · have hcall : IRAction.call 6 .doMethodCall [.argument 2, .constant (.globalString 5 ['g']),
        constantInt 32 1, constantInt 32 1, .instruction 3 (.pointer .variant)] ∈
        (visit .noFolding callOfCall .fresh).log := by decide
    exact ⟨.instruction 6 .variant, .inl ⟨6, _, hcall, rfl⟩, by decide⟩

end

end LLVMVisitor

end B2
