import B2.Cfg.Path
import B2.Llvm.Failures
import B2.Llvm.Lifetimes
import B2.Php.Execution

/-!
# References to variants

How many references to a variant the generated code owns at a point, read off its
count, and what a part of a visit adds to it (`Balance`): what is acquired gets
its first reference, and what is destroyed has none left. Straight-line code
(`Segment`) also keeps to the lifetimes of variants, which are alive as long as
there are references to them.
-/

namespace B2

open Php (Code Wrote Spans)

namespace Codegen

/-- The references that a count stands for; a borrowed variant has the count -1. -/
def references (s : Codegen) (v : Value) : ℤ :=
  match s.variablesRefCount v with
  | some c => if c = -1 then 0 else c
  | none => 0

/-- The generated code has to destroy the variant. -/
def Owned (s : Codegen) (v : Value) : Prop := ∃ c, s.variablesRefCount v = some c ∧ c ≠ -1

instance (s : Codegen) (v : Value) : Decidable (s.Owned v) :=
  match h : s.variablesRefCount v with
  | none => isFalse fun ⟨_, hc, _⟩ => by rw [h] at hc; cases hc
  | some c =>
    if hc : c = -1 then isFalse fun ⟨_, hc', hne⟩ => hne (by rw [h] at hc'; cases hc'; exact hc)
    else isTrue ⟨c, h, hc⟩

/-- The reference that an expression hands to its consumer with the value `v`. -/
def hold (s : Codegen) (v : Value) : Value → ℤ := if s.Owned v then Pi.single v 1 else 0

/-- No variant was given back too often. -/
def Sane (s : Codegen) : Prop := 0 ≤ s.references

def alive (s : Codegen) (v : Value) : Bool := 0 < s.references v

/-- A variant may be used: it is counted, and alive if it is owned. -/
def Readable (s : Codegen) (v : Value) : Prop :=
  v.type = .variant → s.Counted v ∧ (s.Owned v → 0 < s.references v)

/-- The metadata of a for block is no variant. -/
def MetadataTyped (s : Codegen) : Prop :=
  ∀ it metadata, s.forLoopMetadata it = some metadata →
    metadata.hashTable.type ≠ .variant ∧ metadata.hashPosition.type ≠ .variant

/-- The instructions `xs` make the variants that are alive before them those that are alive
after them. -/
def Lives (s : Codegen) (xs : List IRAction) (s' : Codegen) : Prop :=
  ∀ u, s'.Owned u → lives u (s.alive u) xs = some (s'.alive u)

/-- A part of a visit, and the references it adds. -/
structure Balance (s : Codegen) (l : List IRAction) (s' : Codegen) (δ : Value → ℤ) : Prop where
  references : s'.references = s.references + δ
  counted : ∀ u, s.Counted u → s'.Counted u
  owned : ∀ u, s.Counted u → (s'.Owned u ↔ s.Owned u)
  next : s.next ≤ s'.next
  made : ∀ u, s'.Counted u → s.Counted u ∨ s.Fresh u
  above : ∀ x ∈ l, ∀ u, x.Mentions u → ¬s'.Fresh u
  slots : OwnSlots l s.next s'.next
  acquired : ∀ u, s'.Owned u ↔ s.Owned u ∨ Acquired l u
  /-- what has no references gets none again -/
  stays : ∀ u, s.Owned u → s.references u = 0 → s'.references u = 0
  destroyed : ∀ x ∈ l, ∀ u, x.destroyed = some u → s'.Owned u ∧ s'.references u = 0
  metadata : s.MetadataTyped → s'.MetadataTyped

variable {s s' s'' : Codegen} {v : Value} {δ δ' : Value → ℤ} {l l' xs ys : List IRAction}

theorem MetadataTyped.congr (h : s.MetadataTyped) (hm : s'.forLoopMetadata = s.forLoopMetadata) :
    s'.MetadataTyped := by
  unfold MetadataTyped
  rwa [hm]

theorem counted_of_count {c : ℤ} (hc : s.variablesRefCount v = some c) : s.Counted v := by
  unfold Counted
  rw [hc]
  exact Option.some_ne_none c

theorem Owned.counted (h : s.Owned v) : s.Counted v := counted_of_count h.choose_spec.1

theorem references_of_owned {c : ℤ} (hc : s.variablesRefCount v = some c) (hne : c ≠ -1) :
    s.references v = c := by
  unfold references
  rw [hc]
  exact if_neg hne

theorem references_of_counts (h : s'.variablesRefCount v = s.variablesRefCount v) :
    s'.references v = s.references v := by
  unfold references
  rw [h]

theorem references_of_not_owned (h : ¬s.Owned v) : s.references v = 0 := by
  unfold references
  split
  · rename_i c hc
    split_ifs with hne
    · rfl
    · exact absurd ⟨c, hc, hne⟩ h
  · rfl

theorem alive_of_not_owned (h : ¬s.Owned v) : s.alive v = false := by
  rw [alive, references_of_not_owned h]
  rfl

theorem alive_of_references (h : s'.references v = s.references v) : s'.alive v = s.alive v := by
  rw [alive, h]
  rfl

theorem Balance.trans (h : Balance s l s' δ) (h' : Balance s' l' s'' δ') :
    Balance s (l ++ l') s'' (δ + δ') where
  references := by rw [h'.references, h.references, add_assoc]
  counted u hu := h'.counted u (h.counted u hu)
  owned u hu := (h'.owned u (h.counted u hu)).trans (h.owned u hu)
  next := h.next.trans h'.next
  made u hu := by
    rcases h'.made u hu with hu | ⟨id, hid, rfl⟩
    · exact h.made u hu
    · exact .inr ⟨id, h.next.trans hid, rfl⟩
  above x hx u hu := by
    rcases List.mem_append.1 hx with hx | hx
    · rintro ⟨id, hid, rfl⟩
      exact h.above x hx _ hu ⟨id, h'.next.trans hid, rfl⟩
    · exact h'.above x hx u hu
  slots := h.slots.append h'.slots h.next h'.next
  acquired u := by rw [h'.acquired, h.acquired, acquired_append h.slots h'.slots, or_assoc]
  stays u hu hz := by
    have ho : s'.Owned u := (h.owned u hu.counted).2 hu
    exact h'.stays u ho (h.stays u hu hz)
  destroyed x hx u hd := by
    rcases List.mem_append.1 hx with hx | hx
    · obtain ⟨ho, hz⟩ := h.destroyed x hx u hd
      exact ⟨(h'.owned u ho.counted).2 ho, h'.stays u ho hz⟩
    · exact h'.destroyed x hx u hd
  metadata hs := h'.metadata (h.metadata hs)

theorem Balance.congr (h : Balance s l s' δ) (hδ : δ = δ') : Balance s l s' δ' := hδ ▸ h

theorem Balance.sane (h : Balance s l s' δ) (hs : s.Sane) (hδ : 0 ≤ δ) : s'.Sane := by
  unfold Sane
  rw [h.references]
  exact add_nonneg hs hδ

/-- A variant that is counted but not owned is borrowed. -/
theorem count_of_not_owned (hc : s.Counted v) (ho : ¬s.Owned v) :
    s.variablesRefCount v = some (-1) := by
  cases h : s.variablesRefCount v with
  | none => exact absurd h hc
  | some c =>
    by_contra hne
    exact ho ⟨c, h, fun hc => hne (by rw [hc])⟩

theorem hold_nonneg (s : Codegen) (v : Value) : 0 ≤ s.hold v := by
  unfold hold
  split_ifs
  · exact Pi.single_nonneg.2 zero_le_one
  · exact le_rfl

theorem hold_of_owned (h : s.Owned v) : s.hold v = Pi.single v 1 := if_pos h

theorem hold_eq_zero : s.hold v = 0 ↔ ¬s.Owned v := by
  unfold hold
  split_ifs with h
  · exact iff_of_false (by simp) (not_not.2 h)
  · exact iff_of_true rfl h

/-- A usable value is held as before. -/
theorem Balance.hold (h : Balance s l s' δ) (hs' : s'.Ready) (hv : s.Usable v) :
    s'.hold v = s.hold v := by
  have : s'.Owned v ↔ s.Owned v := by
    rcases hv with hv | hv
    · refine iff_of_false (fun ho => ?_) fun ho => ?_
      · exact hv.ne_variant (hs'.made ho.counted).type
      · exact hv.ne_variant (hs'.made (h.counted v ho.counted)).type
    · exact h.owned v hv
  simp only [Codegen.hold, this]

/-! ## What may be read -/

theorem readable_of_type (h : v.type ≠ .variant) : s.Readable v := fun ht => absurd ht h

theorem readable_constantInt {width : Nat} {value : Int} : s.Readable (constantInt width value) :=
  readable_of_type fun h => nomatch h

/-- A value that is held may be used. -/
theorem Usable.readable (hs : s.Ready) (hv : s.Usable v) (h : s.hold v ≤ s.references) :
    s.Readable v := by
  refine fun ht => ⟨(hv.counted_iff hs).2 ht, fun ho => ?_⟩
  have := h v
  rw [hold_of_owned ho, Pi.single_eq_same] at this
  exact zero_lt_one.trans_le this

theorem Readable.mono (h : s.Readable v) (hb : Balance s l s' δ) (hδ : 0 ≤ δ) : s'.Readable v := by
  intro ht
  obtain ⟨hc, hpos⟩ := h ht
  refine ⟨hb.counted v hc, fun ho => ?_⟩
  rw [hb.references]
  exact add_pos_of_pos_of_nonneg (hpos ((hb.owned v hc).1 ho)) (hδ v)

/-! ## Lifetimes in code -/

/-- A variant that is acquired later is not mentioned before. -/
theorem Balance.lives_of_not_counted (h : Balance s l s' δ) (hxs : xs ⊆ l) (hv : ¬s'.Counted v)
    (hf : s'.Fresh v) : lives v (s.alive v) xs = some (s'.alive v) := by
  have ho : ¬s.Owned v := fun ho => hv (h.counted v ho.counted)
  rw [alive_of_not_owned ho, alive_of_not_owned fun ho => hv ho.counted]
  exact lives_of_not_mentions fun x hx hm => h.above x (hxs hx) v hm hf

theorem Lives.append (hl : Balance s l s' δ) (hl' : Balance s' l' s'' δ') (hxs : xs ⊆ l)
    (h : s.Lives xs s') (h' : s'.Lives ys s'') : s.Lives (xs ++ ys) s'' := by
  intro u hu
  have hfirst : B2.lives u (s.alive u) xs = some (s'.alive u) := by
    rcases hl'.made u hu.counted with hc | hf
    · exact h u ((hl'.owned u hc).1 hu)
    · by_cases hc : s'.Counted u
      · exact h u ((hl'.owned u hc).1 hu)
      · exact hl.lives_of_not_counted hxs hc hf
  rw [lives_append, hfirst]
  exact h' u hu

theorem lives_nil (h : s'.references = s.references) : s.Lives [] s' := fun u _ =>
  congrArg some (alive_of_references (congrFun h u)).symm

/-- Straight-line code: its one trace has the lifetimes of the log. -/
def Straight (c : Code) (l : List IRAction) : Prop :=
  ∀ xs, c.Trace xs → ∀ u b, B2.lives u b xs = B2.lives u b l

theorem Straight.seq {c d : Code} (h : Straight c l) (h' : Straight d l') :
    Straight (c.seq d) (l ++ l') := by
  rintro _ ⟨ys, zs, hys, hzs, rfl⟩ u b
  rw [lives_append, lives_append, h ys hys]
  exact congrArg _ (funext fun b => h' zs hzs u b)

theorem straight_skip : Straight .skip [] := by
  rintro _ rfl u b
  rfl

theorem straight_op (x : IRAction) : Straight (.op x) [x] := by
  rintro _ rfl u b
  rfl

theorem exists_straight (hl : ∀ x ∈ l, x.items = [.emit (.op x)]) (hn : s.next ≤ s'.next) :
    ∃ c, Wrote l s s' c ∧ Straight c l := by
  induction l with
  | nil => exact ⟨.skip, Php.wrote_skip hn, straight_skip⟩
  | cons x l ih =>
    rw [List.forall_mem_cons] at hl
    obtain ⟨c, hc, hstraight⟩ := ih hl.2
    exact ⟨(Cfg.Code.op x).seq c, (Php.wrote_op hl.1 le_rfl).seq hc, (straight_op x).seq hstraight⟩

/-- A part of a visit that writes straight-line code. -/
structure Segment (s : Codegen) (l : List IRAction) (s' : Codegen) (δ : Value → ℤ) : Prop
    extends Balance s l s' δ where
  lives : s.Lives l s'
  code : ∃ c, Wrote l s s' c ∧ Straight c l

theorem Segment.trans (h : Segment s l s' δ) (h' : Segment s' l' s'' δ') :
    Segment s (l ++ l') s'' (δ + δ') where
  toBalance := h.toBalance.trans h'.toBalance
  lives := .append h.toBalance h'.toBalance (List.Subset.refl l) h.lives h'.lives
  code := by
    obtain ⟨c, hc, hstraight⟩ := h.code
    obtain ⟨d, hd, hstraight'⟩ := h'.code
    exact ⟨c.seq d, hc.seq hd, hstraight.seq hstraight'⟩

theorem Segment.congr (h : Segment s l s' δ) (hδ : δ = δ') : Segment s l s' δ' := hδ ▸ h

/-- The loop variables do not matter. -/
theorem Segment.of_eq (h : Segment s l s' δ) (hc : s''.variablesRefCount = s'.variablesRefCount)
    (hn : s''.next = s'.next) (hm : s''.forLoopMetadata = s'.forLoopMetadata) :
    Segment s l s'' δ := by
  obtain ⟨n, loops, ρ, counts, metadata⟩ := s'
  obtain ⟨n', loops', ρ', counts', metadata'⟩ := s''
  obtain rfl : counts' = counts := hc
  obtain rfl : n' = n := hn
  obtain rfl : metadata' = metadata := hm
  obtain ⟨c, hwrote, hstraight⟩ := h.code
  exact ⟨⟨h.references, h.counted, h.owned, h.next, h.made, h.above, h.slots, h.acquired, h.stays,
    h.destroyed, h.metadata⟩, h.lives, c, ⟨hwrote.items, hwrote.spans⟩, hstraight⟩

/-- What adds no references goes before. -/
theorem Segment.before (h : Segment s l s' 0) (h' : Segment s' l' s'' δ) :
    Segment s (l ++ l') s'' δ := (h.trans h').congr (zero_add δ)

/-! ## Leaves -/

/-- An instruction of a part of a visit that begins in `s` and ends in `s'`. -/
structure Uses (s s' : Codegen) (x : IRAction) : Prop where
  result : ∀ u, x.result = some u → u.Between s.next s'.next
  operands : ∀ u ∈ x.operands, s.Readable u ∨ u.Between s.next s'.next
  destroyed : x.destroyed = none

theorem Uses.not_counted (h : v.Between s.next s'.next) (hs : s.Ready) : ¬s.Counted v := by
  intro hc
  obtain ⟨id, hid, rfl⟩ := hs.made hc
  exact absurd (hid.trans_le h.1) (lt_irrefl id)

/-- A part of a visit that destroys nothing and acquires the variant `o` or none. -/
structure Leaf (s : Codegen) (l : List IRAction) (s' : Codegen) (o : Option Value) : Prop where
  next : s.next ≤ s'.next
  counts : ∀ u, s.Counted u → s'.variablesRefCount u = s.variablesRefCount u
  made : ∀ u, s'.Counted u → s.Counted u ∨ s.Fresh u
  owned : ∀ u, ¬s.Counted u → s'.Owned u → o = some u
  count : ∀ u, o = some u → s.Fresh u ∧ s'.variablesRefCount u = some 1
  uses : ∀ x ∈ l, s.Uses s' x
  slots : OwnSlots l s.next s'.next
  acquired : ∀ u, Acquired l u ↔ o = some u
  lives : ∀ u, o = some u → B2.lives u false l = some true
  metadata : s.MetadataTyped → s'.MetadataTyped

/-- The reference to what is acquired. -/
def acquires (o : Option Value) : Value → ℤ := o.elim 0 (Pi.single · 1)

theorem acquires_self : acquires (some v) v = 1 := Pi.single_eq_same (M := fun _ => ℤ) v 1

theorem acquires_of_ne {o : Option Value} (h : o ≠ some v) : acquires o v = 0 := by
  cases o with
  | none => rfl
  | some w => exact Pi.single_eq_of_ne (M := fun _ => ℤ) (fun heq => h (congrArg some heq.symm)) 1

theorem acquires_nonneg {o : Option Value} : 0 ≤ acquires o := by
  cases o with
  | none => exact le_rfl
  | some w => exact Pi.single_nonneg.2 zero_le_one

theorem Leaf.owned_iff {o : Option Value} (h : Leaf s l s' o) (hv : s.Counted v) :
    s'.Owned v ↔ s.Owned v := by
  unfold Owned
  rw [h.counts v hv]

theorem Leaf.balance {o : Option Value} (hs : s.Ready) (h : Leaf s l s' o) :
    Balance s l s' (acquires o) := by
  have hnew : ∀ u, o = some u → ¬s.Counted u := fun u hu => (h.count u hu).1.not_counted hs
  have hreferences : ∀ u, s.Counted u → s'.references u = s.references u := fun u hu =>
    references_of_counts (h.counts u hu)
  refine { references := funext fun u => ?_, counted := fun u hu => ?_
           owned := fun u => h.owned_iff, next := h.next, made := h.made
           above := fun x hx u hm => ?_, slots := h.slots, acquired := fun u => ?_
           stays := fun u hu hz => ?_, destroyed := fun x hx u hd => ?_, metadata := h.metadata }
  · rw [Pi.add_apply]
    by_cases hu : s.Counted u
    · rw [acquires_of_ne fun ho => hnew u ho hu, add_zero, hreferences u hu]
    · rw [references_of_not_owned fun ho => hu ho.counted, zero_add]
      by_cases ho : o = some u
      · rw [references_of_owned (h.count u ho).2 (by decide), ho, acquires_self]
      · rw [references_of_not_owned fun h' => ho (h.owned u hu h'), acquires_of_ne ho]
  · unfold Counted
    rw [h.counts u hu]
    exact hu
  · rintro ⟨id, hid, rfl⟩
    have hbetween : ¬Value.Between s.next s'.next (.instruction id .variant) := fun h =>
      absurd (h.2.trans_le hid) (lt_irrefl id)
    rcases hm with hr | ho
    · exact hbetween ((h.uses x hx).result _ hr)
    · rcases (h.uses x hx).operands _ ho with hread | hb
      · obtain ⟨id', hid', heq⟩ := hs.made (hread rfl).1
        cases heq
        exact absurd (hid'.trans_le (h.next.trans hid)) (lt_irrefl id)
      · exact hbetween hb
  · rw [h.acquired]
    by_cases hu : s.Counted u
    · rw [h.owned_iff hu]
      exact ⟨.inl, fun h => h.resolve_right fun ho => hnew u ho hu⟩
    · refine ⟨fun ho => .inr (h.owned u hu ho), fun ho => ?_⟩
      exact ⟨1, (h.count u (ho.resolve_left fun h => hu h.counted)).2, by decide⟩
  · rw [hreferences u hu.counted]
    exact hz
  · rw [(h.uses x hx).destroyed] at hd
    cases hd

/-- What is alive stays so, and only what is acquired is made. -/
theorem Leaf.keeps {o : Option Value} (hs : s.Ready) (h : Leaf s l s' o) : s.Lives l s' := by
  intro u hu
  by_cases hc : s.Counted u
  · rw [alive_of_references (references_of_counts (h.counts u hc))]
    refine lives_of_uses fun x hx => ⟨fun hr => ?_, ?_, fun hmem => ?_⟩
    · exact Uses.not_counted ((h.uses x hx).result u hr) hs hc
    · rw [(h.uses x hx).destroyed]
      rintro ⟨⟩
    · rcases (h.uses x hx).operands u hmem with hread | hb
      · exact decide_eq_true ((hread (hs.made hc).type).2 ((h.owned_iff hc).1 hu))
      · exact absurd hc (Uses.not_counted hb hs)
  · have ho := h.owned u hc hu
    rw [alive_of_not_owned fun h => hc h.counted, h.lives u ho, alive,
      references_of_owned (h.count u ho).2 (by decide)]
    rfl

theorem Leaf.segment {o : Option Value} (hs : s.Ready) (h : Leaf s l s' o)
    (hcode : ∃ c, Wrote l s s' c ∧ Straight c l) : Segment s l s' (acquires o) where
  toBalance := h.balance hs
  lives := h.keeps hs
  code := hcode

/-! ### Parts that leave the counts -/

theorem uses_of_silent {x : IRAction} (h : x.Silent) : s.Uses s' x where
  result u hu := by
    rw [h.result] at hu
    cases hu
  operands u hu := by
    rw [h.operands] at hu
    cases hu
  destroyed := by
    by_contra hne
    obtain ⟨u, hu⟩ := Option.ne_none_iff_exists'.1 hne
    have := IRAction.mem_of_destroyed hu
    rw [h.operands] at this
    cases this

/-- A part that leaves the counts and acquires nothing. -/
theorem leaf_of_counts (hc : s'.variablesRefCount = s.variablesRefCount)
    (hm : s.MetadataTyped → s'.MetadataTyped) (hn : s.next ≤ s'.next)
    (huses : ∀ x ∈ l, s.Uses s' x) (hidle : ∀ x ∈ l, x.Idle) : Leaf s l s' none where
  next := hn
  counts u _ := by rw [hc]
  made u hu := by
    unfold Counted at hu ⊢
    rw [hc] at hu
    exact .inl hu
  owned u hu ho := by
    obtain ⟨c, hc', -⟩ := ho
    rw [hc] at hc'
    exact absurd (counted_of_count hc') hu
  count := by simp
  uses := huses
  slots := ownSlots_of_idle hidle
  acquired u := iff_of_false (not_acquired_of_idle hidle) (by simp)
  lives := by simp
  metadata := hm

theorem segment_of_counts (hs : s.Ready) (hc : s'.variablesRefCount = s.variablesRefCount)
    (hm : s.MetadataTyped → s'.MetadataTyped) (hn : s.next ≤ s'.next)
    (huses : ∀ x ∈ l, s.Uses s' x) (hidle : ∀ x ∈ l, x.Idle)
    (hcode : ∃ c, Wrote l s s' c ∧ Straight c l) : Segment s l s' 0 :=
  (leaf_of_counts hc hm hn huses hidle).segment hs hcode

theorem segment_skip (hs : s.Ready) (hc : s'.variablesRefCount = s.variablesRefCount)
    (hm : s.MetadataTyped → s'.MetadataTyped) (hn : s.next ≤ s'.next) : Segment s [] s' 0 :=
  segment_of_counts hs hc hm hn (by simp) (by simp) ⟨.skip, Php.wrote_skip hn, straight_skip⟩

/-- One instruction. -/
theorem segment_op {x : IRAction} (hs : s.Ready) (hc : s'.variablesRefCount = s.variablesRefCount)
    (hn : s.next ≤ s'.next) (hm : s'.forLoopMetadata = s.forLoopMetadata)
    (hx : x.items = [.emit (.op x)]) (huses : s.Uses s' x) (hidle : x.Idle) :
    Segment s [x] s' 0 :=
  segment_of_counts hs hc (fun h => h.congr hm) hn (by simpa using huses)
    (by simpa using hidle) ⟨.op x, Php.wrote_op hx hn, straight_op x⟩

/-- A number that is used for something else than an instruction. -/
theorem segment_bump (hs : s.Ready) : Segment s [] (Gen.bump s) 0 :=
  segment_skip hs rfl id (Nat.le_succ _)

/-- What the generator notes down, which is no instruction. -/
theorem segment_note {x : IRAction} (hs : s.Ready) (hx : x.items = []) (h : x.Silent) :
    Segment s [x] s 0 := by
  have hcode : Wrote [x] s s .skip :=
    ⟨by rw [List.flatMap_singleton, hx]; rfl, Php.spans_of_labels_eq_nil rfl le_rfl⟩
  refine segment_of_counts hs rfl id le_rfl (List.forall_mem_singleton.2 (uses_of_silent h))
    (List.forall_mem_singleton.2 h.idle) ⟨.skip, hcode, ?_⟩
  rintro _ rfl u b
  exact (lives_of_not_mentions (List.forall_mem_singleton.2 h.not_mentions)).symm

theorem silent_checkLog {c : Value} : ∀ x ∈ PHPBindings.checkLog s c, x.Silent := by
  simp [PHPBindings.checkLog, IRAction.Silent]

theorem straight_check {c : Value} :
    Straight (.check c s.next (s.next + 1)) (PHPBindings.checkLog s c) := by
  rintro _ rfl u b
  exact (lives_of_not_mentions fun x hx => (silent_checkLog x hx).not_mentions).symm

/-- The check of a call. -/
theorem segment_check (hs : s.Ready) {c : Value} :
    Segment s (PHPBindings.checkLog s c) (Gen.bump (Gen.bump s)) 0 := by
  refine segment_of_counts hs rfl id (Nat.le_add_right _ 2)
    (fun x hx => uses_of_silent (silent_checkLog x hx)) (fun x hx => (silent_checkLog x hx).idle)
    ⟨.check c s.next (s.next + 1), ⟨rfl, ?_⟩, straight_check⟩
  exact ⟨Nat.le_add_right _ 2, by simp [Cfg.Code.labels, Gen.bump], by simp [Cfg.Code.labels]⟩

/-- Blocks and jumps, which belong to code that is not straight. -/
theorem balance_silent (hs : s.Ready) (hc : s'.variablesRefCount = s.variablesRefCount)
    (hm : s'.forLoopMetadata = s.forLoopMetadata) (hn : s.next ≤ s'.next)
    (h : ∀ x ∈ l, x.Silent) : Balance s l s' 0 :=
  (leaf_of_counts hc (fun h => h.congr hm) hn
    (fun x hx => uses_of_silent (h x hx)) fun x hx => (h x hx).idle).balance hs

/-! ### New counts -/

/-- A variant that is made gets its first count: it is borrowed, or acquired. -/
theorem segment_newCount {o : Option Value} {c : ℤ} (hs : s.Ready) (hv : s.Fresh v)
    (hc : s'.variablesRefCount = Function.update s.variablesRefCount v (some c))
    (ho : c = -1 ∧ o = none ∨ c = 1 ∧ o = some v) (hm : s'.forLoopMetadata = s.forLoopMetadata)
    (hn : s.next ≤ s'.next) (huses : ∀ x ∈ l, s.Uses s' x) (hslots : OwnSlots l s.next s'.next)
    (hacquired : ∀ u, Acquired l u ↔ o = some u)
    (hlives : ∀ u, o = some u → B2.lives u false l = some true)
    (hcode : ∃ c, Wrote l s s' c ∧ Straight c l) : Segment s l s' (acquires o) := by
  have hself : s'.variablesRefCount v = some c := by rw [hc, Function.update_self]
  have hother : ∀ u, u ≠ v → s'.variablesRefCount u = s.variablesRefCount u := fun u hu => by
    rw [hc, Function.update_of_ne hu]
  have hnew : ∀ u, s.Counted u → u ≠ v := by
    rintro u hu rfl
    exact hv.not_counted hs hu
  have hleaf : Leaf s l s' o :=
    { next := hn
      counts := fun u hu => hother u (hnew u hu)
      made := fun u hu => by
        by_cases h : u = v
        · exact .inr (h ▸ hv)
        · unfold Counted at hu ⊢
          rw [hother u h] at hu
          exact .inl hu
      owned := fun u hu h => by
        have huv : u = v := by
          by_contra hne
          obtain ⟨c', hc', -⟩ := h
          rw [hother u hne] at hc'
          exact hu (counted_of_count hc')
        rcases ho with ⟨rfl, -⟩ | ⟨-, ho⟩
        · obtain ⟨c', hc', hne⟩ := h
          rw [huv, hself] at hc'
          cases hc'
          exact absurd rfl hne
        · rw [ho, huv]
      count := fun u hu => by
        rcases ho with ⟨-, ho⟩ | ⟨rfl, ho⟩
        · rw [ho] at hu
          cases hu
        · rw [ho] at hu
          cases hu
          exact ⟨hv, hself⟩
      uses := huses
      slots := hslots
      acquired := hacquired
      lives := hlives
      metadata := fun h => h.congr hm }
  exact hleaf.segment hs hcode

/-- A call that makes a variant, which is acquired if it is a method call and borrowed else. -/
theorem segment_calledVariant {f : RuntimeFunction} {args : List Value} {c : ℤ}
    {o : Option Value} (hs : s.Ready) (hf : f.returnType = .variant)
    (ho : c = -1 ∧ o = none ∧ f ≠ .doMethodCall ∨
      c = 1 ∧ o = some (.instruction s.next .variant) ∧ f = .doMethodCall)
    (hargs : ∀ u ∈ args, s.Readable u) :
    Segment s [.call s.next f args]
      (PHPBindings.withCount (Gen.bump s) (.instruction s.next .variant) c) (acquires o) := by
  have hslot : (IRAction.call s.next f args).resultSlot = none := by
    cases f <;> first | rfl | cases hf
  have hresult : (IRAction.call s.next f args).result = some (.instruction s.next .variant) := by
    rw [IRAction.result, hf]
  have hdestroyed : (IRAction.call s.next f args).destroyed = none := by
    cases f <;> first | rfl | cases hf
  refine segment_newCount hs ⟨_, le_rfl, rfl⟩ rfl
    (ho.imp (fun h => ⟨h.1, h.2.1⟩) fun h => ⟨h.1, h.2.1⟩) rfl (Nat.le_succ _) ?_ ?_ ?_ ?_
    ⟨.op _, Php.wrote_op rfl (Nat.le_succ _), straight_op _⟩
  · refine List.forall_mem_singleton.2 ⟨fun u hu => ?_, fun u hu => .inl (hargs u hu), hdestroyed⟩
    rw [hresult] at hu
    cases hu
    exact ⟨le_rfl, Nat.lt_succ_self _⟩
  · refine ⟨fun x hx p hp => ?_, fun id p hx => by simp at hx⟩
    rw [List.mem_singleton.1 hx, hslot] at hp
    cases hp
  · intro u
    rcases ho with ⟨-, rfl, hne⟩ | ⟨-, rfl, rfl⟩
    · exact iff_of_false (not_acquired_of_idle (List.forall_mem_singleton.2
        (IRAction.idle_call hslot hne))) (by simp)
    · simp [Acquired, eq_comm]
  · rintro u hu
    rcases ho with ⟨-, rfl, -⟩ | ⟨-, rfl, -⟩
    · cases hu
    · cases hu
      rw [lives_cons, lifetime, if_pos hresult]
      rfl

/-! ### Changed counts -/

/-- A variant with references gets some more, or loses some. -/
theorem balance_recount {c d : ℤ} (hs : s.Ready) (hc : s.variablesRefCount v = some c)
    (hpos : 0 < c) (hd : 0 ≤ c + d)
    (hcounts : s'.variablesRefCount = Function.update s.variablesRefCount v (some (c + d)))
    (hm : s'.forLoopMetadata = s.forLoopMetadata) (hn : s.next ≤ s'.next)
    (hidle : ∀ x ∈ l, x.Idle)
    (hmentions : ∀ x ∈ l, ∀ u, x.Mentions u → u.type = .variant → s.Counted u)
    (hdestroyed : ∀ x ∈ l, ∀ u, x.destroyed = some u → u = v ∧ c + d = 0) :
    Balance s l s' (Pi.single v d) := by
  have hself : s'.variablesRefCount v = some (c + d) := by rw [hcounts, Function.update_self]
  have hother : ∀ u, u ≠ v → s'.variablesRefCount u = s.variablesRefCount u := fun u hu => by
    rw [hcounts, Function.update_of_ne hu]
  have hv : s.Owned v := ⟨c, hc, by omega⟩
  have hv' : s'.Owned v := ⟨c + d, hself, by omega⟩
  have hcounted : ∀ u, s'.Counted u ↔ s.Counted u := by
    intro u
    rcases eq_or_ne u v with rfl | h
    · exact iff_of_true hv'.counted hv.counted
    · unfold Counted
      rw [hother u h]
  have howned : ∀ u, s'.Owned u ↔ s.Owned u := by
    intro u
    rcases eq_or_ne u v with rfl | h
    · exact iff_of_true hv' hv
    · unfold Owned
      rw [hother u h]
  have hreferences : ∀ u, u ≠ v → s'.references u = s.references u := fun u hu =>
    references_of_counts (hother u hu)
  refine { references := funext fun u => ?_, counted := fun u => (hcounted u).2
           owned := fun u _ => howned u, next := hn, made := fun u hu => .inl ((hcounted u).1 hu)
           above := fun x hx u hm => ?_, slots := ownSlots_of_idle hidle, acquired := fun u => ?_
           stays := fun u hu hz => ?_, destroyed := fun x hx u hd => ?_
           metadata := fun h => h.congr hm }
  · rw [Pi.add_apply]
    rcases eq_or_ne u v with rfl | h
    · rw [Pi.single_eq_same, references_of_owned hself (by omega),
        references_of_owned hc (by omega)]
    · rw [Pi.single_eq_of_ne h, add_zero, hreferences u h]
  · rintro ⟨id, hid, rfl⟩
    obtain ⟨id', hid', heq⟩ := hs.made (hmentions x hx _ hm rfl)
    cases heq
    exact absurd (hid'.trans_le (hn.trans hid)) (lt_irrefl id)
  · rw [howned u, or_iff_left (not_acquired_of_idle hidle)]
  · have hne : u ≠ v := by
      rintro rfl
      rw [references_of_owned hc (by omega)] at hz
      omega
    rw [hreferences u hne]
    exact hz
  · obtain ⟨rfl, hz⟩ := hdestroyed x hx u hd
    exact ⟨hv', by rw [references_of_owned hself (by omega), hz]⟩

/-- A count that does not become 0. -/
theorem segment_withCount {c d : ℤ} (hs : s.Ready) (hc : s.variablesRefCount v = some c)
    (hpos : 0 < c) (hd : 0 < c + d) :
    Segment s [] (PHPBindings.withCount s v (c + d)) (Pi.single v d) where
  toBalance := balance_recount hs hc hpos hd.le rfl rfl le_rfl (by simp) (by simp) (by simp)
  lives u _ := by
    refine congrArg some ?_
    rcases eq_or_ne u v with rfl | h
    · rw [alive, alive, references_of_owned hc (by omega),
        references_of_owned (Function.update_self ..) (by omega)]
      simp [hpos, hd]
    · exact (alive_of_references (references_of_counts (Function.update_of_ne h _ _))).symm
  code := ⟨.skip, Php.wrote_skip le_rfl, straight_skip⟩

/-- The last reference goes out of scope. -/
theorem segment_destroy (hs : s.Ready) (hc : s.variablesRefCount v = some 1) :
    Segment s [.call s.next .destructZval [v]] (Gen.bump (PHPBindings.withCount s v 0))
      (Pi.single v (-1)) where
  toBalance := by
    refine balance_recount hs hc one_pos le_rfl rfl rfl (Nat.le_succ _) ?_ ?_ ?_
    · exact List.forall_mem_singleton.2 (IRAction.idle_call rfl (by decide))
    · refine List.forall_mem_singleton.2 ?_
      rintro u (h | h) hu
      · cases h
        cases hu
      · rw [List.mem_singleton.1 h]
        exact counted_of_count hc
    · refine List.forall_mem_singleton.2 fun u hu => ?_
      cases hu
      exact ⟨rfl, rfl⟩
  lives u hu := by
    have ho : s.Owned v := ⟨1, hc, by decide⟩
    have ht : u.type = .variant := by
      obtain ⟨c, hc', -⟩ := hu
      rcases eq_or_ne u v with rfl | h
      · exact (hs.made ho.counted).type
      · exact (hs.made (counted_of_count ((Function.update_of_ne h _ _).symm.trans hc'))).type
    have hr : (IRAction.call s.next .destructZval [v]).result ≠ some u := by
      rintro ⟨⟩
      cases ht
    rcases eq_or_ne u v with rfl | h
    · have halive : s.alive u = true := by
        rw [alive, references_of_owned hc (by decide)]
        rfl
      have hdead : (Gen.bump (PHPBindings.withCount s u 0)).alive u = false := by
        rw [alive, references_of_owned (Function.update_self ..) (by decide)]
        rfl
      rw [halive, hdead, lives_cons, lifetime, if_neg hr]
      simp [IRAction.destroyed, B2.lives]
    · have hrefs : (Gen.bump (PHPBindings.withCount s v 0)).references u = s.references u :=
        references_of_counts (Function.update_of_ne h _ _)
      rw [alive_of_references hrefs]
      refine lives_of_not_mentions (List.forall_mem_singleton.2 ?_)
      exact not_or.2 ⟨hr, fun hmem => h (List.mem_singleton.1 hmem)⟩
  code := ⟨.op _, Php.wrote_op rfl (Nat.le_succ _), straight_op _⟩

end Codegen

end B2
