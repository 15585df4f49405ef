import B2.Llvm.Metadata
import B2.Llvm.OperandTypes

/-!
# Failed compilations

What a visit leaves behind when it throws. The counts of variants, the loop
variables and the metadata are put back at the end of a function or of a for
block only: a compilation that throws leaves them clean exactly when no variant
was made before. The function it was making stays in the module in any case
(`engine_stays_clean`).
-/

namespace B2

open Effect.Traced (Sat Returns Throws sat_bind sat_pure sat_tell sat_get sat_modify sat_throw)
open PHPBindings LLVMVisitor

namespace Expr

mutual

/-- A variant gets a count before the visit of the expression ends. -/
def Counts : Expression → Prop
  | .variableReference _ => True
  | .getAttribute v _ => v.Counts ∨ v.Generates
  | .methodCall _ args => ArgumentsCount args ∨ GeneratesArguments args
  | .binaryOperation l r _ | .comparison l r _ => l.Counts ∨ (l.Generates ∧ r.Counts)
  | .unaryOperation e _ => e.Counts
  | .doubleLiteral _ | .integerLiteral _ | .booleanLiteral _ | .stringLiteral _ => False

def ArgumentsCount : List (Option Expression) → Prop
  | [] => False
  | none :: _ => False
  | some e :: args => e.Counts ∨ (e.Generates ∧ ArgumentsCount args)

end

/-- A variant has a count. -/
theorem counts_of_variant (e : Expression) : e.Generates → e.irType = .variant → e.Counts := by
  induction e using Expr.ind with
  | variableReference x => exact fun _ _ => trivial
  | getAttribute v a _ => exact fun hg _ => .inr hg.1
  | methodCall m args _ => exact fun hg _ => .inr hg
  | binaryOperation l r op ihl ihr =>
    intro hg ht
    rcases binaryType_eq_variant l.irType_cases ht with h | h
    · exact .inl (ihl hg.1 h)
    · exact .inr ⟨hg.1, ihr hg.2 h⟩
  | unaryOperation e op ih => exact ih
  | comparison l r op _ _ =>
    exact fun _ ht => absurd ht (isScalar_comparisonType op l.irType_cases).ne_variant
  | _ => exact fun _ ht => nomatch ht

end Expr

namespace LLVMVisitor

/-! ## Expressions -/

section

variable {B : IRBuilder} {s : Codegen}

/-- The counts after a run are those before it. -/
def KeepsCounts {α : Type} (m : Gen α) (s : Codegen) : Prop :=
  Sat m s (fun _ s' _ => s'.variablesRefCount = s.variablesRefCount)
    fun _ s' _ => s'.variablesRefCount = s.variablesRefCount

theorem KeepsCounts.bind {α β : Type} {m : Gen α} {f : α → Gen β} (h : KeepsCounts m s)
    (hf : ∀ a s', KeepsCounts (f a) s') : KeepsCounts (m >>= f) s := by
  refine Sat.bind h (fun _ s' a hs' => ?_) (fun _ _ _ h => h)
  exact (hf a s').mono (fun _ _ _ h => h.trans hs') fun _ _ _ h => h.trans hs'

theorem keepsCounts_pure {α : Type} {a : α} : KeepsCounts (pure a) s := by
  unfold KeepsCounts
  rw [sat_pure]

theorem keepsCounts_operation {op : Operation} {vs : List Value} :
    KeepsCounts (Gen.createOperation B op vs) s := by
  unfold KeepsCounts
  rw [Gen.sat_createOperation]
  split <;> rfl

theorem keepsCounts_toDouble {v : Value} : KeepsCounts (toDouble B v) s := by
  unfold toDouble
  split
  · exact keepsCounts_pure
  · exact keepsCounts_operation

theorem keepsCounts_numericOperation {iop fop : Operation} {left right : Value} :
    KeepsCounts (numericOperation B iop fop left right) s := by
  unfold numericOperation
  split
  · exact keepsCounts_operation
  · exact keepsCounts_toDouble.bind fun _ _ => keepsCounts_toDouble.bind fun _ _ =>
      keepsCounts_operation

theorem keepsCounts_printCall {v : Value} : KeepsCounts (createPrintCall v) s := by
  unfold createPrintCall
  refine KeepsCounts.bind ?_ fun f s' => ?_
  · unfold getPrintMethodForType KeepsCounts
    split_ifs <;> rfl
  · unfold KeepsCounts
    rw [Gen.sat_createCall]
    rfl

theorem keepsCounts_printValue {v : Value} (hv : v.type ≠ .variant) :
    KeepsCounts (printValue v) s := by
  unfold printValue
  refine keepsCounts_printCall.bind fun _ _ => ?_
  unfold releasePrinted
  rw [if_neg (by rwa [isVariantType_iff])]
  exact keepsCounts_pure

theorem keepsCounts_printText {t : Text} : KeepsCounts (printText t) s := by
  unfold printText
  refine KeepsCounts.bind ?_ fun _ _ => keepsCounts_printCall.bind fun _ _ => keepsCounts_pure
  unfold KeepsCounts
  rw [Gen.sat_createGlobalStringPtr]
  rfl

/-- A run keeps what is counted; there is a count after it if `c`, and else none is new. -/
structure Tracks (c : Prop) (s s' : Codegen) : Prop where
  counted : ∀ v, s.Counted v → s'.Counted v
  first : c → ∃ u, s'.Counted u
  keeps : ¬c → s'.variablesRefCount = s.variablesRefCount

theorem Tracks.trans {c c' c'' : Prop} {s s' s'' : Codegen} (h : Tracks c s s')
    (h' : Tracks c' s' s'') (hc : c'' ↔ c ∨ c') : Tracks c'' s s'' where
  counted v hv := h'.counted v (h.counted v hv)
  first h'' := by
    rcases hc.1 h'' with hc | hc
    · obtain ⟨u, hu⟩ := h.first hc
      exact ⟨u, h'.counted u hu⟩
    · exact h'.first hc
  keeps h'' := by
    rw [hc, not_or] at h''
    exact (h'.keeps h''.2).trans (h.keeps h''.1)

theorem Tracks.congr {c c' : Prop} {s s' : Codegen} (h : Tracks c s s') (hc : c' ↔ c) :
    Tracks c' s s' :=
  ⟨h.counted, fun h' => h.first (hc.1 h'), fun h' => h.keeps (mt hc.2 h')⟩

/-- The counts that a run makes, whether or not it returns. -/
def SatTracks {α : Type} (c : Prop) (m : Gen α) (s : Codegen) : Prop :=
  Sat m s (fun _ s' _ => Tracks c s s') fun _ s' _ => Tracks c s s'

theorem KeepsCounts.satTracks {α : Type} {m : Gen α} (h : KeepsCounts m s) :
    SatTracks False m s := by
  have htracks : ∀ {s' : Codegen}, s'.variablesRefCount = s.variablesRefCount →
      Tracks False s s' := fun h => by
    refine ⟨fun v hv => ?_, False.elim, fun _ => h⟩
    unfold Codegen.Counted at hv ⊢
    rwa [h]
  exact Sat.mono h (fun _ _ _ => htracks) fun _ _ _ => htracks

/-- A run after which a variant is counted. -/
theorem satTracks_of_gives {α : Type} {m : Gen α} {A : IRAction → Prop}
    {P : Codegen → α → Prop} {R : Codegen → Prop} (h : Gives A m s P R)
    (hP : ∀ s' a, s.Grows s' → P s' a → ∃ u, s'.Counted u)
    (hR : ∀ s', s.Grows s' → R s' → ∃ u, s'.Counted u) : SatTracks True m s := by
  refine Sat.mono h (fun _ s' a h => ?_) fun _ s' _ h => ?_
  · exact ⟨h.2.1.counted, fun _ => hP s' a h.2.1 h.2.2, fun hn => absurd trivial hn⟩
  · exact ⟨h.2.1.counted, fun _ => hR s' h.2.1 h.2.2, fun hn => absurd trivial hn⟩

theorem SatTracks.bind {α β : Type} {m : Gen α} {f : α → Gen β} {A : IRAction → Prop}
    {P : Codegen → α → Prop} {R : Codegen → Prop} {c c'' : Prop} (h : SatTracks c m s)
    (hm : Gives A m s P R)
    (hok : ∀ s' a, s.Grows s' → P s' a → ∃ c', SatTracks c' (f a) s' ∧ (c'' ↔ c ∨ c'))
    (herr : ∀ s', R s' → (c'' ↔ c)) : SatTracks c'' (m >>= f) s := by
  refine Sat.bind (Sat.and h hm) ?_ ?_
  · rintro _ s' a ⟨ht, -, hg, ha⟩
    obtain ⟨c', hf, hc⟩ := hok s' a hg ha
    exact Sat.mono hf (fun _ _ _ h => ht.trans h hc) fun _ _ _ h => ht.trans h hc
  · rintro _ s' _ ⟨ht, -, -, hr⟩
    exact ht.congr (herr s' hr)

/-- Two operands and an operation that tracks `d`, which has a variant operand. -/
theorem satTracks_operands {e e' : Expression} {f : Value → Value → Gen Value} {d : Prop}
    (hs : s.Ready) (ih : ∀ {s : Codegen}, s.Ready → SatTracks e.Counts (expression B e) s)
    (ih' : ∀ {s : Codegen}, s.Ready → SatTracks e'.Counts (expression B e') s)
    (hf : ∀ {s : Codegen} {left right : Value}, s.Ready → s.Usable left → s.Usable right →
      left.type = e.irType → right.type = e'.irType → SatTracks d (f left right) s)
    (hd : d → e.irType = .variant ∨ e'.irType = .variant) :
    SatTracks (e.Counts ∨ (e.Generates ∧ e'.Counts)) (do
      let left ← expression B e
      let right ← expression B e'
      f left right) s := by
  refine (ih hs).bind (expression_spec e hs) (fun s₁ left g₁ hl => ?_) fun s' h => ?_
  · refine ⟨e'.Counts ∨ d ∧ e'.Generates, ?_, ?_⟩
    · refine (ih' (g₁.ready hs)).bind (expression_spec e' (g₁.ready hs))
        (fun s₂ right g₂ hr => ?_) fun s' h => ?_
      · refine ⟨d, hf (g₂.ready (g₁.ready hs)) (hl.usable.mono g₂) hr.usable hl.type hr.type, ?_⟩
        rw [and_iff_left hr.generates]
      · exact or_iff_left fun h' => h h'.2
    · have := hl.generates
      constructor
      · tauto
      · rintro (h | h | ⟨h, hg⟩)
        · exact .inl h
        · exact .inr ⟨this, h⟩
        · exact (hd h).imp (e.counts_of_variant this) fun h => ⟨this, e'.counts_of_variant hg h⟩
  · exact or_iff_left fun h' => h h'.1

theorem satTracks_expressions {args : List (Option Expression)}
    (ih : ∀ e, some e ∈ args → ∀ {s : Codegen}, s.Ready →
      SatTracks e.Counts (expression B e) s) :
    ∀ {s : Codegen}, s.Ready → SatTracks (Expr.ArgumentsCount args) (expressions B args) s := by
  induction args with
  | nil => exact fun _ => keepsCounts_pure.satTracks
  | cons arg args iha =>
    intro s hs
    cases arg with
    | none =>
      have h : KeepsCounts (expressions B (none :: args)) s := rfl
      exact h.satTracks
    | some e =>
      unfold expressions
      refine (ih e List.mem_cons_self hs).bind (expression_spec e hs) (fun s₁ v g₁ hv => ?_)
        fun s' h => or_iff_left fun h' => h h'.1
      have hs₁ := g₁.ready hs
      refine ⟨Expr.ArgumentsCount args, ?_, ?_⟩
      · refine (iha (fun e he => ih e (List.mem_cons_of_mem _ he)) hs₁).bind
          (expressions_spec (fun e _ => expression_spec e) hs₁) (fun s₂ vs _ _ => ?_)
          fun _ _ => Iff.rfl
        exact ⟨False, keepsCounts_pure.satTracks, (iff_of_eq (or_false _)).symm⟩
      · show _ ∨ _ ∧ _ ↔ _
        rw [and_iff_right hv.generates]

/-- The counts of an expression. -/
theorem satTracks_expression (e : Expression) : ∀ {s : Codegen}, s.Ready →
    SatTracks e.Counts (expression B e) s := by
  induction e using Expr.ind with
  | variableReference x =>
    intro s hs
    unfold expression
    refine satTracks_of_gives (gives_variableReference (R := fun _ => False) hs) ?_
      fun _ _ => False.elim
    intro s' v g hv
    exact ⟨v, (hv.usable.counted_iff (g.ready hs)).2 hv.type⟩
  | getAttribute p a ih =>
    intro s hs
    unfold expression
    refine (ih hs).bind (expression_spec p hs) (fun s₁ u g₁ hu => ⟨True, ?_, ?_⟩) fun s' h => ?_
    · rcases hu.usable with hv | hv
      · exact satTracks_of_gives (gives_getAttribute_error (g₁.ready hs) hv)
          (fun _ _ _ => False.elim) fun _ _ h => h
      · exact satTracks_of_gives (gives_getAttribute (R := fun _ => False) (g₁.ready hs) hv)
          (fun _ v _ h => ⟨v, h.1⟩) fun _ _ => False.elim
    · exact iff_of_true (.inr hu.generates) (.inr trivial)
    · exact or_iff_left h
  | methodCall m args ih =>
    intro s hs
    unfold expression
    refine (satTracks_expressions (fun e he => ih e he) hs).bind
      (expressions_spec (fun e _ => expression_spec e) hs) (fun s₁ vs g₁ hvs => ⟨True, ?_, ?_⟩)
      fun s' h => or_iff_left h
    · exact satTracks_of_gives (gives_methodCall (R := fun _ => False) (g₁.ready hs) hvs.2.1)
        (fun _ v _ h => ⟨v, h.1⟩) fun _ _ => False.elim
    · exact iff_of_true (.inr hvs.1) (.inr trivial)
  | doubleLiteral v | integerLiteral v | booleanLiteral v =>
    exact fun _ => keepsCounts_pure.satTracks
  | stringLiteral v =>
    intro s _
    have h : KeepsCounts (expression B (.stringLiteral v)) s := rfl
    exact h.satTracks
  | binaryOperation l r op ihl ihr =>
    intro s hs
    unfold expression
    refine satTracks_operands (d := l.irType = .variant ∨ r.irType = .variant) hs ihl ihr ?_ id
    intro s left right hs hl hr htl htr
    rw [← htl, ← htr]
    unfold binaryOperation
    simp only [isVariantType_iff]
    split
    · rename_i h
      simp only [h]
      exact satTracks_of_gives (gives_variantBinaryOperation (R := fun _ => False) hs hl hr)
        (fun _ v _ h => ⟨v, h.1⟩) fun _ _ => False.elim
    · rename_i h
      simp only [h]
      exact keepsCounts_numericOperation.satTracks
  | comparison l r op ihl ihr =>
    intro s hs
    unfold expression
    refine satTracks_operands (d := l.irType = .variant ∨ r.irType = .variant) hs ihl ihr ?_ id
    intro s left right hs hl hr htl htr
    rw [← htl, ← htr]
    unfold comparison
    simp only [isVariantType_iff]
    split
    · rename_i h
      have hcounted : ∃ u, s.Counted u := by
        rcases h with h | h
        · exact ⟨left, (hl.counted_iff hs).2 h⟩
        · exact ⟨right, (hr.counted_iff hs).2 h⟩
      obtain ⟨u, hu⟩ := hcounted
      simp only [h]
      exact satTracks_of_gives (gives_variantComparison (R := fun _ => False) hs hl hr)
        (fun _ _ g _ => ⟨u, g.counted u hu⟩) fun _ _ => False.elim
    · rename_i h
      simp only [h]
      exact keepsCounts_numericOperation.satTracks
  | unaryOperation e op ih =>
    intro s hs
    unfold expression
    refine (ih hs).bind (expression_spec e hs) (fun s₁ v g₁ hv => ?_) fun _ _ => Iff.rfl
    unfold unaryOperation
    simp only [isVariantType_iff]
    split
    · rename_i h
      refine ⟨True, satTracks_of_gives (gives_variantUnaryOperation (R := fun _ => False)
        (g₁.ready hs) hv.usable) (fun _ v _ h => ⟨v, h.1⟩) fun _ _ => False.elim, ?_⟩
      exact iff_of_true (e.counts_of_variant hv.generates (hv.type.symm.trans h)) (.inr trivial)
    · refine ⟨False, KeepsCounts.satTracks ?_, (iff_of_eq (or_false _)).symm⟩
      cases op with
      | numericPositive => exact keepsCounts_pure
      | numericNegative | booleanNegation => exact keepsCounts_operation

end

end LLVMVisitor

/-! ## Trees -/

namespace AST

/-- Before the visit of the tree ends, a variant gets a count or a for block is entered. -/
def Registers : AST → Prop
  | .statements l => RegistersList l
  | .rawBlock _ | .includeBlock .. => False
  | .printBlock e => e.Counts
  | .ifBlock c t none => c.Counts ∨ (c.Generates ∧ c.irType = .int1 ∧ t.Registers)
  | .ifBlock c t (some e) =>
    c.Counts ∨ (c.Generates ∧ c.irType = .int1 ∧ (t.Registers ∨ (t.Compiles ∧ e.Registers)))
  | .forBlock _ _ i _ _ => i.Counts ∨ i.Generates
where
  RegistersList : List AST → Prop
    | [] => False
    | s :: l => s.Registers ∨ (s.Compiles ∧ RegistersList l)

/-- The iterables of the tree are variants, which the parser enforces. -/
abbrev VariantIterables : AST → Prop :=
  Everywhere (fun _ => True) (fun e => e.valueType = .variant) fun _ _ _ => True

theorem registers_ifBlock {c : Expression} {t : AST} {e : Option AST} :
    (ifBlock c t e).Registers ↔ c.Counts ∨ (c.Generates ∧ c.irType = .int1 ∧
      (t.Registers ∨ (t.Compiles ∧ (elseOf e).Registers))) := by
  cases e <;> simp [Registers, elseOf, Registers.RegistersList]

end AST

namespace LLVMVisitor

section

variable {B : IRBuilder}

/-- What a visit makes of a state: no entry at all, or a count. -/
structure LeavesTracks (a : AST) (s s' : Codegen) : Prop where
  first : a.VariantIterables → a.Registers → ∃ u, s'.Counted u
  keeps : ¬a.Registers → s'.variablesRefCount = s.variablesRefCount ∧
    s'.overridenVariables = s.overridenVariables ∧ s'.forLoopMetadata = s.forLoopMetadata

theorem expression_tracks {e : Expression} {s s' : Codegen} {l : List IRAction} {v : Value}
    (hs : s.Ready) (h : Returns (expression B e) s l s' v) : Tracks e.Counts s s' :=
  h.sat (satTracks_expression e hs)

theorem expression_throws_tracks {e : Expression} {s s' : Codegen} {l : List IRAction}
    (hs : s.Ready) (h : Throws (expression B e) s l s') : Tracks e.Counts s s' := by
  obtain ⟨_, h⟩ := h.sat (satTracks_expression e hs)
  exact h

/-- An if block whose bodies are both visited. -/
theorem LeavesTracks.ifBlock {c : Expression} {t : AST} {e : Option AST} {s s₁ s₂ s₃ : Codegen}
    {l : List IRAction} {v : Value} (hs : s.Ready) (hc : Returns (expression B c) s l s₁ v)
    (hv : v.type = .int1) (ht : LeavesTracks t (withBlocks s₁) s₂) (htc : t.Compiles)
    (he : LeavesTracks (.elseOf e) s₂ s₃) (h₁ : s₁.Extends s₂) (h₂ : s₂.Extends s₃) :
    LeavesTracks (.ifBlock c t e) s s₃ := by
  obtain ⟨-, g₁, hr⟩ := expression_returns hs hc
  have hcond := expression_tracks hs hc
  rw [hr.type] at hv
  refine ⟨fun hvar h => ?_, fun h => ?_⟩
  · obtain ⟨-, hvt, hve⟩ := AST.everywhere_ifBlock.1 hvar
    rcases AST.registers_ifBlock.1 h with h | ⟨-, -, h | ⟨-, h⟩⟩
    · obtain ⟨u, hu⟩ := hcond.first h
      exact ⟨u, h₂.counted u (h₁.counted u hu)⟩
    · obtain ⟨u, hu⟩ := ht.first hvt h
      exact ⟨u, h₂.counted u hu⟩
    · exact he.first (AST.everywhere_elseOf hve) h
  · rw [AST.registers_ifBlock, not_or] at h
    obtain ⟨hn, h⟩ := h
    have h := not_or.1 fun h' => h ⟨hr.generates, hv, h'⟩
    obtain ⟨hcount, hov, hmd⟩ := ht.keeps h.1
    obtain ⟨hcount', hov', hmd'⟩ := he.keeps fun h' => h.2 ⟨htc, h'⟩
    exact ⟨hcount'.trans (hcount.trans (hcond.keeps hn)), hov'.trans (hov.trans g₁.overriden),
      hmd'.trans (hmd.trans g₁.metadata)⟩

/-- A for block that is entered. -/
theorem LeavesTracks.forBlock {k v : Option Text} {i : Expression} {b : AST} {e : Option AST}
    {s s₁ s' : Codegen} {l : List IRAction} {it : Value} (hs : s.Ready)
    (hi : Returns (expression B i) (withLoop s) l s₁ it) (h : s₁.Extends s') :
    LeavesTracks (.forBlock k v i b e) s s' := by
  obtain ⟨-, g₁, hr⟩ := expression_returns (ready_withLoop hs) hi
  refine ⟨fun hvar _ => ?_, fun hn => absurd (.inr hr.generates) hn⟩
  have hit := i.irType_of_variant (AST.everywhere_forBlock.1 hvar).2.1
  have hcount := (hr.usable.counted_iff (g₁.ready (ready_withLoop hs))).2 (hr.type.trans hit)
  exact ⟨it, h.counted it hcount⟩

theorem Visits.tracks {a : AST} {s s' : Codegen} {l : List IRAction} {r : Bool}
    (h : Visits B a s l s' r) : s.Ready → LeavesTracks a s s' := by
  induction h with
  | nil => exact fun _ => ⟨fun _ h => absurd h id, fun _ => ⟨rfl, rfl, rfl⟩⟩
  | cons ha hs₁ has iha ihas =>
    intro hs
    have hc := (ha.compiles_iff hs).2 rfl
    refine ⟨fun hv hr => ?_, fun hr => ?_⟩
    · rcases hr with hr | ⟨-, hr⟩
      · obtain ⟨u, hu⟩ := (iha hs).first hv.1 hr
        exact ⟨u, (has.frame hs₁).1.counted u hu⟩
      · exact (ihas hs₁).first hv.2 hr
    · obtain ⟨h₁, h₂⟩ := not_or.1 hr
      obtain ⟨hcount, hov, hmd⟩ := (ihas hs₁).keeps fun h => h₂ ⟨hc, h⟩
      obtain ⟨hcount', hov', hmd'⟩ := (iha hs).keeps h₁
      exact ⟨hcount.trans hcount', hov.trans hov', hmd.trans hmd'⟩
  | consThrows ha iha =>
    intro hs
    have hc := (ha.compiles_iff hs).not.2 (by simp)
    refine ⟨fun hv hr => ?_, fun hr => (iha hs).keeps (not_or.1 hr).1⟩
    exact (iha hs).first hv.1 (hr.resolve_right fun h => hc h.1)
  | rawBlock h =>
    intro hs
    have g := (h.sat (gives_printText (R := fun _ => True) hs)).2.1
    exact ⟨fun _ h => absurd h id, fun _ => ⟨h.sat keepsCounts_printText, g.overriden, g.metadata⟩⟩
  | printBlock he hs₁ hp =>
    intro hs
    obtain ⟨-, g₁, hv⟩ := expression_returns hs he
    have ht := expression_tracks hs he
    have g₂ := (hp.sat (gives_printValue (R := fun _ => True) hs₁ hv.usable)).2.1
    refine ⟨fun _ hr => ?_, fun hr => ?_⟩
    · obtain ⟨u, hu⟩ := ht.first hr
      exact ⟨u, g₂.counted u hu⟩
    · have hvar : _ ≠ IRType.variant := fun h =>
        hr (Expr.counts_of_variant _ hv.generates (hv.type.symm.trans h))
      exact ⟨(hp.sat (keepsCounts_printValue hvar)).trans (ht.keeps hr),
        g₂.overriden.trans g₁.overriden, g₂.metadata.trans g₁.metadata⟩
  | printThrows he =>
    intro hs
    have g₁ := (expression_throws hs he).2.1
    have ht := expression_throws_tracks hs he
    exact ⟨fun _ => ht.first, fun hr => ⟨ht.keeps hr, g₁.overriden, g₁.metadata⟩⟩
  | ifBlock hc hs₁ hv ht hs₂ he iht ihe =>
    intro hs
    have hs₁' := ready_withBlocks hs₁
    have h₁ := (extends_withBlocks _).trans (ht.frame hs₁').1
    exact LeavesTracks.ifBlock hs hc hv (iht hs₁') ((ht.compiles_iff hs₁').2 rfl) (ihe hs₂) h₁
      (he.frame hs₂).1
  | ifCondition hc =>
    intro hs
    obtain ⟨-, g₁, hn⟩ := expression_throws hs hc
    have hcond := expression_throws_tracks hs hc
    refine ⟨fun _ h => hcond.first ?_, fun h => ?_⟩
    · exact (AST.registers_ifBlock.1 h).resolve_right fun h => hn h.1
    · rw [AST.registers_ifBlock, not_or] at h
      exact ⟨hcond.keeps h.1, g₁.overriden, g₁.metadata⟩
  | ifType hc hv =>
    intro hs
    obtain ⟨-, g₁, hr⟩ := expression_returns hs hc
    have hcond := expression_tracks hs hc
    rw [hr.type] at hv
    refine ⟨fun _ h => hcond.first ?_, fun h => ?_⟩
    · exact (AST.registers_ifBlock.1 h).resolve_right fun h => hv h.2.1
    · rw [AST.registers_ifBlock, not_or] at h
      exact ⟨hcond.keeps h.1, g₁.overriden, g₁.metadata⟩
  | ifThen hc hs₁ hv ht iht =>
    intro hs
    have hs₁' := ready_withBlocks hs₁
    obtain ⟨-, g₁, hr⟩ := expression_returns hs hc
    have hcond := expression_tracks hs hc
    have hn := (ht.compiles_iff hs₁').not.2 (by simp)
    rw [hr.type] at hv
    refine ⟨fun hvar h => ?_, fun h => ?_⟩
    · obtain ⟨-, hvt, -⟩ := AST.everywhere_ifBlock.1 hvar
      rcases AST.registers_ifBlock.1 h with h | ⟨-, -, h | ⟨h, -⟩⟩
      · obtain ⟨u, hu⟩ := hcond.first h
        exact ⟨u, (ht.frame hs₁').1.counted u hu⟩
      · exact (iht hs₁').first hvt h
      · exact absurd h hn
    · rw [AST.registers_ifBlock, not_or] at h
      obtain ⟨h₁, h⟩ := h
      obtain ⟨hcount, hov, hmd⟩ := (iht hs₁').keeps fun h' => h ⟨hr.generates, hv, .inl h'⟩
      exact ⟨hcount.trans (hcond.keeps h₁), hov.trans g₁.overriden, hmd.trans g₁.metadata⟩
  | ifElse hc hs₁ hv ht hs₂ he iht ihe =>
    intro hs
    have hs₁' := ready_withBlocks hs₁
    have h₁ := (extends_withBlocks _).trans (ht.frame hs₁').1
    exact LeavesTracks.ifBlock hs hc hv (iht hs₁') ((ht.compiles_iff hs₁').2 rfl) (ihe hs₂) h₁
      (he.frame hs₂).1
  | forIterable hi =>
    intro hs
    obtain ⟨-, g₁, hn⟩ := expression_throws (ready_withLoop hs) hi
    have ht := expression_throws_tracks (ready_withLoop hs) hi
    refine ⟨fun _ h => ht.first (h.resolve_right hn), fun h => ?_⟩
    exact ⟨ht.keeps (not_or.1 h).1, g₁.overriden, g₁.metadata⟩
  | forBlock hi hs₁ hf hs₂ hb hs₃ hl hs₄ he hs₅ hz ihb ihe =>
    intro hs
    have hloop := loopVisit hf (hb.frame hs₂).1 ((hb.frame hs₂).2 rfl) hs₃ hl
    have hF := (hz.sat (finishLoop_spec hs₅)).1
    exact LeavesTracks.forBlock hs hi (hloop.entered.extends.trans ((hb.frame hs₂).1.trans
      (hloop.left.extends.trans ((he.frame hs₄).1.trans hF.extends))))
  | forBody hi hs₁ hf hs₂ hb ihb =>
    intro hs
    have hE := hf.sat (enterLoop_spec (E := fun _ _ _ => True))
    exact LeavesTracks.forBlock hs hi (hE.extends.trans (hb.frame hs₂).1)
  | forElse hi hs₁ hf hs₂ hb hs₃ hl hs₄ he ihb ihe =>
    intro hs
    have hloop := loopVisit hf (hb.frame hs₂).1 ((hb.frame hs₂).2 rfl) hs₃ hl
    exact LeavesTracks.forBlock hs hi (hloop.entered.extends.trans ((hb.frame hs₂).1.trans
      (hloop.left.extends.trans (he.frame hs₄).1)))
  | forFinish hi hs₁ hf hs₂ hb hs₃ hl hs₄ he hs₅ hz ihb ihe =>
    intro hs
    have hloop := loopVisit hf (hb.frame hs₂).1 ((hb.frame hs₂).2 rfl) hs₃ hl
    obtain ⟨_, hF, -⟩ := hz.sat (finishLoop_spec hs₅)
    exact LeavesTracks.forBlock hs hi (hloop.entered.extends.trans ((hb.frame hs₂).1.trans
      (hloop.left.extends.trans ((he.frame hs₄).1.trans hF.extends))))
  | includeBlock => exact fun _ => ⟨fun _ h => absurd h id, fun _ => ⟨rfl, rfl, rfl⟩⟩

/-- A visit that returns adds no metadata. -/
theorem Visits.metadata_none {a : AST} {s s' : Codegen} {l : List IRAction} {r : Bool}
    (h : Visits B a s l s' r) : s.Ready → r = true → ∀ u, s.forLoopMetadata u = none →
      s'.forLoopMetadata u = none := by
  induction h with
  | nil => exact fun _ _ _ => id
  | cons ha hs₁ has iha ihas => exact fun hs hr u hu => ihas hs₁ hr u (iha hs rfl u hu)
  | rawBlock h =>
    intro hs _ u hu
    rwa [(h.sat (gives_printText (R := fun _ => True) hs)).2.1.metadata]
  | printBlock he hs₁ hp =>
    intro hs _ u hu
    obtain ⟨-, g₁, hv⟩ := expression_returns hs he
    rwa [(hp.sat (gives_printValue (R := fun _ => True) hs₁ hv.usable)).2.1.metadata, g₁.metadata]
  | ifBlock hc hs₁ hv ht hs₂ he iht ihe =>
    intro hs _ u hu
    have g₁ := (expression_returns hs hc).2.1
    refine ihe hs₂ rfl u (iht (ready_withBlocks hs₁) rfl u ?_)
    exact (congrFun g₁.metadata u).trans hu
  | forBlock hi hs₁ hf hs₂ hb hs₃ hl hs₄ he hs₅ hz ihb ihe =>
    intro hs _ u hu
    have g₁ := (expression_returns (ready_withLoop hs) hi).2.1
    have hloop := loopVisit hf (hb.frame hs₂).1 ((hb.frame hs₂).2 rfl) hs₃ hl
    have hF := (hz.sat (finishLoop_spec hs₅)).1
    rw [hF.metadata, Function.update_apply]
    split_ifs with hne
    · rfl
    · refine ihe hs₄ rfl u ?_
      rw [hloop.left.metadata, Function.update_of_ne hne]
      refine ihb hs₂ rfl u ?_
      obtain ⟨_, _, _, _, _, _, _, _, hmd, -⟩ := hloop.entered.calls
      rw [hmd, Function.update_of_ne hne, g₁.metadata]
      exact hu
  | _ => exact fun _ hr => nomatch hr

/-- The state after a function of a clean visitor. -/
theorem visit_clean {a : AST} {s : Codegen} (hs : s.Clean) :
    (a.Compiles ∨ ¬a.Registers → (visit B a s).state.Clean) ∧
      (a.VariantIterables → (visit B a s).state.Clean → a.Compiles ∨ ¬a.Registers) := by
  obtain ⟨l, s', r, h, hok, herr⟩ := visit_run B a hs
  have hcompiles := h.compiles_iff Codegen.ready_start
  cases r with
  | true =>
    rw [hok rfl]
    refine ⟨fun _ => ⟨fun x => ?_, fun _ => rfl, fun u => ?_⟩, fun _ _ => .inl (hcompiles.2 rfl)⟩
    · exact congrFun ((h.frame Codegen.ready_start).2 rfl) x
    · exact h.metadata_none Codegen.ready_start rfl u rfl
  | false =>
    obtain ⟨err, hrun⟩ := herr rfl
    have ht := h.tracks Codegen.ready_start
    have hn : ¬a.Compiles := fun h => nomatch hcompiles.1 h
    rw [hrun]
    refine ⟨fun h => ?_, fun hvar hclean => .inr fun hr => ?_⟩
    · obtain ⟨hcount, hov, hmd⟩ := ht.keeps (h.resolve_left hn)
      exact ⟨congrFun hov, congrFun hcount, congrFun hmd⟩
    · obtain ⟨u, hu⟩ := ht.first hvar hr
      exact hu (hclean.counts u)

/-- A clean visitor makes what a new one makes. -/
theorem visit_of_clean {a : AST} {s : Codegen} (hs : s.Clean) : visit B a s = visit B a .fresh := by
  have hstart : ({ s with next := 0, loops := 0 } : Codegen) = .fresh := by
    obtain ⟨ho, hc, hm⟩ := hs
    unfold Codegen.fresh
    rw [show s.overridenVariables = fun _ => none from funext ho,
      show s.variablesRefCount = fun _ => none from funext hc,
      show s.forLoopMetadata = fun _ => none from funext hm]
  have h : visit B a s = visit B a { s with next := 0, loops := 0 } := rfl
  rw [h, hstart]

end

end LLVMVisitor

/-! ## Engines -/

namespace LLVMBackend

/-- An engine after some calls of `createFunction`. -/
def createFunctions (B : IRBuilder) (verify : List IRAction → Bool) :
    List (Text × AST) → Engine → Engine
  | [], E => E
  | (name, a) :: calls, E =>
    createFunctions B verify calls (createFunction B verify name a E).1

/-- The function that is made of a tree on a new engine is accepted. -/
def Makes (B : IRBuilder) (verify : List IRAction → Bool) (a : AST) : Prop :=
  a.Compiles ∧ verify (LLVMVisitor.visit B a .fresh).log = true

/-- Nothing is left of a call that threw. -/
structure Intact (verify : List IRAction → Bool) (E : Engine) : Prop where
  clean : E.codegen.Clean
  /-- no function is unfinished -/
  finished : E.function = none
  accepted : ∀ f ∈ E.module, f.accepted verify = true

/-- Whatever comes next is made as on a new engine. -/
def Serves (B : IRBuilder) (verify : List IRAction → Bool) (E : Engine) : Prop :=
  ∀ name a, E.functions name = none →
    (createFunction B verify name a E).2 = (createFunction B verify name a .fresh).2

theorem intact_fresh (verify : List IRAction → Bool) : Intact verify .fresh :=
  ⟨Codegen.clean_fresh, rfl, nofun⟩

section

variable {B : IRBuilder} {verify : List IRAction → Bool} {name : Text} {a : AST} {E : Engine}
  {log : List IRAction} {module : List ModuleFunction}

theorem visit_error {err : Failure}
    (h : (LLVMVisitor.visit B a E.codegen).result = .error err) :
    E.visit B a = (⟨(LLVMVisitor.visit B a E.codegen).state,
      E.linked (LLVMVisitor.visit B a E.codegen).log, some E.module.length, E.functions⟩,
      .error err) := by
  simp only [Engine.visit, h]

theorem visit_ok (h : (LLVMVisitor.visit B a E.codegen).result = .ok ()) :
    E.visit B a = (⟨(LLVMVisitor.visit B a E.codegen).state,
      E.linked (LLVMVisitor.visit B a E.codegen).log, none, E.functions⟩,
      .ok (LLVMVisitor.visit B a E.codegen).log) := by
  simp only [Engine.visit, h]

/-- A call whose visit throws. -/
theorem createFunction_error {err : Failure} (hn : E.functions name = none)
    (h : (LLVMVisitor.visit B a E.codegen).result = .error err) :
    createFunction B verify name a E = (⟨(LLVMVisitor.visit B a E.codegen).state,
      E.linked (LLVMVisitor.visit B a E.codegen).log, some E.module.length, E.functions⟩,
      .error err) := by
  unfold createFunction
  rw [hn, visit_error h]

/-- A call whose function is rejected. -/
theorem createFunction_rejected {err : Failure} (hn : E.functions name = none)
    (h : (LLVMVisitor.visit B a E.codegen).result = .ok ())
    (hverify : verifyIR verify (LLVMVisitor.visit B a E.codegen).log
      (E.linked (LLVMVisitor.visit B a E.codegen).log) = .error err) :
    createFunction B verify name a E = (⟨(LLVMVisitor.visit B a E.codegen).state,
      E.linked (LLVMVisitor.visit B a E.codegen).log, none, E.functions⟩, .error err) := by
  unfold createFunction
  rw [hn, visit_ok h]
  simp only [hverify]

/-- A call whose function is accepted. -/
theorem createFunction_ok (hn : E.functions name = none)
    (h : (LLVMVisitor.visit B a E.codegen).result = .ok ())
    (hverify : verifyIR verify (LLVMVisitor.visit B a E.codegen).log
      (E.linked (LLVMVisitor.visit B a E.codegen).log) = .ok ()) :
    createFunction B verify name a E = (⟨(LLVMVisitor.visit B a E.codegen).state,
      E.linked (LLVMVisitor.visit B a E.codegen).log, none,
      Function.update E.functions name (some (LLVMVisitor.visit B a E.codegen).log)⟩,
      .ok (LLVMVisitor.visit B a E.codegen).log) := by
  unfold createFunction
  rw [hn, visit_ok h]
  simp only [hverify]

theorem createFunction_codegen (hn : E.functions name = none) :
    (createFunction B verify name a E).1.codegen = (LLVMVisitor.visit B a E.codegen).state := by
  cases h : (LLVMVisitor.visit B a E.codegen).result with
  | error err => rw [createFunction_error hn h]
  | ok u =>
    cases hverify : verifyIR verify (LLVMVisitor.visit B a E.codegen).log
      (E.linked (LLVMVisitor.visit B a E.codegen).log) with
    | error err => rw [createFunction_rejected hn h hverify]
    | ok u => rw [createFunction_ok hn h hverify]

/-- The visit of a tree on a clean engine. -/
theorem visit_result_iff (a : AST) :
    (LLVMVisitor.visit B a .fresh).result = .ok () ↔ a.Compiles := by
  obtain ⟨l, s', r, h, hok, herr⟩ := visit_run B a Codegen.clean_fresh
  rw [h.compiles_iff Codegen.ready_start]
  cases r with
  | true => simp [hok rfl]
  | false =>
    obtain ⟨err, hrun⟩ := herr rfl
    simp [hrun]

/-- The module with a function that is deleted or not accepted accepts no other. -/
theorem verifyIR_ne_ok (h : ∃ f ∈ module, f.accepted verify = false) :
    verifyIR verify log module ≠ .ok () := by
  obtain ⟨f, hf, hrejected⟩ := h
  unfold verifyIR
  have hall : module.all (·.accepted verify) ≠ true := fun hall => by
    rw [List.all_eq_true.1 hall f hf] at hrejected
    cases hrejected
  split_ifs <;> simp

namespace Intact

theorem linked (hE : Intact verify E) : E.linked log = E.module ++ [.defined log] := by
  unfold Engine.linked
  rw [hE.finished]

/-- A function comes to others that are accepted. -/
theorem verifies (hE : Intact verify E) (log : List IRAction) :
    verifyIR verify log (E.linked log) =
      if verify log then .ok () else .error verificationError := by
  rw [hE.linked]
  unfold verifyIR
  cases hlog : verify log with
  | false => rfl
  | true =>
    have hdeleted : ModuleFunction.deleted ∉ E.module ++ [.defined log] := by
      intro hmem
      rcases List.mem_append.1 hmem with hmem | hmem
      · cases hE.accepted _ hmem
      · cases List.mem_singleton.1 hmem
    have hall : (E.module ++ [ModuleFunction.defined log]).all (·.accepted verify) = true := by
      rw [List.all_append, Bool.and_eq_true, List.all_eq_true]
      exact ⟨hE.accepted, by simpa [ModuleFunction.accepted] using hlog⟩
    rw [if_neg (by simp), if_neg hdeleted, if_pos hall, if_pos rfl]

/-- What a call makes of an engine on which nothing was left. -/
theorem createFunction_result (hE : Intact verify E) (hn : E.functions name = none) :
    (createFunction B verify name a E).2 =
      match (LLVMVisitor.visit B a .fresh).result with
      | .error err => .error err
      | .ok () =>
        if verify (LLVMVisitor.visit B a .fresh).log then .ok (LLVMVisitor.visit B a .fresh).log
        else .error verificationError := by
  have hvisit : LLVMVisitor.visit B a E.codegen = LLVMVisitor.visit B a .fresh :=
    visit_of_clean hE.clean
  cases h : (LLVMVisitor.visit B a E.codegen).result with
  | error err =>
    rw [createFunction_error hn h, ← hvisit, h]
  | ok u =>
    have hverify := hE.verifies (LLVMVisitor.visit B a E.codegen).log
    rw [← hvisit, h]
    split_ifs at hverify ⊢ with hlog
    · rw [createFunction_ok hn h hverify]
    · rw [createFunction_rejected hn h hverify]

theorem serves (hE : Intact verify E) : Serves B verify E := fun _ _ hn => by
  rw [hE.createFunction_result hn, (intact_fresh verify).createFunction_result rfl]

/-- A call that makes its function leaves nothing. -/
theorem after (hE : Intact verify E) (ha : Makes B verify a) :
    Intact verify (createFunction B verify name a E).1 := by
  obtain ⟨hcompiles, hlog⟩ := ha
  have hclean := (visit_clean (B := B) hE.clean).1 (.inl hcompiles)
  have hvisit : LLVMVisitor.visit B a E.codegen = LLVMVisitor.visit B a .fresh :=
    visit_of_clean hE.clean
  have hresult : (LLVMVisitor.visit B a E.codegen).result = .ok () :=
    hvisit ▸ (visit_result_iff a).2 hcompiles
  cases hn : E.functions name with
  | some f =>
    unfold createFunction
    rw [hn]
    exact hE
  | none =>
    rw [← hvisit] at hlog
    rw [createFunction_ok hn hresult ((hE.verifies _).trans (if_pos hlog))]
    refine ⟨hclean, rfl, fun f hf => ?_⟩
    rw [hE.linked] at hf
    rcases List.mem_append.1 hf with hf | hf
    · exact hE.accepted f hf
    · rw [List.mem_singleton.1 hf]
      exact hlog

end Intact

/-- An engine in whose module an unfinished function is linked, or one that is not accepted. -/
def Spoilt (verify : List IRAction → Bool) (E : Engine) : Prop :=
  (∃ place, E.function = some place ∧ place < E.module.length) ∨
    E.function = none ∧ ∃ f ∈ E.module, f.accepted verify = false

/-- A call that throws leaves its function in the module, and it has made none. -/
theorem Intact.spoilt (hE : Intact verify E) (hn : E.functions name = none)
    (ha : ¬Makes B verify a) :
    Spoilt verify (createFunction B verify name a E).1 ∧
      (createFunction B verify name a E).1.functions name = none := by
  have hvisit : LLVMVisitor.visit B a E.codegen = LLVMVisitor.visit B a .fresh :=
    visit_of_clean hE.clean
  cases h : (LLVMVisitor.visit B a E.codegen).result with
  | error err =>
    rw [createFunction_error hn h]
    exact ⟨.inl ⟨_, rfl, by simp [hE.linked]⟩, hn⟩
  | ok u =>
    have hlog : ¬verify (LLVMVisitor.visit B a E.codegen).log = true := fun hlog =>
      ha ⟨(visit_result_iff (B := B) a).1 (hvisit ▸ h), hvisit ▸ hlog⟩
    rw [createFunction_rejected hn h ((hE.verifies _).trans (if_neg hlog))]
    refine ⟨.inr ⟨rfl, .defined _, ?_, Bool.eq_false_iff.2 hlog⟩, hn⟩
    simp [hE.linked]

/-- No function is made any more on such an engine. -/
theorem Spoilt.ne_ok (h : Spoilt verify E) (hn : E.functions name = none)
    (f : List IRAction) : (createFunction B verify name a E).2 ≠ .ok f := by
  cases hresult : (LLVMVisitor.visit B a E.codegen).result with
  | error err =>
    rw [createFunction_error hn hresult]
    nofun
  | ok u =>
    have hrejected : verifyIR verify (LLVMVisitor.visit B a E.codegen).log
        (E.linked (LLVMVisitor.visit B a E.codegen).log) ≠ .ok () :=
      verifyIR_ne_ok <| by
        unfold Engine.linked
        rcases h with ⟨place, hplace, hlt⟩ | ⟨hnone, f, hf, hrejected⟩
        · rw [hplace]
          exact ⟨.deleted, List.mem_append_left _ (List.mem_set hlt _), rfl⟩
        · rw [hnone]
          exact ⟨f, List.mem_append_left _ hf, hrejected⟩
    cases hverify : verifyIR verify (LLVMVisitor.visit B a E.codegen).log
      (E.linked (LLVMVisitor.visit B a E.codegen).log) with
    | error err =>
      rw [createFunction_rejected hn hresult hverify]
      nofun
    | ok u => exact absurd hverify hrejected

/-- After a call on an engine on which nothing was left, whatever comes next is made as on a new
engine exactly when the call has made its function. -/
theorem serves_createFunction_iff (hverify : Makes B verify (.statements []))
    (hE : Intact verify E) (hn : E.functions name = none) :
    Serves B verify (createFunction B verify name a E).1 ↔ Makes B verify a := by
  refine ⟨fun h => ?_, fun h => (hE.after h).serves⟩
  by_contra ha
  obtain ⟨hspoilt, hn'⟩ := hE.spoilt hn ha
  refine hspoilt.ne_ok (B := B) (a := .statements []) hn'
    (LLVMVisitor.visit B (.statements []) .fresh).log ?_
  rw [h name (.statements []) hn', (intact_fresh verify).createFunction_result rfl,
    (visit_result_iff _).2 hverify.1]
  exact if_pos hverify.2

theorem createFunctions_intact : ∀ {calls : List (Text × AST)} {E : Engine}, Intact verify E →
    (∀ p ∈ calls, Makes B verify p.2) → Intact verify (createFunctions B verify calls E)
  | [], _, hE, _ => hE
  | (name, a) :: calls, E, hE, h => by
    unfold createFunctions
    refine createFunctions_intact ?_ fun p hp => h p (List.mem_cons_of_mem _ hp)
    exact hE.after (h (name, a) List.mem_cons_self)

end

/-- A call of `createFunction` puts the three maps back exactly when the tree compiles, or the
visitor throws before a variant is made. But what comes next is made as on a new engine only when
the call has made its function: one that throws leaves a function in the module that is deleted
there or that the verifier meets again. So nothing is left of calls none of which throws. -/
theorem engine_stays_clean (B : IRBuilder) (verify : List IRAction → Bool)
    (hverify : verify (LLVMVisitor.visit B (.statements []) .fresh).log = true) :
    (∀ E name a, Intact verify E → E.functions name = none → a.VariantIterables →
      ((createFunction B verify name a E).1.codegen.Clean ↔ a.Compiles ∨ ¬a.Registers) ∧
      (Serves B verify (createFunction B verify name a E).1 ↔ Makes B verify a)) ∧
    ∀ calls : List (Text × AST), (∀ p ∈ calls, Makes B verify p.2) →
      Intact verify (createFunctions B verify calls .fresh) := by
  refine ⟨fun E name a hE hn hvar => ⟨?_, ?_⟩, fun calls h =>
    createFunctions_intact (intact_fresh verify) h⟩
  · rw [createFunction_codegen hn]
    exact ⟨(visit_clean hE.clean).2 hvar, (visit_clean hE.clean).1⟩
  · exact serves_createFunction_iff ⟨trivial, hverify⟩ hE hn

/-- `{% if 5 %}a{% endif %}`, which throws before a variant is made. -/
theorem engine_stays_clean_literal :
    (createFunction .noFolding (fun _ => true) ['a']
        (.ifBlock (.integerLiteral 5) (.rawBlock ['a']) none) .fresh).1.codegen.Clean ∧
      ¬Serves .noFolding (fun _ => true) (createFunction .noFolding (fun _ => true) ['a']
        (.ifBlock (.integerLiteral 5) (.rawBlock ['a']) none) .fresh).1 ∧
      Intact (fun _ => true) (createFunctions .noFolding (fun _ => true)
        [(['b'], .printBlock (.variableReference ['x']))] .fresh) := by
  obtain ⟨hcall, hrun⟩ := engine_stays_clean .noFolding (fun _ => true) rfl
  have hif := hcall .fresh ['a'] (.ifBlock (.integerLiteral 5) (.rawBlock ['a']) none)
    (intact_fresh _) rfl ⟨trivial, trivial⟩
  refine ⟨hif.1.2 (.inr ?_), fun h => ?_, hrun _ ?_⟩
  · rintro (h | ⟨-, h, -⟩)
    · exact h
    · cases h
  · obtain ⟨⟨-, h, -⟩, -⟩ := hif.2.1 h
    cases h
  · exact List.forall_mem_singleton.2 ⟨trivial, rfl⟩

/-- `{% for x in a %}{% if x %}b{% endif %}{% endfor %}` -/
def throwsInLoop : AST :=
  .forBlock none (some ['x']) (.variableReference ['a'])
    (.ifBlock (.variableReference ['x']) (.rawBlock ['b']) none) none

/-- After a compilation that throws in the body of a loop over `x`, the visitor has that loop's
value for the `x` of `{{ x }}`, and no function is made of it. -/
theorem not_engine_clean_throwsInLoop :
    ∃ E, E = (createFunction .noFolding (fun _ => true) ['a'] throwsInLoop .fresh).1 ∧
      ((createFunction .noFolding (fun _ => true) ['a'] throwsInLoop .fresh).2 matches .error _) ∧
      ¬E.codegen.Clean ∧
      (LLVMVisitor.visit .noFolding (.printBlock (.variableReference ['x'])) E.codegen).log ≠
        (LLVMVisitor.visit .noFolding (.printBlock (.variableReference ['x'])) .fresh).log ∧
      (createFunction .noFolding (fun _ => true) ['b'] (.printBlock (.variableReference ['x'])) E).2 ≠
        (createFunction .noFolding (fun _ => true) ['b'] (.printBlock (.variableReference ['x']))
          .fresh).2 := by
  refine ⟨_, rfl, rfl, fun h => ?_, fun h => ?_, fun h => ?_⟩
  · cases h.overriden ['x']
  · cases h
  · cases h

end LLVMBackend

end B2
