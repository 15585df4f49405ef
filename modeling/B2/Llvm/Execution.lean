import B2.Llvm.Statements
import B2.Php.Execution

/-!
# What the visitor's code does

The code of every expression computes the value that the reference evaluation
gives, and the code of every statement makes the prints of the reference
rendering.
-/

namespace B2

open Effect.Traced (Sat Returns returns_bind sat_bind sat_pure sat_tell sat_get sat_modify)
open PHPBindings LLVMVisitor

namespace Php

variable {Z W : Type} {B : IRBuilder} {R : Runtime Z W} {s : Codegen}

/-! ### Loops -/

section

variable {α : Type} {Q : Code → Codegen → α → Prop}

theorem emits_getForLoopMetadata {it : Value} {k : ForLoopMetadata → Gen α}
    (h : Emits (k (readMetadata s it)) (withMetadata s it (some (readMetadata s it))) Q) :
    Emits (do
      let metadata ← getForLoopMetadata it
      k metadata) s Q := by
  rw [Emits, sat_bind, sat_getForLoopMetadata]
  refine Sat.mono h ?_ fun _ _ _ _ => trivial
  rintro l s' a ⟨c, hc, h⟩
  exact ⟨c, ⟨hc.items, hc.spans⟩, h⟩

theorem emits_setForLoopMetadata {it : Value} {metadata : Option ForLoopMetadata} {k : Gen α}
    (h : Emits k (withMetadata s it metadata) Q) :
    Emits (do
      setForLoopMetadata it metadata
      k) s Q := by
  rw [Emits, sat_bind, sat_setForLoopMetadata]
  refine Sat.mono h ?_ fun _ _ _ _ => trivial
  rintro l s' a ⟨c, hc, h⟩
  exact ⟨c, ⟨hc.items, hc.spans⟩, h⟩

theorem emits_alloca {t : IRType} {size : Nat} {k : Value → Gen α}
    (h : Emits (k (.instruction s.next (.pointer t))) (Gen.bump s) fun d s' a =>
      Q ((Cfg.Code.op (.alloca s.next t size)).seq d) s' a) :
    Emits (do
      let pointer ← Gen.createAlloca t size
      k pointer) s Q := by
  rw [Emits, sat_bind, Gen.sat_createAlloca]
  refine Sat.mono h ?_ fun _ _ _ _ => trivial
  rintro l s' a ⟨d, hd, h⟩
  have hw : Wrote [IRAction.alloca s.next t size] s (Gen.bump s) (.op (.alloca s.next t size)) :=
    wrote_op rfl (Nat.le_succ _)
  exact ⟨_, hw.seq hd, h⟩

theorem emits_call {f : RuntimeFunction} {args : List Value} {k : Value → Gen α}
    (h : Emits (k (.instruction s.next f.returnType)) (Gen.bump s) fun d s' a =>
      Q ((Cfg.Code.op (.call s.next f args)).seq d) s' a) :
    Emits (do
      let result ← Gen.createCall f args
      k result) s Q := by
  rw [Emits, sat_bind, Gen.sat_createCall]
  refine Sat.mono h ?_ fun _ _ _ _ => trivial
  rintro l s' a ⟨d, hd, h⟩
  have hw : Wrote [IRAction.call s.next f args] s (Gen.bump s) (.op (.call s.next f args)) :=
    wrote_op rfl (Nat.le_succ _)
  exact ⟨_, hw.seq hd, h⟩

end

theorem computes_forloopInit {m : State Z W} {loop id n n' : Nat} {it pos : Value} {z : Z}
    (hn : n ≤ id) (hz : Has R n' m it (.variant z)) :
    Computes R n loop (.op (.call id (.forloopInit loop) [it, pos])) m
      (some (R.elements z m.world, m.world)) fun m' es =>
        m'.iterator loop = es ∧ m'.register id = .pointer !es.isEmpty := by
  have hcall : R.call m id (.forloopInit loop) [R.valueOf m it, R.valueOf m pos] =
      (m.setIterator loop (R.elements z m.world)).setRegister id
        (.pointer !(R.elements z m.world).isEmpty) := by
    rw [hz.valueOf]
    rfl
  refine computes_of_exec (congrArg _ hcall.symm) rfl ?_ rfl ⟨if_pos rfl, if_pos rfl⟩
  exact ((Keeps.refl m).setIterator le_rfl _).setRegister hn _

/-- The iteration begins, and the condition says whether there is an element. -/
theorem emits_forLoopInit (hB : B.Sound R) {loop : Nat} {it : Value} :
    Emits (createForLoopInit B loop it) s fun c s' v => ∀ (m : State Z W) (z : Z),
      Has R s.next m it (.variant z) →
        Computes R s.next loop c m (some (R.elements z m.world, m.world)) fun m' es =>
          m'.iterator loop = es ∧ Reads R s'.next m' v (.ofBool !es.isEmpty) := by
  unfold createForLoopInit
  refine emits_alloca (emits_call (emits_setForLoopMetadata ?_))
  refine (emits_createOperation hB).mono fun c s' v hop m z hz => ?_
  have hk : Keeps s.next loop m (m.setRegister s.next (.cell s.next 0)) :=
    (Keeps.refl m).setRegister le_rfl _
  have halloca : Computes R s.next loop (.op (.alloca s.next (.pointer (.struct .bucket)) 1)) m
      (some ((), m.world)) fun m' _ => m' = m.setRegister s.next (.cell s.next 0) :=
    computes_of_exec rfl rfl hk rfl rfl
  refine halloca.step le_rfl le_rfl ?_
  rintro m₁ hk₁ - rfl
  refine Computes.pass (computes_forloopInit (Nat.le_succ s.next) (hz.keep hk₁ le_rfl))
    (Nat.le_add_right _ 2) (Nat.le_succ loop) fun m₂ es hk₂ ⟨hi₂, hr₂⟩ => ?_
  refine (hop m₂ _ (by simp [Below, Gen.bump, withMetadata])).value fun m₃ hk₃ hv => ⟨?_, hv.below, ?_⟩
  · rw [hk₃.iterator loop (Nat.lt_succ_self _), hi₂]
  · rw [hv.valueOf]
    show R.operate .isNotNull [m₂.register (s.next + 1)] = _
    rw [show m₂.register (s.next + 1) = _ from hr₂]
    rfl

/-- The pointer that a loop variable is returned through. -/
def slot (wanted : Bool) (a : Nat) : Data Z := if wanted then .cell a 0 else .pointer false

theorem emits_loopVariablePtr {wanted : Bool} :
    Emits (loopVariablePtr wanted) s fun c s' u => (wanted → s.next < s'.next) ∧
      ∀ (m : State Z W) (loops : Nat), Computes R s.next loops c m (some ((), m.world)) fun m' _ =>
        m'.iterator = m.iterator ∧ Reads R s'.next m' u (slot wanted s.next) := by
  rw [Emits, sat_loopVariablePtr]
  cases wanted with
  | true =>
    refine ⟨.op _, wrote_op rfl (Nat.le_succ _), fun _ => Nat.lt_succ_self _, fun m loops => ?_⟩
    exact computes_of_exec rfl rfl ((Keeps.refl m).setRegister le_rfl _) rfl
      ⟨rfl, Nat.lt_succ_self _, if_pos rfl⟩
  | false =>
    exact ⟨.skip, wrote_skip le_rfl, by rintro ⟨⟩, fun m loops => computes_pure ⟨rfl, trivial, rfl⟩⟩

/-- What is stored through a pointer that is not asked for is lost. -/
theorem Keeps.slot {n loops : Nat} {m m' : State Z W} (h : Keeps n loops m m') {a : Nat} (ha : n ≤ a)
    (wanted : Bool) (d : Data Z) : Keeps n loops m (m'.store (slot wanted a) d) := by
  cases wanted with
  | true => exact h.store ha 0 d
  | false => exact h

/-- The cells of the pointers after `forloop_getvalues`. -/
theorem memory_slots {hasKey hasValue : Bool} {a b : Nat} {m : State Z W} {d d' : Data Z}
    (hab : hasKey → a < b) :
    (hasKey → ((m.store (slot hasValue b) d).store (slot hasKey a) d').memory a 0 = d') ∧
      (hasValue → ((m.store (slot hasValue b) d).store (slot hasKey a) d').memory b 0 = d) := by
  constructor
  · rintro rfl
    simp [slot]
  · rintro rfl
    cases hasKey with
    | false => simp [slot, State.store]
    | true =>
      have := hab rfl
      simp [slot]
      omega

theorem computes_forloopGetvalues {m : State Z W} {loop id a b n loops : Nat} {element : Z × Z}
    {elements : List (Z × Z)} {hasKey hasValue : Bool} {hashTable hashPosition value key : Value}
    (hm : m.iterator loop = element :: elements) (hk : R.valueOf m key = slot hasKey a)
    (hv : R.valueOf m value = slot hasValue b) (ha : n ≤ a) (hb : n ≤ b) :
    Computes R n loops
      (.op (.call id (.forloopGetvalues loop) [hashTable, hashPosition, value, key])) m
      (some ((), m.world)) fun m' _ => m' =
        (m.store (slot hasValue b) (.variant element.2)).store (slot hasKey a)
          (.variant element.1) := by
  have hcall : R.call m id (.forloopGetvalues loop) [R.valueOf m hashTable,
      R.valueOf m hashPosition, R.valueOf m value, R.valueOf m key] =
      (m.store (slot hasValue b) (.variant element.2)).store (slot hasKey a)
        (.variant element.1) := by
    simp only [Runtime.call, hm, hk, hv]
  refine computes_of_exec (congrArg _ hcall.symm) ?_ ?_ ?_ rfl
  · rw [State.store_world, State.store_world]
  · exact ((Keeps.refl m).slot hb hasValue _).slot ha hasKey _
  · rw [State.store_output, State.store_output]

theorem emits_loadLoopVariable {wanted : Bool} {pointer : Value} {count : Int} :
    Emits (loadLoopVariable wanted pointer count) s fun c s' o =>
      ∀ (m : State Z W) (a loops : Nat) (d : Data Z), Reads R s.next m pointer (slot wanted a) →
        (wanted → m.memory a 0 = d) →
          Computes R s.next loops c m (some ((), m.world)) fun m' _ =>
            m'.iterator = m.iterator ∧ m'.memory = m.memory ∧
              ∀ u, o = some u → Reads R s'.next m' u d := by
  rw [Emits, sat_loadLoopVariable]
  cases wanted with
  | true =>
    refine ⟨.op _, wrote_op rfl (Nat.le_succ _), fun m a loops d hp hd => ?_⟩
    have hload : m.load (R.valueOf m pointer) = d := by
      rw [hp.valueOf]
      exact hd rfl
    refine computes_of_exec rfl rfl ((Keeps.refl m).setRegister le_rfl _) rfl ⟨rfl, rfl, ?_⟩
    rintro _ ⟨⟩
    exact ⟨Nat.lt_succ_self _, (if_pos rfl).trans hload⟩
  | false =>
    exact ⟨.skip, wrote_skip le_rfl, fun m a loops d _ _ =>
      computes_pure ⟨rfl, rfl, by rintro _ ⟨⟩⟩⟩

/-- The key and the value of the element at hand. -/
theorem emits_forLoopGetVariables {loop : Nat} {it : Value} {hasKey hasValue : Bool} :
    Emits (createForLoopGetVariables loop it hasKey hasValue) s fun c s' p =>
      ∀ (m : State Z W) (element : Z × Z) (elements : List (Z × Z)) (loops : Nat),
        m.iterator loop = element :: elements →
          Computes R s.next loops c m (some ((), m.world)) fun m' _ =>
            m'.iterator = m.iterator ∧
            (∀ u, p.1 = some u → Reads R s'.next m' u (.variant element.1)) ∧
            ∀ u, p.2 = some u → Reads R s'.next m' u (.variant element.2) := by
  unfold createForLoopGetVariables
  refine emits_getForLoopMetadata ?_
  refine (emits_loopVariablePtr (R := R)).le.bind ?_
  rintro c₁ s₁ kp ⟨hle₁, hlt, h₁⟩
  refine (emits_loopVariablePtr (R := R)).le.bind ?_
  rintro c₂ s₂ vp ⟨hle₂, -, h₂⟩
  refine emits_call ?_
  refine (emits_loadLoopVariable (R := R)).le.bind ?_
  rintro c₃ s₃ key ⟨hle₃, h₃⟩
  refine (emits_loadLoopVariable (R := R)).le.bind ?_
  rintro c₄ s₄ value ⟨hle₄, h₄⟩
  refine emits_pure fun m element elements loops hm => ?_
  have hle₁ : s.next ≤ s₁.next := hle₁
  have hle₃ : s₂.next + 1 ≤ s₃.next := hle₃
  have hle : s.next ≤ s₂.next := hle₁.trans hle₂
  refine (h₁ m loops).step le_rfl le_rfl fun m₁ hk₁ hw₁ ⟨hi₁, hkp⟩ => ?_
  have h₂ := (h₂ m₁ loops).mono (fun m' _ hk h => And.intro (hkp.keep hk hle₂) h)
  rw [← hw₁]
  refine (h₂.weaken hle₁ le_rfl).step le_rfl le_rfl fun m₂ hk₂ hw₂ ⟨hkp, hi₂, hvp⟩ => ?_
  rw [← hw₂]
  have hm₂ : m₂.iterator loop = element :: elements := by rw [hi₂, hi₁, hm]
  refine (computes_forloopGetvalues hm₂ hkp.valueOf hvp.valueOf le_rfl hle₁).step le_rfl le_rfl ?_
  intro m₃ hk₃ hw₃ heq
  obtain ⟨hkey, hvalue⟩ : (hasKey → m₃.memory s.next 0 = .variant element.1) ∧
      (hasValue → m₃.memory s₁.next 0 = .variant element.2) := by
    rw [heq]
    exact memory_slots hlt
  have hsame : ∀ id < s₂.next, m₃.register id = m₂.register id := fun id _ => by
    rw [heq, State.store_register, State.store_register]
  have hi₃ : m₃.iterator = m₂.iterator := by rw [heq, State.store_iterator, State.store_iterator]
  have hkp₃ := hkp.congr hsame (Nat.le_succ _)
  have hvp₃ := hvp.congr hsame (Nat.le_succ _)
  have h₃ := (h₃ m₃ _ loops _ hkp₃ hkey).mono fun m' _ hk h => And.intro (hvp₃.keep hk hle₃) h
  rw [← hw₃]
  refine (h₃.weaken (hle.trans (Nat.le_succ _)) le_rfl).step (hle.trans ((Nat.le_succ _).trans hle₃))
    le_rfl fun m₄ hk₄ hw₄ ⟨hvp₄, hi₄, hm₄, hkey₄⟩ => ?_
  rw [← hm₄] at hvalue
  rw [← hw₄]
  refine ((h₄ m₄ _ loops _ hvp₄ hvalue).mono fun m' _ hk h => ?_).skips skips_skip
  obtain ⟨hi₅, -, hvalue₅⟩ := h
  refine ⟨?_, fun u hu => (hkey₄ u hu).keep hk hle₄, hvalue₅⟩
  rw [hi₅, hi₄, hi₃, hi₂, hi₁]

/-- The step to the next element, and the condition says whether there is one. -/
theorem emits_forLoopNextIteration {loop : Nat} {it : Value} :
    Emits (createForLoopNextIteration loop it) s fun c s' v => ∀ (m : State Z W),
      Computes R s.next loop c m (some ((), m.world)) fun m' _ =>
        m'.iterator loop = (m.iterator loop).tail ∧
          Reads R s'.next m' v (.ofBool !(m.iterator loop).tail.isEmpty) := by
  unfold createForLoopNextIteration
  refine emits_getForLoopMetadata ⟨.op _, wrote_op rfl (Nat.le_succ _), fun m => ?_⟩
  refine computes_of_exec rfl rfl ?_ rfl ⟨if_pos rfl, Nat.lt_succ_self _, if_pos rfl⟩
  exact ((Keeps.refl m).setIterator le_rfl _).setRegister le_rfl _

/-! ## Expressions -/

/-- The loop variables have the values of `ρ`. -/
def Holds (R : Runtime Z W) (s : Codegen) (ρ : Text → Option Z) (m : State Z W) : Prop :=
  ∀ x, match s.overridenVariables x with
    | some u => ∃ z, ρ x = some z ∧ Reads R s.next m u (.variant z)
    | none => ρ x = none

theorem Holds.keep {s' : Codegen} {ρ : Text → Option Z} {m m' : State Z W} {loops : Nat}
    (h : Holds R s ρ m) (hk : Keeps s.next loops m m') (hn : s.next ≤ s'.next)
    (ho : s'.overridenVariables = s.overridenVariables) : Holds R s' ρ m' := by
  intro x
  have hx := h x
  rw [ho]
  cases hu : s.overridenVariables x with
  | none =>
    rw [hu] at hx
    exact hx
  | some u =>
    rw [hu] at hx
    obtain ⟨z, hz, hr⟩ := hx
    exact ⟨z, hz, hr.keep hk hn⟩

theorem Holds.mono {s' : Codegen} {ρ : Text → Option Z} {m : State Z W} (h : Holds R s ρ m)
    (hn : s.next ≤ s'.next) (ho : s'.overridenVariables = s.overridenVariables) : Holds R s' ρ m :=
  h.keep (Keeps.refl m : Keeps _ 0 m m) hn ho

/-- The code written for an expression computes its value. -/
def Evaluates (R : Runtime Z W) (e : Expression) (s : Codegen) (l : List IRAction) (s' : Codegen)
    (v : Value) : Prop :=
  ∃ c, Wrote l s s' c ∧ ∀ (m : State Z W) (ρ : Text → Option Z) (loops : Nat), Holds R s ρ m →
    Computes R s.next loops c m (R.eval ρ e m.world) (Has R s'.next · v)

section

variable {e e' x : Expression} {s₁ s₂ s' : Codegen} {l l₁ l₂ l₃ : List IRAction}
  {u left right v : Value}

/-- An operation on the value of an expression. -/
theorem Evaluates.operand {k : Data Z → W → Option (Data Z × W)} (h : Evaluates R e s l₁ s₁ u)
    (hop : ∃ c, Wrote l₂ s₁ s' c ∧ ∀ (m : State Z W) (d : Data Z) (loops : Nat),
      Has R s₁.next m u d → Computes R s₁.next loops c m (k d m.world) (Has R s'.next · v))
    (heval : ∀ ρ w, R.eval ρ x w = R.eval ρ e w >>= fun p => k p.1 p.2) :
    Evaluates R x s (l₁ ++ l₂) s' v := by
  obtain ⟨c, hc, h⟩ := h
  obtain ⟨d, hd, hop⟩ := hop
  refine ⟨c.seq d, hc.seq hd, fun m ρ loops hm => ?_⟩
  rw [heval]
  exact (h m ρ loops hm).bind hc.spans.le le_rfl fun m' a _ ha => hop m' a loops ha

/-- An operation on the values of two expressions. -/
theorem Evaluates.operands {k : Data Z → Data Z → W → Option (Data Z × W)}
    (h : Evaluates R e s l₁ s₁ left) (h' : Evaluates R e' s₁ l₂ s₂ right)
    (ho : s₁.overridenVariables = s.overridenVariables)
    (hop : ∃ c, Wrote l₃ s₂ s' c ∧ ∀ (m : State Z W) (dl dr : Data Z) (loops : Nat),
      Has R s₂.next m left dl → Has R s₂.next m right dr →
        Computes R s₂.next loops c m (k dl dr m.world) (Has R s'.next · v))
    (heval : ∀ ρ w, R.eval ρ x w = R.eval ρ e w >>= fun p => R.eval ρ e' p.2 >>= fun q =>
      k p.1 q.1 q.2) :
    Evaluates R x s (l₁ ++ (l₂ ++ l₃)) s' v := by
  obtain ⟨c, hc, h⟩ := h
  obtain ⟨d, hd, h'⟩ := h'
  obtain ⟨d', hd', hop⟩ := hop
  refine ⟨c.seq (d.seq d'), hc.seq (hd.seq hd'), fun m ρ loops hm => ?_⟩
  rw [heval]
  refine (h m ρ loops hm).bind hc.spans.le le_rfl fun m₁ dl hk hl => ?_
  refine (h' m₁ ρ loops (hm.keep hk hc.spans.le ho)).bind hd.spans.le le_rfl fun m₂ dr hk' hr => ?_
  exact hop m₂ dl dr loops (hl.keep hk' hd.spans.le) hr

/-- A literal needs no code. -/
theorem evaluates_literal {d : Data Z} (hn : s.next ≤ s'.next) (hb : ∀ n, Below n v)
    (hv : ∀ m : State Z W, R.valueOf m v = d) (ht : v.type ≠ .variant)
    (heval : ∀ ρ w, R.eval ρ x w = some (d, w)) : Evaluates R x s [] s' v := by
  refine ⟨.skip, wrote_skip hn, fun m ρ loops _ => ?_⟩
  rw [heval]
  exact computes_pure (Reads.has ⟨hb _, hv m⟩ ht)

theorem evaluates_variableReference {y : Text} (hs : s.Ready)
    (h : Returns (variableReferenceExpression y) s l s' v) :
    Evaluates R (.variableReference y) s l s' v := by
  obtain ⟨l₁, rfl, hl⟩ := variableReference_returns h
  have hreference : ∀ {c : Code}, Wrote l₁ s s' c → Wrote (l₁ ++ [.reference y v]) s s' c := by
    intro c hc
    refine ⟨?_, hc.spans⟩
    rw [List.flatMap_append, ← hc.items]
    exact (List.append_nil _).symm
  cases hy : s.overridenVariables y with
  | some w =>
    rw [hy] at hl
    have g := (hl.sat (gives_newReference (R := fun _ => False) hs (hs.overriden hy))).2.1
    obtain ⟨rfl, rfl⟩ := newReference_returns hl
    refine ⟨.skip, hreference (wrote_skip g.next), fun m ρ loops hm => ?_⟩
    have hρ := hm y
    rw [hy] at hρ
    obtain ⟨z, hz, hr⟩ := hρ
    have hlookup : R.lookup ρ y m.world = (z, m.world) := by
      unfold Runtime.lookup
      rw [hz]
    unfold Runtime.eval
    rw [hlookup]
    exact computes_pure ⟨⟨hr.below.mono g.next, hr.valueOf⟩, fun _ => ⟨z, rfl⟩⟩
  | none =>
    rw [hy] at hl
    obtain ⟨c, hc, hl⟩ := hl.sat (emits_variableLookup (R := R))
    refine ⟨c, hreference hc, fun m ρ loops hm => ?_⟩
    have hρ := hm y
    rw [hy] at hρ
    have hlookup : R.lookup ρ y m.world = R.getValueFromHashtable y m.world := by
      unfold Runtime.lookup
      rw [hρ]
    unfold Runtime.eval
    rw [hlookup]
    exact hl m loops

/-! ### Numbers -/

theorem emits_toDouble (hB : B.Sound R) :
    Emits (toDouble B v) s fun c s' u => ∀ (m : State Z W) (d : Data Z) (loops : Nat),
      Reads R s.next m v d →
        Computes R s.next loops c m (some (R.toDouble v.type d, m.world)) (Reads R s'.next · u) := by
  unfold toDouble Runtime.toDouble
  split_ifs with ht
  · exact emits_pure fun m d loops h => computes_pure h
  · refine (emits_createOperation hB).mono fun c s' u hop m d loops h => ?_
    rw [← h.valueOf]
    exact hop m loops (by simpa using h.below)

theorem emits_numericOperation (hB : B.Sound R) {iop fop : Operation} :
    Emits (numericOperation B iop fop left right) s fun c s' v =>
      ∀ (m : State Z W) (dl dr : Data Z) (loops : Nat), Reads R s.next m left dl →
        Reads R s.next m right dr →
          Computes R s.next loops c m
            (some (R.numeric iop fop left.type right.type dl dr, m.world))
            (Reads R s'.next · v) := by
  unfold numericOperation Runtime.numeric
  split_ifs with ht
  · refine (emits_createOperation hB).mono fun c s' u hop m dl dr loops hl hr => ?_
    rw [← hl.valueOf, ← hr.valueOf]
    exact hop m loops (by simpa using ⟨hl.below, hr.below⟩)
  · refine (emits_toDouble (R := R) hB).le.bind ?_
    rintro c₁ s₁ l ⟨hle₁, h₁⟩
    refine (emits_toDouble (R := R) hB).le.bind ?_
    rintro c₂ s₂ r ⟨hle₂, h₂⟩
    refine (emits_createOperation hB).mono fun c₃ s' u hop m dl dr loops hl hr => ?_
    refine (h₁ m dl loops hl).step hle₁ le_rfl fun m₁ hk₁ hw₁ hl₁ => ?_
    refine (h₂ m₁ dr loops (hr.keep hk₁ hle₁)).step hle₂ le_rfl fun m₂ hk₂ hw₂ hr₂ => ?_
    have hl₂ := hl₁.keep hk₂ hle₂
    rw [← hl₂.valueOf, ← hr₂.valueOf, ← hw₁, ← hw₂]
    exact hop m₂ loops (by simpa using ⟨hl₂.below, hr₂.below⟩)

/-! ### Every expression -/

theorem eval_unaryOperation {op : UnaryOperation} {k : Data Z → Data Z} (he : e.irType ≠ .variant)
    (hk : ∀ d, k d = match op with
      | .numericPositive => d
      | .numericNegative => R.operate .neg [d]
      | .booleanNegation => R.operate .not [d]) (ρ : Text → Option Z) (w : W) :
    R.eval ρ (.unaryOperation e op) w = R.eval ρ e w >>= fun p => some (k p.1, p.2) := by
  rw [Runtime.eval]
  simp only [if_neg he, hk]
  rfl

/-- What is to be shown of an expression. -/
abbrev AllEvaluate (B : IRBuilder) (R : Runtime Z W) (e : Expression) : Prop :=
  ∀ {s s' : Codegen} {l : List IRAction} {v : Value}, s.Ready →
    Returns (expression B e) s l s' v → Evaluates R e s l s' v

/-- The code of the arguments of a method call. -/
theorem evaluates_arguments {args : List (Option Expression)}
    (ih : ∀ e, some e ∈ args → AllEvaluate B R e) : ∀ {s s' : Codegen} {l : List IRAction}
      {vs : List Value}, s.Ready → Returns (expressions B args) s l s' vs →
      ∃ c, Wrote l s s' c ∧ ∀ (m : State Z W) (ρ : Text → Option Z) (loops : Nat),
        Holds R s ρ m → Computes R s.next loops c m (R.evalArguments ρ args m.world)
          fun m' zs => List.Forall₂ (Passes R s'.next m') vs zs := by
  induction args with
  | nil =>
    intro s s' l vs _ h
    cases h
    refine ⟨.skip, wrote_skip le_rfl, fun m ρ loops _ => ?_⟩
    unfold Runtime.evalArguments
    exact computes_pure .nil
  | cons arg args iha =>
    intro s s' l vs hs h
    cases arg with
    | none => cases h
    | some e =>
      obtain ⟨l₁, s₁, u, l₂, us, he, hs₁, hargs, rfl, rfl⟩ := arguments_return hs h
      obtain ⟨-, g₁, hu⟩ := expression_returns hs he
      obtain ⟨c, hc, h₁⟩ := ih e List.mem_cons_self hs he
      obtain ⟨d, hd, h₂⟩ := iha (fun e he => ih e (List.mem_cons_of_mem _ he)) hs₁ hargs
      refine ⟨c.seq d, hc.seq hd, fun m ρ loops hm => ?_⟩
      unfold Runtime.evalArguments
      refine (h₁ m ρ loops hm).bind hc.spans.le le_rfl fun m₁ du hk hdu => ?_
      refine (h₂ m₁ ρ loops (hm.keep hk hc.spans.le g₁.overriden)).map fun m₂ zs hk' hzs => ?_
      exact .cons ⟨du, hdu.keep hk' hd.spans.le, by rw [hu.type]⟩ hzs

theorem evaluates_expression (hB : B.Sound R) (e : Expression) : AllEvaluate B R e := by
  induction e using Expr.ind with
  | variableReference y =>
    intro s s' l v hs h
    unfold expression at h
    exact evaluates_variableReference hs h
  | getAttribute p a ih =>
    intro s s' l v hs h
    have hvariant := (expression_returns hs h).2.2.generates.2
    unfold expression at h
    obtain ⟨l₁, s₁, u, l₂, he, hs₁, hop, rfl, hu, ht⟩ := operand_returns hs h
    have hcode := hop.sat (emits_getAttribute (R := R) (ht.trans hvariant))
    refine (ih hs he).operand (k := fun d w =>
      let r := R.getAttribute (R.toVariant u.type d) a w
      some (.variant r.1, r.2)) hcode fun ρ w => ?_
    rw [ht, Runtime.eval]
    rfl
  | methodCall m args ih =>
    intro s s' l v hs h
    unfold expression at h
    obtain ⟨l₁, s₁, vs, l₂, hargs, hop, rfl⟩ := returns_bind.1 h
    obtain ⟨-, g₁, -, hvs, -⟩ := expressions_return hs hargs
    obtain ⟨c, hc, h₁⟩ := evaluates_arguments (fun e he => ih e he) hs hargs
    obtain ⟨d, hd, h₂⟩ := hop.sat (emits_methodCall (R := R) hB (g₁.ready hs) hvs)
    refine ⟨c.seq d, hc.seq hd, fun st ρ loops hm => ?_⟩
    unfold Runtime.eval
    exact (h₁ st ρ loops hm).bind hc.spans.le le_rfl fun m' zs _ hzs => h₂ m' zs loops hzs
  | doubleLiteral v =>
    intro s s' l u _ h
    cases h
    exact evaluates_literal le_rfl (fun _ => trivial) (fun _ => rfl) (by rintro ⟨⟩) fun _ _ => rfl
  | integerLiteral v =>
    intro s s' l u _ h
    cases h
    exact evaluates_literal le_rfl (fun _ => trivial) (fun _ => rfl) (by rintro ⟨⟩) fun _ _ => rfl
  | booleanLiteral v =>
    intro s s' l u _ h
    cases h
    exact evaluates_literal le_rfl (fun _ => trivial) (fun _ => rfl) (by rintro ⟨⟩) fun _ _ => rfl
  | stringLiteral v =>
    intro s s' l u _ h
    cases h
    exact evaluates_literal (Nat.le_succ _) (fun _ => trivial) (fun _ => rfl) (by rintro ⟨⟩) fun _ _ => rfl
  | binaryOperation l r op ihl ihr =>
    intro s s' L v hs h
    obtain ⟨-, g, hv⟩ := expression_returns hs h
    unfold expression at h
    obtain ⟨l₁, s₁, left, l₂, s₂, right, l₃, he, hs₁, he', hs₂, hop, rfl, hul, hur, htl, htr⟩ :=
      operands_return hs h
    have ho := (expression_returns hs he).2.1.overriden
    unfold binaryOperation at hop
    simp only [isVariantType_iff] at hop
    split_ifs at hop with hvar
    · have hcode := hop.sat (emits_variantBinaryOperation (R := R) hs₂ hul hur)
      refine (ihl hs he).operands (ihr hs₁ he') (k := fun dl dr w =>
        Runtime.succeeded .variant (R.binaryVariantOperation op.code (R.toVariant left.type dl)
          (R.toVariant right.type dr) w)) ho hcode fun ρ w => ?_
      rw [htl, htr] at hvar ⊢
      rw [Runtime.eval]
      simp only [if_pos hvar]
    · obtain ⟨c, hc, hcode⟩ := hop.sat (emits_numericOperation (R := R) hB)
      rw [htl, htr] at hvar
      have hsl := l.irType_cases.resolve_right (not_or.1 hvar).1
      have hscalar : v.type ≠ .variant := fun ht =>
        hvar (Expr.binaryType_eq_variant (.inl hsl) (hv.type.symm.trans ht))
      refine (ihl hs he).operands (ihr hs₁ he') (k := fun dl dr w =>
        some (R.numeric (integerOperation op) (floatOperation op) left.type right.type dl dr, w)) ho
        ⟨c, hc, fun m dl dr loops hl hr =>
          (hcode m dl dr loops hl.toReads hr.toReads).mono fun m' d _ hd => hd.has hscalar⟩
        fun ρ w => ?_
      rw [htl, htr, Runtime.eval]
      simp only [if_neg hvar]
      rfl
  | comparison l r op ihl ihr =>
    intro s s' L v hs h
    obtain ⟨-, g, hv⟩ := expression_returns hs h
    have hscalar : v.type ≠ .variant := by
      rw [hv.type]
      exact (isScalar_comparisonType op l.irType_cases).ne_variant
    unfold expression at h
    obtain ⟨l₁, s₁, left, l₂, s₂, right, l₃, he, hs₁, he', hs₂, hop, rfl, hul, hur, htl, htr⟩ :=
      operands_return hs h
    have ho := (expression_returns hs he).2.1.overriden
    unfold comparison at hop
    simp only [isVariantType_iff] at hop
    split_ifs at hop with hvar
    · obtain ⟨c, hc, hcode⟩ := hop.sat (emits_variantComparison (R := R) hB hs₂ hul hur)
      refine (ihl hs he).operands (ihr hs₁ he') (k := fun dl dr w =>
        Runtime.succeeded .ofBool (R.compareVariant op.code (R.toVariant left.type dl)
          (R.toVariant right.type dr) w)) ho
        ⟨c, hc, fun m dl dr loops hl hr =>
          (hcode m dl dr loops hl hr).mono fun m' d _ hd => hd.has hscalar⟩ fun ρ w => ?_
      rw [htl, htr] at hvar ⊢
      rw [Runtime.eval]
      simp only [if_pos hvar]
    · obtain ⟨c, hc, hcode⟩ := hop.sat (emits_numericOperation (R := R) hB)
      refine (ihl hs he).operands (ihr hs₁ he') (k := fun dl dr w =>
        some (R.numeric (integerComparison op) (floatComparison op) left.type right.type dl dr, w))
        ho ⟨c, hc, fun m dl dr loops hl hr =>
          (hcode m dl dr loops hl.toReads hr.toReads).mono fun m' d _ hd => hd.has hscalar⟩
        fun ρ w => ?_
      rw [htl, htr] at hvar ⊢
      rw [Runtime.eval]
      simp only [if_neg hvar]
      rfl
  | unaryOperation e op ih =>
    intro s s' L v hs h
    obtain ⟨-, g, hv⟩ := expression_returns hs h
    unfold expression at h
    obtain ⟨l₁, s₁, u, l₂, he, hs₁, hop, rfl, hu, ht⟩ := operand_returns hs h
    unfold unaryOperation at hop
    simp only [isVariantType_iff] at hop
    split_ifs at hop with hvar
    · have hcode := hop.sat (emits_variantUnaryOperation (R := R) hs₁ hu)
      refine (ih hs he).operand (k := fun d w => Runtime.succeeded .variant
        (R.unaryVariantOperation op.code (R.toVariant u.type d) w)) hcode fun ρ w => ?_
      rw [ht] at hvar ⊢
      rw [Runtime.eval]
      simp only [if_pos hvar]
    · have hvar' : e.irType ≠ .variant := by rwa [← ht]
      have hscalar : v.type ≠ .variant := by rwa [hv.type]
      have hnegated : ∀ {o : Operation}, Returns (Gen.createOperation B o [u]) s₁ l₂ s' v →
          (∀ ρ w, R.eval ρ (.unaryOperation e op) w =
            R.eval ρ e w >>= fun p => some (R.operate o [p.1], p.2)) →
          Evaluates R (.unaryOperation e op) s (l₁ ++ l₂) s' v := by
        intro o ho heval
        obtain ⟨c, hc, hcode⟩ := ho.sat (emits_createOperation (R := R) hB)
        refine (ih hs he).operand (k := fun d w => some (R.operate o [d], w))
          ⟨c, hc, fun m d loops hd => ?_⟩ heval
        rw [← hd.valueOf]
        exact (hcode m loops (by simpa using hd.below)).mono fun m' _ _ h => h.has hscalar
      cases op with
      | numericPositive =>
        cases hop
        refine (ih hs he).operand (k := fun d w => some (d, w))
          ⟨.skip, wrote_skip le_rfl, fun m d loops hd => computes_pure hd⟩ ?_
        exact eval_unaryOperation hvar' fun _ => rfl
      | numericNegative => exact hnegated hop (eval_unaryOperation hvar' fun _ => rfl)
      | booleanNegation => exact hnegated hop (eval_unaryOperation hvar' fun _ => rfl)

end

end Php

end B2
