import B2.Php.Rendering
import B2.Php.Steps

/-!
# What the bindings' code does

`Emits m s Q` is a run of the generator that writes structured code: its blocks
are numbered by it, and `Q` relates the code, the state and the value. For every
call of the bindings there is a rule that says what its code does on the machine:
which variant is behind the value, and that nothing made before is touched
(`Keeps`).
-/

namespace B2

open Effect.Traced (Sat sat_bind sat_pure sat_tell sat_get sat_modify sat_throw)

namespace Php

abbrev Code := Cfg.Code Nat IRAction Value

/-- The blocks of the code have numbers of their own from `n` to `n'`. -/
structure Spans (c : Code) (n n' : Nat) : Prop where
  le : n ≤ n'
  bound : ∀ l ∈ c.labels, n ≤ l ∧ l < n'
  nodup : c.labels.Nodup

theorem spans_of_labels_eq_nil {c : Code} {n n' : Nat} (hc : c.labels = []) (h : n ≤ n') :
    Spans c n n' := ⟨h, by simp [hc], by simp [hc]⟩

theorem Spans.seq {c d : Code} {n n' n'' : Nat} (h : Spans c n n') (h' : Spans d n' n'') :
    Spans (c.seq d) n n'' := by
  refine ⟨h.le.trans h'.le, fun l hl => ?_, ?_⟩
  · rcases List.mem_append.1 hl with hl | hl
    · exact ⟨(h.bound l hl).1, (h.bound l hl).2.trans_le h'.le⟩
    · exact ⟨h.le.trans (h'.bound l hl).1, (h'.bound l hl).2⟩
  · refine List.nodup_append.2 ⟨h.nodup, h'.nodup, fun l hl l' hl' heq => ?_⟩
    have := (h.bound l hl).2
    have := (h'.bound l' hl').1
    omega

theorem Spans.mono {c : Code} {n n' k k' : Nat} (h : Spans c n n') (hk : k ≤ n) (hk' : n' ≤ k') :
    Spans c k k' :=
  ⟨hk.trans (h.le.trans hk'), fun l hl => ⟨hk.trans (h.bound l hl).1,
    (h.bound l hl).2.trans_le hk'⟩, h.nodup⟩

/-- The log is that of the code. -/
structure Wrote (l : List IRAction) (s s' : Codegen) (c : Code) : Prop where
  items : c.items = l.flatMap IRAction.items
  spans : Spans c s.next s'.next

theorem Wrote.seq {l l' : List IRAction} {s s' s'' : Codegen} {c d : Code} (h : Wrote l s s' c)
    (h' : Wrote l' s' s'' d) : Wrote (l ++ l') s s'' (c.seq d) where
  items := by
    rw [List.flatMap_append, ← h.items, ← h'.items]
    rfl
  spans := h.spans.seq h'.spans

theorem wrote_skip {s s' : Codegen} (h : s.next ≤ s'.next) : Wrote [] s s' .skip :=
  ⟨rfl, spans_of_labels_eq_nil rfl h⟩

theorem wrote_op {x : IRAction} {s s' : Codegen} (hx : x.items = [.emit (.op x)])
    (h : s.next ≤ s'.next) : Wrote [x] s s' (.op x) :=
  ⟨by rw [List.flatMap_singleton, hx]; rfl, spans_of_labels_eq_nil rfl h⟩

/-! ## Generated code -/

section

variable {α β : Type} {m : Gen α} {s : Codegen} {Q Q' : Code → Codegen → α → Prop}

/-- If the run returns, it wrote code as `Q` says. -/
def Emits (m : Gen α) (s : Codegen) (Q : Code → Codegen → α → Prop) : Prop :=
  Sat m s (fun l s' a => ∃ c : Code, Wrote l s s' c ∧ Q c s' a) fun _ _ _ => True

theorem Emits.mono (h : Emits m s Q) (hQ : ∀ c s' a, Q c s' a → Q' c s' a) : Emits m s Q' := by
  refine Sat.mono h ?_ fun _ _ _ h => h
  rintro l s' a ⟨c, hc, h⟩
  exact ⟨c, hc, hQ c s' a h⟩

theorem Emits.bind {f : α → Gen β} {Q' : Code → Codegen → β → Prop} (h : Emits m s Q)
    (hf : ∀ c s' a, Q c s' a → Emits (f a) s' fun d s'' b => Q' (c.seq d) s'' b) :
    Emits (m >>= f) s Q' := by
  refine Sat.bind h ?_ fun _ _ _ h => h
  rintro l s' a ⟨c, hc, h⟩
  refine Sat.mono (hf c s' a h) ?_ fun _ _ _ h => h
  rintro l' s'' b ⟨d, hd, h'⟩
  exact ⟨c.seq d, hc.seq hd, h'⟩

/-- A run that writes code and of which something else is known. -/
theorem Emits.and {P : List IRAction → Codegen → α → Prop}
    {E : List IRAction → Codegen → Failure → Prop} (h : Emits m s Q) (h' : Sat m s P E) :
    Emits m s fun c s' a => Q c s' a ∧ ∃ l, P l s' a := by
  refine Sat.mono (Sat.and h h') ?_ fun _ _ _ _ => trivial
  rintro l s' a ⟨⟨c, hc, hQ⟩, hP⟩
  exact ⟨c, hc, hQ, l, hP⟩

theorem Emits.le (h : Emits m s Q) : Emits m s fun c s' a => s.next ≤ s'.next ∧ Q c s' a := by
  refine Sat.mono h ?_ fun _ _ _ h => h
  rintro l s' a ⟨c, hc, h⟩
  exact ⟨c, hc, hc.spans.le, h⟩

/-- The code of the first two parts of a run, before that of a third. -/
theorem Emits.bind₂ {γ : Type} {f : α → Gen β} {g : α → β → Gen γ} {P : Code → Codegen → α → β → Prop}
    {Q' : Code → Codegen → γ → Prop} (h : Emits m s Q)
    (hf : ∀ c s' a, Q c s' a → Emits (f a) s' fun d s'' b => P (c.seq d) s'' a b)
    (hg : ∀ c s' a b, P c s' a b → Emits (g a b) s' fun d s'' x => Q' (c.seq d) s'' x) :
    Emits (do
      let a ← m
      let b ← f a
      g a b) s Q' := by
  refine Sat.bind h ?_ fun _ _ _ h => h
  rintro l₁ s₁ a ⟨c₁, hc₁, h₁⟩
  refine Sat.bind (hf c₁ s₁ a h₁) ?_ fun _ _ _ h => h
  rintro l₂ s₂ b ⟨c₂, hc₂, h₂⟩
  refine Sat.mono (hg _ s₂ a b h₂) ?_ fun _ _ _ h => h
  rintro l₃ s₃ x ⟨c₃, hc₃, h₃⟩
  refine ⟨(c₁.seq c₂).seq c₃, ?_, h₃⟩
  rw [← List.append_assoc]
  exact (hc₁.seq hc₂).seq hc₃

theorem emits_pure {a : α} (h : Q .skip s a) : Emits (pure a) s Q :=
  ⟨.skip, wrote_skip le_rfl, h⟩

end

/-! ## What is kept -/

/-- A constant, a parameter, or the result of an instruction with a number below `n`. -/
def Below (n : Nat) : Value → Prop
  | .instruction id _ => id < n
  | _ => True

variable {Z W : Type}

/-- Registers and cells with numbers below `n` and the iterators below `loops` are as before. -/
structure Keeps (n loops : Nat) (m m' : State Z W) : Prop where
  register : ∀ id < n, m'.register id = m.register id
  memory : ∀ a < n, m'.memory a = m.memory a
  iterator : ∀ i < loops, m'.iterator i = m.iterator i

section

variable {R : Runtime Z W} {n n' loops loops' : Nat} {m m' m'' : State Z W} {v : Value}

theorem Keeps.refl (m : State Z W) : Keeps n loops m m :=
  ⟨fun _ _ => rfl, fun _ _ => rfl, fun _ _ => rfl⟩

theorem Keeps.trans (h : Keeps n loops m m') (h' : Keeps n' loops' m' m'') (hn : n ≤ n')
    (hl : loops ≤ loops') : Keeps n loops m m'' where
  register id hid := (h'.register id (hid.trans_le hn)).trans (h.register id hid)
  memory a ha := (h'.memory a (ha.trans_le hn)).trans (h.memory a ha)
  iterator i hi := (h'.iterator i (hi.trans_le hl)).trans (h.iterator i hi)

theorem Keeps.setRegister (h : Keeps n loops m m') {id : Nat} (hid : n ≤ id) (d : Data Z) :
    Keeps n loops m (m'.setRegister id d) where
  register i hi := by
    rw [State.setRegister_register, if_neg (by omega)]
    exact h.register i hi
  memory := h.memory
  iterator := h.iterator

theorem Keeps.store (h : Keeps n loops m m') {a : Nat} (ha : n ≤ a) (i : Nat) (d : Data Z) :
    Keeps n loops m (m'.store (.cell a i) d) where
  register := h.register
  memory b hb := by
    funext j
    rw [State.store_memory, if_neg (by omega), h.memory b hb]
  iterator := h.iterator

theorem Keeps.setIterator (h : Keeps n loops m m') {loop : Nat} (hl : loops ≤ loop)
    (elements : List (Z × Z)) : Keeps n loops m (m'.setIterator loop elements) where
  register := h.register
  memory := h.memory
  iterator i hi := by
    rw [State.setIterator_iterator, if_neg (by omega)]
    exact h.iterator i hi

theorem Below.mono (h : Below n v) (hn : n ≤ n') : Below n' v := by
  cases v <;> first | trivial | exact Nat.lt_of_lt_of_le h hn

theorem valueOf_congr (h : ∀ id < n, m'.register id = m.register id) (hv : Below n v) :
    R.valueOf m' v = R.valueOf m v := by
  match v with
  | .instruction id t => exact h id hv
  | .constant c => cases c <;> rfl
  | .argument i => rfl
  | .nullptr => rfl

theorem Keeps.valueOf (h : Keeps n loops m m') (hv : Below n v) :
    R.valueOf m' v = R.valueOf m v := valueOf_congr h.register hv

/-- The value is a `zval*` for `z`, and stays so while what is below `n` is kept. -/
structure Carries (R : Runtime Z W) (n : Nat) (m : State Z W) (v : Value) (z : Z) : Prop where
  below : Below n v
  variantOf : R.variantOf m (R.valueOf m v) = z
  cell : ∀ a i, R.valueOf m v = .cell a i → a < n

theorem Carries.keep {z : Z} (h : Carries R n m v z) (hk : Keeps n loops m m') (hn : n ≤ n') :
    Carries R n' m' v z := by
  have hv := hk.valueOf (R := R) h.below
  refine ⟨h.below.mono hn, ?_, fun a i ha => ?_⟩
  · rw [hv, ← h.variantOf]
    cases hd : R.valueOf m v with
    | cell a i => simp only [Runtime.variantOf, hk.memory a (h.cell a i hd)]
    | _ => rfl
  · rw [hv] at ha
    exact (h.cell a i ha).trans_le hn

/-- The value is there and reads as `d`. -/
structure Reads (R : Runtime Z W) (n : Nat) (m : State Z W) (v : Value) (d : Data Z) : Prop where
  below : Below n v
  valueOf : R.valueOf m v = d

/-- The value of an expression: `d`, which is a variant if its type says so. -/
structure Has (R : Runtime Z W) (n : Nat) (m : State Z W) (v : Value) (d : Data Z) : Prop
    extends Reads R n m v d where
  variant : v.type = .variant → ∃ z, d = .variant z

theorem Reads.congr {d : Data Z} (h : Reads R n m v d)
    (hr : ∀ id < n, m'.register id = m.register id) (hn : n ≤ n') : Reads R n' m' v d :=
  ⟨h.below.mono hn, (valueOf_congr hr h.below).trans h.valueOf⟩

theorem Reads.keep {d : Data Z} (h : Reads R n m v d) (hk : Keeps n loops m m') (hn : n ≤ n') :
    Reads R n' m' v d := h.congr hk.register hn

theorem Has.congr {d : Data Z} (h : Has R n m v d) (hr : ∀ id < n, m'.register id = m.register id)
    (hn : n ≤ n') : Has R n' m' v d :=
  ⟨h.toReads.congr hr hn, h.variant⟩

theorem Has.keep {d : Data Z} (h : Has R n m v d) (hk : Keeps n loops m m') (hn : n ≤ n') :
    Has R n' m' v d := h.congr hk.register hn

/-- A variant carries itself. -/
theorem Has.carries {d : Data Z} (h : Has R n m v d) (ht : v.type = .variant) :
    Carries R n m v (R.toVariant v.type d) := by
  obtain ⟨z, rfl⟩ := h.variant ht
  refine ⟨h.below, ?_, fun a i ha => ?_⟩
  · rw [h.valueOf, ht, R.toVariant_variant]
    rfl
  · rw [h.valueOf] at ha
    cases ha

theorem Reads.has {d : Data Z} (h : Reads R n m v d) (ht : v.type ≠ .variant) : Has R n m v d :=
  ⟨h, fun hv => absurd hv ht⟩

end

/-! ## Code that computes -/

section

variable {α β : Type} {R : Runtime Z W} {n n' loops loops' : Nat} {c d : Code} {m m' : State Z W}
  {r : Option (α × W)} {P P' : State Z W → α → Prop}

/-- The code prints nothing and touches nothing that was made before. It makes the value and the
world of `r`, or returns if these are missing. -/
def Computes (R : Runtime Z W) (n loops : Nat) (c : Code) (m : State Z W) (r : Option (α × W))
    (P : State Z W → α → Prop) : Prop :=
  c.Runs R.machine m
    (fun m' => ∃ a, r = some (a, m'.world) ∧ Keeps n loops m m' ∧ m'.output = m.output ∧ P m' a)
    fun m' => r = none ∧ m'.output = m.output

theorem Computes.mono (h : Computes R n loops c m r P)
    (hP : ∀ m' a, Keeps n loops m m' → P m' a → P' m' a) : Computes R n loops c m r P' := by
  refine Cfg.Code.Runs.mono h ?_ fun _ h => h
  rintro m' ⟨a, hr, hk, ho, h⟩
  exact ⟨a, hr, hk, ho, hP m' a hk h⟩

/-- Less is kept. -/
theorem Computes.weaken (h : Computes R n' loops' c m r P) (hn : n ≤ n') (hl : loops ≤ loops') :
    Computes R n loops c m r P := by
  refine Cfg.Code.Runs.mono h ?_ fun _ h => h
  rintro m' ⟨a, hr, hk, ho, h⟩
  exact ⟨a, hr, (Keeps.refl m).trans hk hn hl, ho, h⟩

/-- A computation and, from its value and its world, another. -/
theorem Computes.bind {k : α × W → Option (β × W)} {Q : State Z W → β → Prop}
    (h : Computes R n loops c m r P) (hn : n ≤ n') (hl : loops ≤ loops')
    (hk : ∀ m' a, Keeps n loops m m' → P m' a →
      Computes R n' loops' d m' (k (a, m'.world)) Q) :
    Computes R n loops (c.seq d) m (r >>= k) Q := by
  refine Cfg.Code.Runs.seq (Cfg.Code.Runs.mono h (fun _ h => h) ?_) ?_
  · rintro m' ⟨rfl, ho⟩
    exact ⟨rfl, ho⟩
  · rintro m' ⟨a, rfl, hkeep, ho, hP⟩
    refine Cfg.Code.Runs.mono (hk m' a hkeep hP) ?_ ?_
    · rintro m'' ⟨b, hr, hkeep', ho', hQ⟩
      exact ⟨b, hr, hkeep.trans hkeep' hn hl, ho'.trans ho, hQ⟩
    · rintro m'' ⟨hr, ho'⟩
      exact ⟨hr, ho'.trans ho⟩

/-- A computation and what is done with its value. -/
theorem Computes.pass {P' : State Z W → α → Prop} (h : Computes R n loops c m r P) (hn : n ≤ n')
    (hl : loops ≤ loops') (hk : ∀ m' a, Keeps n loops m m' → P m' a →
      Computes R n' loops' d m' (some (a, m'.world)) P') :
    Computes R n loops (c.seq d) m r P' := by
  refine Cfg.Code.Runs.seq h ?_
  rintro m' ⟨a, hr, hkeep, ho, hP⟩
  refine Cfg.Code.Runs.mono (hk m' a hkeep hP) ?_ fun _ h => nomatch h.1
  rintro m'' ⟨b, heq, hkeep', ho', hQ⟩
  refine ⟨b, ?_, hkeep.trans hkeep' hn hl, ho'.trans ho, hQ⟩
  rw [hr, ← heq]

/-- A function of the value that is computed. -/
theorem Computes.map {f : α → β} {Q : State Z W → β → Prop} (h : Computes R n loops c m r P)
    (hQ : ∀ m' a, Keeps n loops m m' → P m' a → Q m' (f a)) :
    Computes R n loops c m (r >>= fun p => some (f p.1, p.2)) Q := by
  refine Cfg.Code.Runs.mono h ?_ ?_
  · rintro m' ⟨a, rfl, hk, ho, hP⟩
    exact ⟨f a, rfl, hk, ho, hQ m' a hk hP⟩
  · rintro m' ⟨rfl, ho⟩
    exact ⟨rfl, ho⟩

/-- A computation whose value is known, and another. -/
theorem Computes.step {a : α} {w : W} {r : Option (β × W)} {Q : State Z W → β → Prop}
    (h : Computes R n loops c m (some (a, w)) P) (hn : n ≤ n') (hl : loops ≤ loops')
    (hk : ∀ m', Keeps n loops m m' → m'.world = w → P m' a → Computes R n' loops' d m' r Q) :
    Computes R n loops (c.seq d) m r Q := by
  refine Cfg.Code.Runs.seq (Cfg.Code.Runs.mono h (fun _ h => h) fun _ h => nomatch h.1) ?_
  rintro m' ⟨a, heq, hkeep, ho, hP⟩
  cases heq
  refine Cfg.Code.Runs.mono (hk m' hkeep rfl hP) ?_ ?_
  · rintro m'' ⟨b, hr, hkeep', ho', hQ⟩
    exact ⟨b, hr, hkeep.trans hkeep' hn hl, ho'.trans ho, hQ⟩
  · rintro m'' ⟨hr, ho'⟩
    exact ⟨hr, ho'.trans ho⟩

/-- Another value of the same code. -/
theorem Computes.value {a : α} {b : β} {w : W} {Q : State Z W → β → Prop}
    (h : Computes R n loops c m (some (a, w)) P)
    (hQ : ∀ m', Keeps n loops m m' → P m' a → Q m' b) :
    Computes R n loops c m (some (b, w)) Q := by
  refine Cfg.Code.Runs.mono h ?_ fun _ h => nomatch h.1
  rintro m' ⟨a, heq, hk, ho, hP⟩
  cases heq
  exact ⟨b, rfl, hk, ho, hQ m' hk hP⟩

/-- The code does nothing that matters here. -/
def Skips (R : Runtime Z W) (c : Code) : Prop :=
  ∀ m : State Z W, c.Runs R.machine m (· = m) fun _ => False

theorem skips_skip : Skips R .skip := fun _ => Cfg.Code.runs_skip rfl

theorem Skips.seq (h : Skips R c) (h' : Skips R d) : Skips R (c.seq d) := fun m =>
  Cfg.Code.Runs.seq (h m) fun _ hm => hm ▸ h' m

theorem Skips.computes (hc : Skips R c) (h : Computes R n loops d m r P) :
    Computes R n loops (c.seq d) m r P := by
  refine Cfg.Code.Runs.seq ((hc m).mono (fun _ h => h) fun _ h => h.elim) ?_
  rintro _ rfl
  exact h

theorem Computes.skips (h : Computes R n loops c m r P) (hd : Skips R d) :
    Computes R n loops (c.seq d) m r P := by
  refine Cfg.Code.Runs.seq h fun m' hm' => ?_
  refine Cfg.Code.Runs.mono (hd m') ?_ fun _ h => h.elim
  rintro _ rfl
  exact hm'

theorem computes_pure {a : α} (h : P m a) :
    Computes R n loops .skip m (some (a, m.world)) P :=
  Cfg.Code.runs_skip ⟨a, rfl, .refl m, rfl, h⟩

/-- Straight-line code. -/
theorem computes_of_exec {a : α} {w : W} (h : c.Exec R.machine m (.next m')) (hw : m'.world = w)
    (hk : Keeps n loops m m') (ho : m'.output = m.output) (hP : P m' a) :
    Computes R n loops c m (some (a, w)) P :=
  ⟨_, h, a, by rw [hw], hk, ho, hP⟩

end

/-! ## The bindings -/

open PHPBindings

section

variable {B : IRBuilder} {R : Runtime Z W} {s : Codegen} {v : Value}

theorem emits_outOfScope : Emits (variableGoesOutOfScope v) s fun c _ _ => Skips R c := by
  unfold Emits
  rw [sat_outOfScope]
  cases s.variablesRefCount v with
  | none => trivial
  | some count =>
    simp only
    split_ifs
    · exact ⟨.skip, wrote_skip le_rfl, skips_skip⟩
    · exact ⟨.op _, wrote_op rfl (Nat.le_succ _), fun m => Cfg.Code.runs_op rfl⟩
    · exact ⟨.skip, wrote_skip le_rfl, skips_skip⟩

/-- Every wrapping function makes a variant of its argument. -/
theorem call_wrapperOf (m : State Z W) (id : Nat) (t : IRType) (p d : Data Z) :
    R.call m id (wrapperOf t) [p, d] = m.store p (.variant (R.setZval d)) := by
  unfold wrapperOf
  split_ifs <;> rfl

/-- The code of `wrapLog`. -/
def wrapCode (s : Codegen) (v : Value) : Code :=
  .seq (.op (.alloca s.next (.struct .zval) 1))
    (.op (.call (s.next + 1) (wrapperOf v.type) [wrapped s, v]))

theorem wrote_wrapCode : Wrote (wrapLog s v) s (withWrapped s) (wrapCode s v) :=
  ⟨rfl, spans_of_labels_eq_nil rfl (Nat.le_add_right _ 2)⟩

/-- The state after a scalar was wrapped. -/
def wrappedState (R : Runtime Z W) (m : State Z W) (a : Nat) (d : Data Z) : State Z W :=
  (m.setRegister a (.cell a 0)).store (.cell a 0) (.variant (R.setZval d))

theorem exec_wrapCode {m : State Z W} {d : Data Z} (hv : Has R s.next m v d) :
    (wrapCode s v).Exec R.machine m (.next (wrappedState R m s.next d)) := by
  have hk : Keeps s.next 0 m (m.setRegister s.next (.cell s.next 0)) :=
    (Keeps.refl m).setRegister le_rfl _
  refine .next rfl ?_
  show Cfg.Outcome.next _ = .next (R.call (m.setRegister s.next (.cell s.next 0)) _ _
    [(m.setRegister s.next (.cell s.next 0)).register s.next,
      R.valueOf (m.setRegister s.next (.cell s.next 0)) v])
  rw [call_wrapperOf, (hk.valueOf hv.below).trans hv.valueOf, State.setRegister_register, if_pos rfl]
  rfl

theorem keeps_wrappedState {m : State Z W} {a loops : Nat} {d : Data Z} :
    Keeps a loops m (wrappedState R m a d) :=
  ((Keeps.refl m).setRegister le_rfl _).store le_rfl _ _

theorem carries_wrappedState {m : State Z W} {d : Data Z} :
    Carries R (s.next + 2) (wrappedState R m s.next d) (wrapped s) (R.setZval d) := by
  have hcell : R.valueOf (wrappedState R m s.next d) (wrapped s) = .cell s.next 0 := by
    show State.register _ s.next = _
    simp [wrappedState]
  refine ⟨Nat.lt_add_of_pos_right (by decide), ?_, fun a i ha => ?_⟩
  · rw [hcell]
    simp [Runtime.variantOf, wrappedState]
  · rw [hcell] at ha
    cases ha
    exact Nat.lt_add_of_pos_right (by decide)

/-- Wrapped or not, the value stands for its variant. -/
theorem emits_asVariant (hs : s.Ready) (hv : s.Usable v) :
    Emits (asVariant v) s fun c s' u => ∀ (m : State Z W) (d : Data Z) (loops : Nat),
      Has R s.next m v d →
        Computes R s.next loops c m (some (R.toVariant v.type d, m.world)) (Carries R s'.next · u) := by
  unfold Emits
  rw [sat_asVariant hs hv]
  split_ifs with ht
  · exact ⟨.skip, wrote_skip le_rfl, fun m d loops h => computes_pure (h.carries ht)⟩
  · refine ⟨wrapCode s v, wrote_wrapCode, fun m d loops h => ?_⟩
    refine computes_of_exec (exec_wrapCode h) rfl keeps_wrappedState rfl ?_
    rw [R.toVariant_of_ne ht]
    exact carries_wrappedState

/-! ### Results of calls -/

/-- A pointer for the result, the call, its check and the load of the result. -/
def resultCode (s : Codegen) (t : IRType) (f : RuntimeFunction) (args : Value → List Value) : Code :=
  let pointer := .instruction s.next (.pointer t)
  .seq (.op (.alloca s.next t 1)) <| .seq (.op (.call (s.next + 1) f (args pointer))) <|
    .seq (.check (.instruction (s.next + 1) f.returnType) (s.next + 2) (s.next + 3))
      (.op (.load (s.next + 4) pointer))

/-- The result of a call that reports failure by `false`. -/
theorem computes_resultCode {α β : Type} {t : IRType} {f : RuntimeFunction}
    {args : Value → List Value} {m : State Z W} {loops : Nat} {r : Option α × W} {value : α → β}
    (data : α → Data Z)
    (hcall : ∀ m', Keeps s.next loops m m' → m'.world = m.world →
      R.valueOf m' (.instruction s.next (.pointer t)) = .cell s.next 0 →
      R.call m' (s.next + 1) f ((args (.instruction s.next (.pointer t))).map (R.valueOf m')) =
        Runtime.reported m' (s.next + 1) (.cell s.next 0) r data) :
    Computes R s.next loops (resultCode s t f args) m (Runtime.succeeded value r)
      fun m' d => ∃ a, d = value a ∧ m'.register (s.next + 4) = data a := by
  have hk : Keeps s.next loops m (m.setRegister s.next (.cell s.next 0)) :=
    (Keeps.refl m).setRegister le_rfl _
  have hcall := hcall _ hk rfl (if_pos rfl)
  refine Cfg.Code.Runs.seq (Cfg.Code.runs_op rfl) ?_
  rintro _ rfl
  refine Cfg.Code.Runs.seq (Cfg.Code.runs_op rfl) ?_
  rintro _ rfl
  rw [show R.machine.exec (.call _ f _) (R.machine.exec (.alloca s.next t 1) m) = _ from hcall]
  obtain ⟨r, w⟩ := r
  cases r with
  | none =>
    refine Cfg.Code.Runs.seq (P := fun _ => False) ?_ fun _ h => h.elim
    refine Cfg.Code.runs_check (fun h => ?_) fun _ => ⟨rfl, rfl⟩
    simp [Runtime.machine, Runtime.valueOf, Runtime.reported, Data.isTrue_ofBool] at h
  | some a =>
    have hpointer : R.valueOf (Runtime.reported (m.setRegister s.next (.cell s.next 0))
        (s.next + 1) (.cell s.next 0) (some a, w) data) (.instruction s.next (.pointer t)) =
          .cell s.next 0 := by
      simp [Runtime.valueOf, Runtime.reported]
    refine Cfg.Code.Runs.seq (Cfg.Code.runs_check (fun _ => rfl) fun h => ?_) ?_
    · simp [Runtime.machine, Runtime.valueOf, Runtime.reported, Data.isTrue_ofBool] at h
    rintro _ rfl
    refine Cfg.Code.runs_op ⟨value a, rfl, ?_, rfl, a, rfl, ?_⟩
    · refine Keeps.setRegister ?_ (Nat.le_add_right _ _) _
      refine Keeps.setRegister ?_ (Nat.le_succ _) _
      refine Keeps.store ?_ le_rfl _ _
      exact hk.trans ⟨fun _ _ => rfl, fun _ _ => rfl, fun _ _ => rfl⟩ le_rfl le_rfl
    · simp only [Runtime.machine, Runtime.exec, hpointer, State.setRegister_register, if_true]
      simp [State.load, Runtime.reported]

/-- A call with a result, its check and what is done with the result. -/
theorem emits_result {α : Type} {t : IRType} {f : RuntimeFunction} {args : Value → List Value}
    {k : Value → Gen α} {Q : Code → Codegen → α → Prop}
    (hk : Emits (k (.instruction (s.next + 4) t)) { s with next := s.next + 5 } fun d s' a =>
      Q ((resultCode s t f args).seq d) s' a) :
    Emits (do
      let ptrToResult ← Gen.createAlloca t 1
      let callResult ← Gen.createCall f (args ptrToResult)
      createRetVoidIfCallFails callResult
      let value ← Gen.createLoad ptrToResult
      k value) s Q := by
  have hspans : Spans (resultCode s t f args) s.next (s.next + 5) :=
    ⟨Nat.le_add_right _ 5, by simp [resultCode, Cfg.Code.labels], by
      simp [resultCode, Cfg.Code.labels]⟩
  unfold Emits
  simp only [sat_bind, Gen.sat_createAlloca, Gen.sat_createCall, sat_retVoidIfCallFails,
    Gen.sat_createLoad]
  refine Sat.mono hk ?_ fun _ _ _ _ => trivial
  rintro l s' a ⟨d, hd, h⟩
  refine ⟨(resultCode s t f args).seq d, ⟨?_, hspans.seq hd.spans⟩, h⟩
  show (resultCode s t f args).items ++ d.items = _
  rw [hd.items]
  rfl

theorem emits_setRefCount {α : Type} {c : Int} {k : Gen α} {Q : Code → Codegen → α → Prop}
    (h : Emits k (withCount s v c) Q) :
    Emits (do
      setRefCount v c
      k) s Q := by
  unfold Emits setRefCount
  rw [sat_bind, sat_modify]
  refine Sat.mono h ?_ fun _ _ _ _ => trivial
  rintro l s' a ⟨d, hd, h⟩
  exact ⟨d, ⟨hd.items, hd.spans⟩, h⟩

theorem emits_variantResult {α : Type} {f : RuntimeFunction} {args : Value → List Value}
    {k : Value → Gen α} {Q : Code → Codegen → α → Prop}
    (hk : Emits (k (resultOf s)) (withResult s) fun d s' a =>
      Q ((resultCode s .variant f args).seq d) s' a) :
    Emits (do
      let ptrToResult ← Gen.createAlloca .variant 1
      let callResult ← Gen.createCall f (args ptrToResult)
      createRetVoidIfCallFails callResult
      let value ← Gen.createLoad ptrToResult
      setRefCount value 1
      k value) s Q := emits_result (emits_setRefCount hk)

/-- Operands that go out of scope. -/
theorem emits_release {left right : Value} :
    Emits (do
      variableGoesOutOfScope left
      variableGoesOutOfScope right
      return v) s fun c _ u => u = v ∧ Skips R c := by
  refine (emits_outOfScope (R := R)).bind fun c s₁ _ hc => ?_
  refine (emits_outOfScope (R := R)).bind fun d s₂ _ hd => ?_
  exact emits_pure ⟨rfl, hc.seq (hd.seq skips_skip)⟩

/-- The code makes the variants of two operands. -/
structure WrapsBoth (R : Runtime Z W) (left right : Value) (s s' : Codegen) (c : Code)
    (l r : Value) : Prop where
  le : s.next ≤ s'.next
  computes : ∀ (m : State Z W) (dl dr : Data Z) (loops : Nat), Has R s.next m left dl →
    Has R s.next m right dr →
      Computes R s.next loops c m (some ((), m.world)) fun m' _ =>
        Carries R s'.next m' l (R.toVariant left.type dl) ∧
          Carries R s'.next m' r (R.toVariant right.type dr)

theorem emits_asVariants {left right : Value} {α : Type} {k : Value → Value → Gen α}
    {Q : Code → Codegen → α → Prop} (hs : s.Ready) (hl : s.Usable left) (hr : s.Usable right)
    (hk : ∀ c s' l r, WrapsBoth R left right s s' c l r →
      Emits (k l r) s' fun d s'' a => Q (c.seq d) s'' a) :
    Emits (do
      let left ← asVariant left
      let right ← asVariant right
      k left right) s Q := by
  have hg := gives_asVariant (R := fun _ => False) hs hl
  refine ((emits_asVariant (R := R) hs hl).and hg).bind₂ ?_ hk
  rintro c₁ s₁ l ⟨h₁, -, -, g₁, -⟩
  refine (emits_asVariant (R := R) (g₁.ready hs) (hr.mono g₁)).le.mono ?_
  rintro c₂ s₂ r ⟨hle, h₂⟩
  refine ⟨g₁.next.trans hle, fun m dl dr loops hdl hdr => ?_⟩
  refine (h₁ m dl loops hdl).step g₁.next le_rfl fun m₁ hk₁ hw₁ hcl => ?_
  rw [← hw₁]
  refine (h₂ m₁ dr loops (hdr.keep hk₁ g₁.next)).value fun m₂ hk₂ hcr => ?_
  exact ⟨hcl.keep hk₂ hle, hcr⟩

/-- A variant that an operation on variants has made. -/
theorem has_resultOf {m : State Z W} {z : Z} {n : Nat} (hn : s.next + 5 ≤ n)
    (h : m.register (s.next + 4) = .variant z) : Has R n m (resultOf s) (.variant z) :=
  ⟨⟨by show s.next + 4 < n; omega, h⟩, fun _ => ⟨z, rfl⟩⟩

theorem emits_variantBinaryOperation {op : BinaryOperation} {left right : Value} (hs : s.Ready)
    (hl : s.Usable left) (hr : s.Usable right) :
    Emits (createVariantBinaryOperation op left right) s fun c s' v =>
      ∀ (m : State Z W) (dl dr : Data Z) (loops : Nat), Has R s.next m left dl →
        Has R s.next m right dr →
        Computes R s.next loops c m
          (Runtime.succeeded .variant (R.binaryVariantOperation op.code
            (R.toVariant left.type dl) (R.toVariant right.type dr) m.world))
          (Has R s'.next · v) := by
  unfold createVariantBinaryOperation
  refine emits_asVariants (R := R) hs hl hr fun c s₁ l r h => ?_
  refine emits_variantResult ((emits_release (R := R)).le.mono ?_)
  rintro d s' _ ⟨hle, rfl, hd⟩ m dl dr loops hdl hdr
  refine (h.computes m dl dr loops hdl hdr).step h.le le_rfl fun m₁ hk hw ⟨hcl, hcr⟩ => ?_
  rw [← hw]
  refine Computes.skips (Computes.mono (computes_resultCode .variant ?_) ?_) hd
  · intro m' hk' hw' hp
    rw [← hw', ← (hcl.keep hk' le_rfl).variantOf, ← (hcr.keep hk' le_rfl).variantOf, ← hp]
    rfl
  · rintro m' _ - ⟨z, rfl, hz⟩
    exact has_resultOf hle hz

theorem emits_variantUnaryOperation {op : UnaryOperation} (hs : s.Ready) (hv : s.Usable v) :
    Emits (createVariantUnaryOperation op v) s fun c s' u =>
      ∀ (m : State Z W) (d : Data Z) (loops : Nat), Has R s.next m v d →
        Computes R s.next loops c m
          (Runtime.succeeded .variant (R.unaryVariantOperation op.code (R.toVariant v.type d) m.world))
          (Has R s'.next · u) := by
  unfold createVariantUnaryOperation
  refine (emits_asVariant (R := R) hs hv).le.bind ?_
  rintro c s₁ w ⟨hle₁, h⟩
  refine emits_variantResult ((emits_outOfScope (R := R)).le.bind ?_)
  rintro d s₂ _ ⟨hle₂, hd⟩
  refine emits_pure fun m dv loops hdv => ?_
  refine (h m dv loops hdv).step hle₁ le_rfl fun m₁ hk hw hc => ?_
  rw [← hw]
  refine Computes.skips (Computes.mono (computes_resultCode .variant ?_) ?_) (hd.seq skips_skip)
  · intro m' hk' hw' hp
    rw [← hw', ← (hc.keep hk' le_rfl).variantOf, ← hp]
    rfl
  · rintro m' _ - ⟨z, rfl, hz⟩
    exact has_resultOf hle₂ hz

/-! ### Operations -/

/-- The result of an operation, folded or not. -/
theorem emits_createOperation (hB : B.Sound R) {op : Operation} {vs : List Value} :
    Emits (Gen.createOperation B op vs) s fun c s' v => ∀ (m : State Z W) (loops : Nat),
      (∀ u ∈ vs, Below s.next u) →
        Computes R s.next loops c m (some (R.operate op (vs.map (R.valueOf m)), m.world))
          (Reads R s'.next · v) := by
  unfold Emits
  rw [Gen.sat_createOperation]
  cases hsimp : B.simplify op vs with
  | some u =>
    refine ⟨.op _, wrote_op rfl le_rfl, fun m loops hvs => ?_⟩
    have hbelow : Below s.next u := by
      rcases B.simplify_mem hsimp with hu | ⟨c, rfl⟩
      · exact hvs u hu
      · trivial
    have hsound := hB op vs u hsimp m
    have hexec : R.exec (.operation op vs u) m = m := by
      unfold Runtime.exec
      cases u with
      | instruction id t =>
        simp only
        rw [← hsound]
        exact m.setRegister_self id
      | _ => rfl
    exact computes_of_exec (congrArg _ hexec.symm) rfl (.refl m) rfl ⟨hbelow, hsound⟩
  | none =>
    refine ⟨.op _, wrote_op rfl (Nat.le_succ _), fun m loops _ => ?_⟩
    exact computes_of_exec rfl rfl ((Keeps.refl m).setRegister le_rfl _) rfl
      ⟨Nat.lt_succ_self _, if_pos rfl⟩

theorem emits_variantComparison (hB : B.Sound R) {op : ComparisonOperation} {left right : Value}
    (hs : s.Ready) (hl : s.Usable left) (hr : s.Usable right) :
    Emits (createVariantComparison B op left right) s fun c s' v =>
      ∀ (m : State Z W) (dl dr : Data Z) (loops : Nat), Has R s.next m left dl →
        Has R s.next m right dr →
        Computes R s.next loops c m
          (Runtime.succeeded .ofBool (R.compareVariant op.code
            (R.toVariant left.type dl) (R.toVariant right.type dr) m.world))
          (Reads R s'.next · v) := by
  unfold createVariantComparison
  refine emits_asVariants (R := R) hs hl hr fun c s₁ l r h => ?_
  refine emits_result ((emits_createOperation hB).bind fun e s₂ v hop => ?_)
  refine (emits_release (R := R)).le.mono ?_
  rintro d s' _ ⟨hle, rfl, hd⟩ m dl dr loops hdl hdr
  refine (h.computes m dl dr loops hdl hdr).step h.le le_rfl fun m₁ hk hw ⟨hcl, hcr⟩ => ?_
  rw [← hw]
  refine (computes_resultCode (.ofBoolIn 8) ?_).pass (Nat.le_add_right _ 5) le_rfl ?_
  · intro m' hk' hw' hp
    rw [← hw', ← (hcl.keep hk' le_rfl).variantOf, ← (hcr.keep hk' le_rfl).variantOf, ← hp]
    rfl
  · rintro m' _ - ⟨b, rfl, hm'⟩
    have hop := hop m' loops (by simp [Below])
    refine Computes.skips (Computes.value hop fun m'' _ hv => ⟨hv.below.mono hle, ?_⟩) hd
    rw [hv.valueOf, List.map_cons, List.map_nil,
      show R.valueOf m' (.instruction (s₁.next + 4) (.integer 8)) = _ from hm']
    cases b <;> rfl

/-! ### Calls -/

theorem emits_globalStringPtr {α : Type} {x : Text} {k : Value → Gen α}
    {Q : Code → Codegen → α → Prop}
    (h : Emits (k (.constant (.globalString s.next x))) (Gen.bump s) Q) :
    Emits (do
      let key ← Gen.createGlobalStringPtr x
      k key) s Q := by
  unfold Emits
  rw [sat_bind, Gen.sat_createGlobalStringPtr]
  refine Sat.mono h ?_ fun _ _ _ _ => trivial
  rintro l s' a ⟨c, hc, h⟩
  exact ⟨c, ⟨hc.items, hc.spans.mono (Nat.le_succ _) le_rfl⟩, h⟩

/-- A call that returns a variant, which gets a count. -/
theorem emits_calledVariant {α : Type} {f : RuntimeFunction} {args : List Value} {c : Int}
    {k : Value → Gen α} {Q : Code → Codegen → α → Prop}
    (hf : f.returnType = .variant)
    (h : Emits (k (.instruction s.next .variant))
      (withCount (Gen.bump s) (.instruction s.next .variant) c) fun d s' a =>
        Q ((Cfg.Code.op (.call s.next f args)).seq d) s' a) :
    Emits (do
      let value ← Gen.createCall f args
      setRefCount value c
      k value) s Q := by
  unfold Emits setRefCount
  simp only [sat_bind, Gen.sat_createCall, sat_modify, hf]
  refine Sat.mono h ?_ fun _ _ _ _ => trivial
  rintro l s' a ⟨d, hd, h⟩
  refine ⟨_, ?_, h⟩
  have hw : Wrote [IRAction.call s.next f args] s
      (withCount (Gen.bump s) (.instruction s.next .variant) c) (.op (.call s.next f args)) :=
    wrote_op rfl (Nat.le_succ _)
  exact hw.seq hd

/-- The state after a call that returns a variant. -/
theorem computes_returned {m : State Z W} {f : RuntimeFunction} {args : List Value} {r : Z × W}
    {n n' loops : Nat} (hn : n ≤ n') (hcall : R.call m n' f (args.map (R.valueOf m)) =
      Runtime.returned m n' r) :
    Computes R n loops (.op (.call n' f args)) m (some (.variant r.1, r.2))
      fun m' d => Has R (n' + 1) m' (.instruction n' .variant) d := by
  refine computes_of_exec (congrArg _ hcall.symm) rfl ?_ rfl ?_
  · refine Keeps.setRegister ?_ hn _
    exact ⟨fun _ _ => rfl, fun _ _ => rfl, fun _ _ => rfl⟩
  · exact ⟨⟨Nat.lt_succ_self n', if_pos rfl⟩, fun _ => ⟨r.1, rfl⟩⟩

theorem emits_variableLookup {x : Text} :
    Emits (createVariableLookup x) s fun c s' v => ∀ (m : State Z W) (loops : Nat),
      Computes R s.next loops c m
        (some (.variant (R.getValueFromHashtable x m.world).1, (R.getValueFromHashtable x m.world).2))
        (Has R s'.next · v) := by
  unfold createVariableLookup
  refine emits_globalStringPtr (emits_calledVariant rfl (emits_pure fun m loops => ?_))
  exact (computes_returned (Nat.le_succ _) rfl).skips skips_skip

theorem emits_getAttribute {a : Text} (hv : v.type = .variant) :
    Emits (createGetAttribute a v) s fun c s' u => ∀ (m : State Z W) (d : Data Z) (loops : Nat),
      Has R s.next m v d →
        Computes R s.next loops c m
          (some (.variant (R.getAttribute (R.toVariant v.type d) a m.world).1,
            (R.getAttribute (R.toVariant v.type d) a m.world).2))
          (Has R s'.next · u) := by
  unfold createGetAttribute
  refine emits_globalStringPtr (emits_calledVariant rfl ?_)
  refine (emits_outOfScope (R := R)).le.bind ?_
  rintro c s₁ _ ⟨hle, hc⟩
  refine emits_pure fun m d loops hd => ?_
  refine Computes.skips ?_ (hc.seq skips_skip)
  refine (computes_returned (Nat.le_succ _) ?_).mono fun m' d' _ h => ?_
  · rw [← (hd.carries hv).variantOf]
    rfl
  · exact ⟨⟨h.below.mono hle, h.valueOf⟩, h.variant⟩

/-! ### Arguments -/

/-- The array in the cells of `a` has got the variants `zs` from `index` on, and nothing else that
was there before has changed. -/
structure Stores (R : Runtime Z W) (n a index : Nat) (m m' : State Z W) (zs : List Z) : Prop where
  register : ∀ id < n, m'.register id = m.register id
  memory : ∀ b < n, b ≠ a → m'.memory b = m.memory b
  before : ∀ j < index, m'.memory a j = m.memory a j
  iterator : m'.iterator = m.iterator
  world : m'.world = m.world
  output : m'.output = m.output
  stored : ∀ j z, zs[j]? = some z → R.variantOf m' (m'.memory a (index + j)) = z

/-- The first argument is none of the array's own cells. -/
def Apart (n a index : Nat) (m : State Z W) : Prop :=
  ∀ b i, m.memory a index = .cell b i → b < n ∧ b ≠ a

theorem stores_nil {n a index : Nat} {m : State Z W} : Stores R n a index m m [] :=
  ⟨fun _ _ => rfl, fun _ _ _ => rfl, fun _ _ => rfl, rfl, rfl, rfl, nofun⟩

theorem Stores.cons {n n₁ a index : Nat} {m m₁ m₂ : State Z W} {z : Z} {zs : List Z}
    (h : Stores R n a index m m₁ [z]) (ha : Apart n₁ a index m₁) (hn : n ≤ n₁)
    (h' : Stores R n₁ a (index + 1) m₁ m₂ zs) : Stores R n a index m m₂ (z :: zs) where
  register id hid := (h'.register id (hid.trans_le hn)).trans (h.register id hid)
  memory b hb hne := (h'.memory b (hb.trans_le hn) hne).trans (h.memory b hb hne)
  before j hj := (h'.before j (Nat.lt_succ_of_lt hj)).trans (h.before j hj)
  iterator := h'.iterator.trans h.iterator
  world := h'.world.trans h.world
  output := h'.output.trans h.output
  stored j u hu := by
    cases j with
    | succ j =>
      rw [← h'.stored j u hu, Nat.add_right_comm]
      rfl
    | zero =>
      have hfirst := h.stored 0 u hu
      have hsame : m₂.memory a (index + 0) = m₁.memory a (index + 0) :=
        h'.before index (Nat.lt_succ_self _)
      rw [hsame, ← hfirst]
      cases hd : m₁.memory a (index + 0) with
      | cell b i =>
        obtain ⟨hb, hne⟩ := ha b i hd
        simp only [Runtime.variantOf, h'.memory b hb hne]
      | _ => rfl

/-- A variant is stored as it is. -/
theorem stores_variant {n a index : Nat} {m : State Z W} {z : Z} :
    Stores R n a index m ((m.setRegister n (.cell a index)).store (.cell a index) (.variant z)) [z]
      ∧ Apart (n + 1) a index
        ((m.setRegister n (.cell a index)).store (.cell a index) (.variant z)) := by
  refine ⟨⟨fun id hid => ?_, fun b _ hne => ?_, fun j hj => ?_, rfl, rfl, rfl, fun j u hu => ?_⟩,
    fun b i h => ?_⟩
  · simp [Nat.ne_of_lt hid]
  · funext i
    simp [hne]
  · simp [Nat.ne_of_lt hj]
  · cases j with
    | zero => simpa [Runtime.variantOf] using hu
    | succ j => cases hu
  · simp at h

/-- A scalar is wrapped, and the pointer to its cell is stored. -/
theorem stores_wrapped {n a index : Nat} {m : State Z W} {d : Data Z} (ha : a < n) :
    Stores R n a index m ((wrappedState R (m.setRegister n (.cell a index)) (n + 1) d).store
      (.cell a index) (.cell (n + 1) 0)) [R.setZval d] ∧
    Apart (n + 3) a index ((wrappedState R (m.setRegister n (.cell a index)) (n + 1) d).store
      (.cell a index) (.cell (n + 1) 0)) := by
  have hne₁ : n + 1 ≠ a := by omega
  refine ⟨⟨fun id hid => ?_, fun b hb hne => ?_, fun j hj => ?_, rfl, rfl, rfl, fun j u hu => ?_⟩,
    fun b i h => ?_⟩
  · have h₁ : id ≠ n + 1 := by omega
    simp [wrappedState, h₁, Nat.ne_of_lt hid]
  · have h₁ : b ≠ n + 1 := by omega
    funext i
    simp [wrappedState, hne, h₁]
  · simp [wrappedState, Nat.ne_of_lt hj, hne₁.symm]
  · cases j with
    | zero => simpa [Runtime.variantOf, wrappedState, hne₁] using hu
    | succ j => cases hu
  · simp at h
    omega

/-- The value is passed as the variant `z`. -/
def Passes (R : Runtime Z W) (n : Nat) (m : State Z W) (v : Value) (z : Z) : Prop :=
  ∃ d, Has R n m v d ∧ z = R.toVariant v.type d

/-- The code puts the variants of the arguments into the array from `index` on. -/
abbrev StoresAll (R : Runtime Z W) (a index : Nat) (arguments : List Value) (s : Codegen)
    (c : Code) : Prop :=
  ∀ (m : State Z W) (zs : List Z), m.register a = .cell a 0 →
    List.Forall₂ (Passes R s.next m) arguments zs →
      c.Runs R.machine m (Stores R s.next a index m · zs) fun _ => False

/-- The first argument before the others. -/
theorem StoresAll.cons {a index : Nat} {arguments : List Value} {s s₁ : Codegen} {c d : Code}
    (ha : a < s.next) (hn : s.next ≤ s₁.next)
    (h : ∀ (m : State Z W) (dv : Data Z), m.register a = .cell a 0 → Has R s.next m v dv →
      c.Runs R.machine m
        (fun m' => Stores R s.next a index m m' [R.toVariant v.type dv] ∧ Apart s₁.next a index m')
        fun _ => False)
    (h' : StoresAll R a (index + 1) arguments s₁ d) :
    StoresAll R a index (v :: arguments) s (c.seq d) := by
  rintro m _ hm hzs
  cases hzs with
  | cons hz hzs =>
    obtain ⟨dv, hdv, rfl⟩ := hz
    refine (h m dv hm hdv).seq fun m₁ ⟨hstores, hapart⟩ => ?_
    have hpass : List.Forall₂ (Passes R s₁.next m₁) arguments _ :=
      hzs.imp fun u z ⟨du, hdu, hz⟩ => ⟨du, hdu.congr hstores.register hn, hz⟩
    refine (h' m₁ _ ((hstores.register a ha).trans hm) hpass).mono ?_ fun _ h => h
    exact fun m₂ h₂ => hstores.cons hapart hn h₂

/-- The array of the arguments. -/
def arrayValue (a : Nat) : Value := .instruction a (.pointer .variant)

/-- The place of an argument in the array, its variant `u` that `wrap` makes, and the store. -/
def argumentCode (s : Codegen) (a index : Nat) (wrap : Code) (u : Value) : Code :=
  .seq (.op (.inBoundsGEP s.next (arrayValue a) index))
    (.seq wrap (.op (.store u (.instruction s.next (.pointer .variant)))))

theorem wrote_argumentCode {a index : Nat} {wrap : Code} {u : Value} {l : List IRAction}
    {s₁ : Codegen} (h : Wrote l (Gen.bump s) s₁ wrap) :
    Wrote ([.inBoundsGEP s.next (arrayValue a) index] ++
        (l ++ [.store u (.instruction s.next (.pointer .variant))])) s s₁
      (argumentCode s a index wrap u) :=
  (wrote_op rfl (Nat.le_succ _)).seq (h.seq (wrote_op rfl le_rfl))

theorem exec_argumentCode {a index : Nat} {wrap : Code} {u : Value} {m m₁ : State Z W} {d : Data Z}
    (hm : m.register a = .cell a 0)
    (h : wrap.Exec R.machine (m.setRegister s.next (.cell a index)) (.next m₁))
    (hk : m₁.register s.next = .cell a index) (hu : R.valueOf m₁ u = d) :
    (argumentCode s a index wrap u).Exec R.machine m (.next (m₁.store (.cell a index) d)) := by
  have hgep : R.exec (.inBoundsGEP s.next (arrayValue a) index) m =
      m.setRegister s.next (.cell a index) := by
    have hvalue : R.valueOf m (arrayValue a) = .cell a 0 := hm
    simp [Runtime.exec, hvalue]
  have hwrap : wrap.Exec R.machine (R.exec (.inBoundsGEP s.next (arrayValue a) index) m)
      (.next m₁) := by rwa [hgep]
  have hstore : R.exec (.store u (.instruction s.next (.pointer .variant))) m₁ =
      m₁.store (.cell a index) d := by
    show m₁.store (m₁.register s.next) (R.valueOf m₁ u) = _
    rw [hk, hu]
  exact .next rfl (.next hwrap (congrArg _ hstore.symm))

theorem emits_storeArguments {a : Nat} : ∀ {arguments : List Value} {index : Nat} {s : Codegen},
    s.Ready → (∀ v ∈ arguments, s.Usable v) → a < s.next →
      Emits (storeArguments (arrayValue a) index arguments) s fun c _ _ =>
        StoresAll R a index arguments s c
  | [], index, s, _, _, _ => by
    refine emits_pure fun m zs _ hzs => ?_
    cases hzs
    exact Cfg.Code.runs_skip stores_nil
  | v :: arguments, index, s, hs, hv, ha => by
    rw [List.forall_mem_cons] at hv
    have g₁ := Gen.grows_bump s
    have hs₁ := g₁.ready hs
    unfold storeArguments
    rw [Emits, sat_bind, Gen.sat_createInBoundsGEP]
    split
    · rename_i ht
      rw [isVariantType_iff] at ht
      rw [sat_bind, sat_tell]
      refine Sat.mono (emits_storeArguments hs₁ (fun u hu => (hv.2 u hu).mono g₁)
        (ha.trans_le g₁.next)) ?_ fun _ _ _ h => h
      rintro l s' vs ⟨d, hd, h⟩
      refine ⟨.seq (argumentCode s a index .skip v) d, ?_,
        h.cons ha g₁.next fun m dv hm hdv => ?_⟩
      · rw [show (arrayValue a).type = .pointer .variant from rfl]
        simpa only [List.append_assoc, List.nil_append] using
          (wrote_argumentCode (wrote_skip le_rfl)).seq hd
      · obtain ⟨z, rfl⟩ := hdv.variant ht
        rw [ht, R.toVariant_variant]
        have hk : Keeps s.next 0 m (m.setRegister s.next (.cell a index)) :=
          (Keeps.refl m).setRegister le_rfl _
        refine ⟨_, exec_argumentCode hm rfl ?_ ((hk.valueOf hdv.below).trans hdv.valueOf), ?_⟩
        · simp
        · exact stores_variant
    · rename_i ht
      rw [isVariantType_iff, ← hv.1.counted_iff hs] at ht
      have hscalar := hv.1.resolve_right ht
      have hw : (Gen.bump s).Grows (withWrapped (Gen.bump s)) := by
        have h := gives_wrapAsVariant (R := fun _ => False) (s := Gen.bump s) hscalar
        rw [Gives, sat_wrapAsVariant hscalar] at h
        exact h.2.1
      rw [sat_bind, sat_wrapAsVariant hscalar, sat_bind, sat_tell, sat_bind]
      refine Sat.mono (emits_storeArguments (hw.ready hs₁)
        (fun u hu => (hv.2 u hu).mono (g₁.trans hw)) (ha.trans_le (g₁.trans hw).next)) ?_
        fun _ _ _ h => h
      rintro l s' vs ⟨d, hd, h⟩
      rw [sat_pure]
      refine ⟨.seq (argumentCode s a index (wrapCode (Gen.bump s) v) (wrapped (Gen.bump s))) d, ?_,
        h.cons ha (g₁.trans hw).next fun m dv hm hdv => ?_⟩
      · rw [show (arrayValue a).type = .pointer .variant from rfl]
        simpa only [List.append_assoc, List.append_nil] using
          (wrote_argumentCode (a := a) (u := wrapped (Gen.bump s)) wrote_wrapCode).seq hd
      · rw [R.toVariant_of_ne hscalar.ne_variant]
        have hk : Keeps s.next 0 m (m.setRegister s.next (.cell a index)) :=
          (Keeps.refl m).setRegister le_rfl _
        refine ⟨_, exec_argumentCode (d := .cell (s.next + 1) 0) hm
          (exec_wrapCode (hdv.keep hk g₁.next)) ?_ ?_, ?_⟩
        · simp [wrappedState, Gen.bump]
        · simp [wrappedState, wrapped, Runtime.valueOf, Gen.bump]
        · exact stores_wrapped ha

theorem Stores.keeps {n a index loops : Nat} {m₀ m m' : State Z W} {zs : List Z}
    (h : Stores R n a index m m' zs) (hm : Keeps a loops m₀ m) (ha : a < n) :
    Keeps a loops m₀ m' where
  register id hid := (h.register id (hid.trans ha)).trans (hm.register id hid)
  memory b hb := (h.memory b (hb.trans ha) (Nat.ne_of_lt hb)).trans (hm.memory b hb)
  iterator i hi := by
    rw [h.iterator]
    exact hm.iterator i hi

theorem Stores.arguments {n a : Nat} {m m' : State Z W} {zs : List Z}
    (h : Stores R n a 0 m m' zs) : R.arguments m' zs.length (.cell a 0) = zs := by
  refine List.ext_getElem (by simp [Runtime.arguments]) fun j hj hj' => ?_
  have hstored := h.stored j zs[j] (List.getElem?_eq_getElem hj')
  rw [Nat.zero_add] at hstored
  simpa [Runtime.arguments] using hstored

/-- The array that a method gets. -/
theorem emits_createArguments {arguments : List Value} (hs : s.Ready)
    (hv : ∀ v ∈ arguments, s.Usable v) :
    Emits (createArguments arguments) s fun c _ p => ∀ (m : State Z W) (zs : List Z) (loops : Nat),
      List.Forall₂ (Passes R s.next m) arguments zs →
        Computes R s.next loops c m (some (zs, m.world)) fun m' zs =>
          R.arguments m' arguments.length (R.valueOf m' p.1) = zs := by
  have g₁ := Gen.grows_bump s
  unfold createArguments
  split
  · have hw : Wrote [.alloca s.next .variant arguments.length] s (Gen.bump s)
        (.op (.alloca s.next .variant arguments.length)) := wrote_op rfl (Nat.le_succ _)
    have h : Emits (storeArguments (arrayValue s.next) 0 arguments) (Gen.bump s) fun c _ _ =>
        StoresAll R s.next 0 arguments (Gen.bump s) c :=
      emits_storeArguments (g₁.ready hs) (fun u hu => (hv u hu).mono g₁) (Nat.lt_succ_self s.next)
    rw [Emits, sat_bind, Gen.sat_createAlloca]
    refine Sat.bind h ?_ fun _ _ _ h => h
    rintro l s' vs ⟨d, hd, h⟩
    rw [sat_pure, List.append_nil]
    refine ⟨_, hw.seq hd, fun m zs loops hzs => ?_⟩
    have hk : ∀ loops, Keeps s.next loops m (m.setRegister s.next (.cell s.next 0)) := fun _ =>
      (Keeps.refl m).setRegister le_rfl _
    have hpass : List.Forall₂ (Passes R (Gen.bump s).next (m.setRegister s.next (.cell s.next 0)))
        arguments zs := hzs.imp fun u z ⟨du, hdu, hz⟩ => ⟨du, hdu.keep (hk 0) g₁.next, hz⟩
    obtain ⟨o, hexec, ho⟩ := h (m.setRegister s.next (.cell s.next 0)) zs (if_pos rfl) hpass
    cases o with
    | returned m' => exact ho.elim
    | next m' =>
      have hstores : Stores R _ s.next 0 _ m' zs := ho
      refine computes_of_exec (.next rfl hexec) hstores.world
        (hstores.keeps (hk loops) (Nat.lt_succ_self _)) hstores.output ?_
      have hcell : R.valueOf m' (arrayValue s.next) = .cell s.next 0 :=
        (hstores.register s.next (Nat.lt_succ_self _)).trans (if_pos rfl)
      rw [hzs.length_eq]
      exact (congrArg _ hcell).trans hstores.arguments
  · rename_i hlen
    have hnil : arguments = [] := List.length_eq_zero_iff.1 (by omega)
    subst hnil
    refine emits_pure fun m zs loops hzs => ?_
    cases hzs
    exact computes_pure rfl

theorem emits_destroyValues : ∀ {vs : List Value} {s : Codegen},
    Emits (destroyValues vs) s fun c _ _ => Skips R c
  | [], _ => emits_pure skips_skip
  | v :: vs, s => by
    unfold destroyValues
    refine (emits_outOfScope (R := R)).bind fun c s₁ _ hc => ?_
    exact emits_destroyValues.mono fun d _ _ hd => hc.seq hd

theorem emits_retVoidIfCallFails :
    Emits (createRetVoidIfCallFails v) s fun c s' _ => s.next ≤ s'.next ∧
      ∀ (α : Type) (m : State Z W) (b : Bool) (a : α) (loops : Nat), R.valueOf m v = .ofBool b →
        Computes R s.next loops c m (if b then some (a, m.world) else none) fun m' _ => m' = m := by
  rw [Emits, sat_retVoidIfCallFails]
  refine ⟨.check v s.next (s.next + 1), ⟨rfl, Nat.le_add_right _ 2, ?_, ?_⟩,
    Nat.le_add_right _ 2, fun α m b a loops hv => ?_⟩
  · simp [Cfg.Code.labels, Gen.bump]
  · simp [Cfg.Code.labels]
  · have hbranch : R.machine.branch v m = b := by
      show (R.valueOf m v).isTrue = b
      rw [hv, Data.isTrue_ofBool]
    refine Cfg.Code.runs_check (fun h => ?_) fun h => ?_
    · rw [hbranch] at h
      subst h
      exact ⟨a, rfl, .refl m, rfl, rfl⟩
    · rw [hbranch] at h
      subst h
      exact ⟨rfl, rfl⟩

/-- What `do_method_call` returns, a null pointer if it fails. -/
def methodResult : Option Z → Data Z
  | some z => .variant z
  | none => .pointer false

theorem operate_isNotNull (z : Option Z) :
    R.operate .isNotNull [methodResult z] = .ofBool z.isSome := by
  cases z <;> rfl

/-- The call of a method on its arguments. -/
theorem computes_methodCall {f : Text} {k count id : Nat} {array : Value} {m : State Z W}
    {zs : List Z} {n loops : Nat} (hn : n ≤ id)
    (hzs : R.arguments m count (R.valueOf m array) = zs) :
    Computes R n loops (.op (.call id .doMethodCall
      [.argument 2, .constant (.globalString k f), constantInt 32 f.length, constantInt 32 count,
        array])) m
      (some (methodResult (R.doMethodCall f zs m.world).1, (R.doMethodCall f zs m.world).2))
      fun m' d => m'.register id = d := by
  have hcall : R.call m id .doMethodCall [.pointer true, .string f, .integer 32 f.length,
      .integer 32 count, R.valueOf m array] =
      State.setRegister { m with world := (R.doMethodCall f zs m.world).2 } id
        (methodResult (R.doMethodCall f zs m.world).1) := by
    simp only [Runtime.call, Int.toNat_natCast, hzs]
    obtain ⟨z, w⟩ := R.doMethodCall f zs m.world
    cases z <;> rfl
  refine computes_of_exec (congrArg _ hcall.symm) rfl ?_ rfl (if_pos rfl)
  refine Keeps.setRegister ?_ hn _
  exact ⟨fun _ _ => rfl, fun _ _ => rfl, fun _ _ => rfl⟩

theorem emits_methodCall (hB : B.Sound R) {f : Text} {arguments : List Value} (hs : s.Ready)
    (hv : ∀ v ∈ arguments, s.Usable v) :
    Emits (createMethodCall B f arguments) s fun c s' v =>
      ∀ (m : State Z W) (zs : List Z) (loops : Nat),
        List.Forall₂ (Passes R s.next m) arguments zs →
          Computes R s.next loops c m (Runtime.succeeded .variant (R.doMethodCall f zs m.world))
            (Has R s'.next · v) := by
  unfold createMethodCall
  refine (emits_createArguments (R := R) hs hv).le.bind ?_
  rintro c₁ s₁ ⟨array, vs⟩ ⟨hle₁, h₁⟩
  refine emits_globalStringPtr (emits_calledVariant rfl ?_)
  refine (emits_destroyValues (R := R)).le.bind ?_
  rintro c₂ s₂ _ ⟨hle₂, h₂⟩
  refine (emits_createOperation hB).le.bind ?_
  rintro c₃ s₃ failed ⟨hle₃, h₃⟩
  refine (emits_retVoidIfCallFails (R := R)).bind ?_
  rintro c₄ s₄ _ ⟨hle₄, h₄⟩
  refine emits_pure fun m zs loops hzs => ?_
  refine (h₁ m zs loops hzs).step hle₁ le_rfl fun m₁ hk₁ hw₁ hzs₁ => ?_
  rw [← hw₁]
  have hle : (Gen.bump s₁).next < s₂.next := hle₂
  refine (computes_methodCall (Nat.le_succ _) hzs₁).step ((Nat.le_succ _).trans hle.le) le_rfl
    fun m₂ hk₂ hw₂ hr => h₂.computes ?_
  refine (h₃ m₂ loops (by simpa [Below] using hle)).step hle₃ le_rfl fun m₃ hk₃ hw₃ hf => ?_
  have hret : R.valueOf m₂ (.instruction (Gen.bump s₁).next .variant) =
      methodResult (R.doMethodCall f zs m₁.world).1 := hr
  have hret₃ := (hk₃.valueOf (R := R) (v := .instruction (Gen.bump s₁).next .variant) hle).trans hret
  have hf := hf.valueOf
  rw [List.map_cons, List.map_nil, hret, operate_isNotNull] at hf
  have h₄ := (h₄ _ m₃ _ (methodResult (R.doMethodCall f zs m₁.world).1) loops hf).skips skips_skip
  rw [hw₃, hw₂] at h₄
  generalize R.doMethodCall f zs m₁.world = r at h₄ hret₃ ⊢
  obtain ⟨z, w⟩ := r
  cases z with
  | none =>
    refine Cfg.Code.Runs.mono h₄ ?_ fun _ h => ⟨rfl, h.2⟩
    rintro _ ⟨_, h, -⟩
    cases h
  | some z =>
    refine h₄.value fun m' _ hm' => ?_
    subst hm'
    exact ⟨⟨hle.trans_le (hle₃.trans hle₄), hret₃⟩, fun _ => ⟨z, rfl⟩⟩

/-! ### Prints -/

theorem call_printMethod {m : State Z W} {id : Nat} {t : IRType} {d : Data Z} {ds : List (Data Z)} :
    R.call m id (printMethod t) (d :: ds) =
      { m with output := m.output ++ [⟨printMethod t, d⟩] } := by
  unfold printMethod
  split_ifs <;> rfl

theorem emits_printCall :
    Emits (createPrintCall v) s fun c _ _ => ∀ (m : State Z W) (d : Data Z), R.valueOf m v = d →
      c.Runs R.machine m (· = { m with output := m.output ++ [⟨printMethod v.type, d⟩] })
        fun _ => False := by
  have h : Emits (Gen.createCall (printMethod v.type) [v, .argument 1]) s fun c _ _ =>
      ∀ (m : State Z W) (d : Data Z), R.valueOf m v = d →
        c.Runs R.machine m (· = { m with output := m.output ++ [⟨printMethod v.type, d⟩] })
          fun _ => False := by
    refine ⟨.op _, wrote_op rfl (Nat.le_succ _), fun m d hd => Cfg.Code.runs_op ?_⟩
    subst hd
    exact call_printMethod
  unfold createPrintCall getPrintMethodForType
  unfold printMethod at h ⊢
  split_ifs at h ⊢
  all_goals first | exact h | trivial

end

end Php

end B2
