import B2.Llvm.Execution

/-!
# The control flow of statements

The code of every statement prints what the reference rendering prints: the
branches of conditionals and the turns of loops, by induction on the visit.
-/

namespace B2

open Effect.Traced (Sat Returns returns_bind sat_bind sat_pure sat_tell)
open PHPBindings LLVMVisitor

namespace Php

variable {Z W : Type} {B : IRBuilder} {R : Runtime Z W}

/-! ## Code that prints -/

/-- The rendering `r` that began in `m` has led to `m'`, and nothing is touched that was there in
`m₀`. -/
structure Printed (n loops : Nat) (m₀ m : State Z W) (r : Rendering Z W) (m' : State Z W) : Prop where
  world : r.world = some m'.world
  output : m'.output = m.output ++ r.output
  keeps : Keeps n loops m₀ m'

/-- The rendering `r` that began in `m` has ended in `m'` with a call that failed. -/
structure Stopped (m : State Z W) (r : Rendering Z W) (m' : State Z W) : Prop where
  world : r.world = none
  output : m'.output = m.output ++ r.output

/-- The code makes the prints of a rendering. It goes on in the world after it, or returns if a
call failed. -/
def Prints (R : Runtime Z W) (n loops : Nat) (c : Code) (m : State Z W) (r : Rendering Z W) : Prop :=
  c.Runs R.machine m (Printed n loops m m r) (Stopped m r)

section

variable {n n' loops loops' : Nat} {c d : Code} {m m₀ m₁ m' : State Z W} {r : Rendering Z W}

theorem Printed.of_output (h : Printed n loops m₀ m r m') (ho : m.output = m₁.output) :
    Printed n loops m₀ m₁ r m' := ⟨h.world, by rw [← ho, h.output], h.keeps⟩

theorem Stopped.of_output (h : Stopped m r m') (ho : m.output = m₁.output) : Stopped m₁ r m' :=
  ⟨h.world, by rw [← ho, h.output]⟩

theorem Prints.weaken (h : Prints R n' loops' c m r) (hn : n ≤ n') (hl : loops ≤ loops') :
    Prints R n loops c m r := by
  refine Cfg.Code.Runs.mono h ?_ fun _ h => h
  rintro m' ⟨hw, ho, hk⟩
  exact ⟨hw, ho, (Keeps.refl m).trans hk hn hl⟩

theorem Rendering.andThen_of_some {k : W → Rendering Z W} {w : W} (h : r.world = some w) :
    r.andThen k = ⟨r.output ++ (k w).output, (k w).world⟩ := by
  unfold Rendering.andThen
  rw [h]

theorem Rendering.andThen_of_none {k : W → Rendering Z W} (h : r.world = none) :
    r.andThen k = r := by
  unfold Rendering.andThen
  rw [h]

theorem Prints.andThen {k : W → Rendering Z W} (h : Prints R n loops c m r) (hn : n ≤ n')
    (hl : loops ≤ loops')
    (hk : ∀ m', Keeps n loops m m' → Prints R n' loops' d m' (k m'.world)) :
    Prints R n loops (c.seq d) m (r.andThen k) := by
  refine Cfg.Code.Runs.seq (Cfg.Code.Runs.mono h (fun _ h => h) ?_) ?_
  · rintro m' ⟨hw, ho⟩
    rw [Rendering.andThen_of_none hw]
    exact ⟨hw, ho⟩
  · rintro m' ⟨hw, ho, hkeep⟩
    rw [Rendering.andThen_of_some hw]
    refine Cfg.Code.Runs.mono (hk m' hkeep) ?_ ?_
    · rintro m'' ⟨hw', ho', hkeep'⟩
      refine ⟨hw', ?_, hkeep.trans hkeep' hn hl⟩
      rw [ho', ho, List.append_assoc]
    · rintro m'' ⟨hw', ho'⟩
      refine ⟨hw', ?_⟩
      rw [ho', ho, List.append_assoc]

/-- Prints after a computation. -/
theorem Computes.prints {α : Type} {r : Option (α × W)} {P : State Z W → α → Prop}
    {k : α → W → Rendering Z W} (h : Computes R n loops c m r P) (hn : n ≤ n')
    (hl : loops ≤ loops')
    (hk : ∀ m' a, Keeps n loops m m' → P m' a → Prints R n' loops' d m' (k a m'.world)) :
    Prints R n loops (c.seq d) m (.after r k) := by
  refine Cfg.Code.Runs.seq (Cfg.Code.Runs.mono h (fun _ h => h) ?_) ?_
  · rintro m' ⟨rfl, ho⟩
    exact ⟨rfl, ho.trans (List.append_nil _).symm⟩
  · rintro m' ⟨a, rfl, hkeep, ho, hP⟩
    refine Cfg.Code.Runs.mono (hk m' a hkeep hP) ?_ ?_
    · rintro m'' ⟨hw', ho', hkeep'⟩
      exact ⟨hw', by rw [ho', ho]; rfl, hkeep.trans hkeep' hn hl⟩
    · rintro m'' ⟨hw', ho'⟩
      exact ⟨hw', by rw [ho', ho]; rfl⟩

theorem Prints.skips (h : Prints R n loops c m r) (hd : Skips R d) :
    Prints R n loops (c.seq d) m r := by
  refine Cfg.Code.Runs.seq h fun m' hm' => ?_
  refine Cfg.Code.Runs.mono (hd m') ?_ fun _ h => h.elim
  rintro _ rfl
  exact hm'

theorem prints_skip {w : W} (hw : m.world = w) : Prints R n loops .skip m ⟨[], some w⟩ :=
  Cfg.Code.runs_skip ⟨by rw [hw], (List.append_nil _).symm, .refl m⟩

end

/-! ## Statements -/

/-- The code written for a statement prints its rendering. -/
def Performs (R : Runtime Z W) (a : AST) (s : Codegen) (l : List IRAction) (s' : Codegen) : Prop :=
  ∃ c, Wrote l s s' c ∧ ∀ (m : State Z W) (ρ : Text → Option Z), Holds R s ρ m →
    Prints R s.next s.loops c m (R.render ρ a m.world)

section

variable {s s' s₁ s₂ s₃ : Codegen} {l l₁ l₂ l₃ : List IRAction} {v : Value}

theorem prints_printCall {n loops : Nat} {c : Code} {m : State Z W} {p : Print Z} {w : W}
    (hw : m.world = w)
    (h : c.Runs R.machine m (· = { m with output := m.output ++ [p] }) fun _ => False) :
    Prints R n loops c m ⟨[p], some w⟩ := by
  subst hw
  refine Cfg.Code.Runs.mono h ?_ fun _ h => h.elim
  rintro _ rfl
  exact ⟨rfl, rfl, fun _ _ => rfl, fun _ _ => rfl, fun _ _ => rfl⟩

theorem performs_nil : Performs R (.statements []) s [] s :=
  ⟨.skip, wrote_skip le_rfl, fun _ _ _ => prints_skip rfl⟩

theorem Performs.cons {a : AST} {as : List AST} (h : Performs R a s l₁ s₁)
    (h' : Performs R (.statements as) s₁ l₂ s₂) (hl : s.loops ≤ s₁.loops)
    (ho : s₁.overridenVariables = s.overridenVariables) :
    Performs R (.statements (a :: as)) s (l₁ ++ l₂) s₂ := by
  obtain ⟨c, hc, h⟩ := h
  obtain ⟨d, hd, h'⟩ := h'
  refine ⟨c.seq d, hc.seq hd, fun m ρ hm => ?_⟩
  exact (h m ρ hm).andThen hc.spans.le hl fun m' hk => h' m' ρ (hm.keep hk hc.spans.le ho)

theorem performs_rawBlock {t : Text} (h : Returns (printText t) s l s' ()) :
    Performs R (.rawBlock t) s l s' := by
  have hemits : Emits (printText t) s fun c _ _ => ∀ m : State Z W,
      c.Runs R.machine m (· = { m with output := m.output ++ [⟨.printString, .string t⟩] })
        fun _ => False := by
    unfold printText
    refine emits_globalStringPtr ((emits_printCall (R := R)).bind fun c s₁ _ hc => ?_)
    exact emits_pure fun m => (hc m _ rfl).seq fun m' hm' => Cfg.Code.runs_skip hm'
  obtain ⟨c, hc, h⟩ := h.sat hemits
  exact ⟨c, hc, fun m ρ _ => prints_printCall rfl (h m)⟩

theorem emits_printValue : Emits (printValue v) s fun c _ _ => ∀ (m : State Z W) (d : Data Z),
    R.valueOf m v = d →
      c.Runs R.machine m (· = { m with output := m.output ++ [⟨printMethod v.type, d⟩] })
        fun _ => False := by
  unfold printValue releasePrinted
  refine (emits_printCall (R := R)).bind fun c s₁ _ hc => ?_
  have hskips : Emits (if isVariantType v.type then variableGoesOutOfScope v else pure ()) s₁
      fun d _ _ => Skips R d := by
    split_ifs
    · exact emits_outOfScope
    · exact emits_pure skips_skip
  refine hskips.mono fun d s₂ _ hd m dv hdv => (hc m dv hdv).seq fun m' hm' => ?_
  refine (hd m').mono ?_ fun _ h => h
  rintro _ rfl
  exact hm'

theorem performs_printBlock {e : Expression} (h : Evaluates R e s l₁ s₁ v) (ht : v.type = e.irType)
    (hp : Returns (printValue v) s₁ l₂ s₂ ()) : Performs R (.printBlock e) s (l₁ ++ l₂) s₂ := by
  obtain ⟨c, hc, h⟩ := h
  obtain ⟨d, hd, hp⟩ := hp.sat (emits_printValue (R := R))
  refine ⟨c.seq d, hc.seq hd, fun m ρ hm => ?_⟩
  refine (h m ρ s.loops hm).prints le_rfl le_rfl fun m' dv _ hdv => ?_
  rw [← ht]
  exact prints_printCall rfl (hp m' dv hdv.valueOf)

/-! ### Conditionals -/

theorem render_ifBlock {c : Expression} {t : AST} {e : Option AST} (ρ : Text → Option Z) (w : W) :
    R.render ρ (.ifBlock c t e) w = .after (R.eval ρ c w) fun d w =>
      if d.isTrue then R.render ρ t w else R.render ρ (.elseOf e) w := by
  cases e <;> rfl

/-- Code with three blocks of its own around other code. -/
theorem Spans.around {c d : Code} {n n' : Nat} (h : Spans d (n + 3) n')
    (hp : c.labels.Perm ([n, n + 1, n + 2] ++ d.labels)) : Spans c n n' where
  le := (Nat.le_add_right n 3).trans h.le
  bound x hx := by
    have hle := h.le
    rcases List.mem_append.1 (hp.mem_iff.1 hx) with hx | hx
    · simp only [List.mem_cons, List.not_mem_nil, or_false] at hx
      omega
    · have := h.bound x hx
      omega
  nodup := by
    refine hp.symm.nodup (List.nodup_append.2 ⟨by simp, h.nodup, fun x hx y hy heq => ?_⟩)
    have := h.bound y hy
    simp only [List.mem_cons, List.not_mem_nil, or_false] at hx
    omega

theorem wrote_ite {ct ce : Code} (ht : Wrote l₂ (withBlocks s₁) s₂ ct) (he : Wrote l₃ s₂ s₃ ce) :
    Wrote (ifHead v s₁.next ++ l₂ ++ ifNext (s₁.next + 2) (s₁.next + 1) ++ l₃ ++
        ifNext (s₁.next + 2) (s₁.next + 2)) s₁ s₃
      (.ite v s₁.next (s₁.next + 1) (s₁.next + 2) ct ce) where
  items := by
    simp only [Cfg.Code.items, List.flatMap_append, ht.items, he.items]
    rfl
  spans := by
    refine (ht.spans.seq he.spans).around (List.perm_iff_count.2 fun x => ?_)
    simp only [Cfg.Code.labels, List.count_append, List.count_cons, List.count_nil]
    omega

theorem Evaluates.ifBlock {c : Expression} {t : AST} {e : Option AST}
    (hc : Evaluates R c s l₁ s₁ v) (ht : Performs R t (withBlocks s₁) l₂ s₂)
    (he : Performs R (.elseOf e) s₂ l₃ s₃) (g : s.Grows s₁)
    (ho : s₂.overridenVariables = s₁.overridenVariables) (hl : s₁.loops ≤ s₂.loops) :
    Performs R (.ifBlock c t e) s
      (l₁ ++ (ifHead v s₁.next ++ l₂ ++ ifNext (s₁.next + 2) (s₁.next + 1) ++ l₃ ++
        ifNext (s₁.next + 2) (s₁.next + 2))) s₃ := by
  obtain ⟨c₁, hc₁, hc⟩ := hc
  obtain ⟨ct, hct, ht⟩ := ht
  obtain ⟨ce, hce, he⟩ := he
  refine ⟨c₁.seq _, hc₁.seq (wrote_ite hct hce), fun m ρ hm => ?_⟩
  rw [render_ifBlock]
  refine (hc m ρ s.loops hm).prints g.next le_rfl fun m₁ d hk hd => ?_
  have hm₁ := hm.keep hk g.next g.overriden
  have hbranch : R.machine.branch v m₁ = d.isTrue := by
    show (R.valueOf m₁ v).isTrue = _
    rw [hd.valueOf]
  have hn : s₁.next ≤ (withBlocks s₁).next := Nat.le_add_right _ 3
  refine Cfg.Code.runs_ite (fun h => ?_) fun h => ?_
  · rw [hbranch] at h
    rw [if_pos h]
    exact (ht m₁ ρ (hm₁.mono hn rfl)).weaken hn g.loops.ge
  · rw [hbranch] at h
    rw [if_neg (by simp [h])]
    have hn₂ := hn.trans hct.spans.le
    exact (he m₁ ρ (hm₁.mono hn₂ ho)).weaken hn₂ (g.loops.ge.trans hl)

/-! ### Loops -/

theorem render_forBlock {k v : Option Text} {i : Expression} {b : AST} {e : Option AST}
    (ρ : Text → Option Z) (w : W) :
    R.render ρ (.forBlock k v i b e) w = .after (R.eval ρ i w) fun d w =>
      if (R.elements (R.toVariant i.irType d) w).isEmpty then R.render ρ (.elseOf e) w
      else renderLoop (fun element => R.render (bindLoop k v element.1 element.2 ρ) b)
        (R.elements (R.toVariant i.irType d) w) w := by
  cases e with
  | some e => rfl
  | none =>
    refine congrArg _ (funext fun d => funext fun w => ?_)
    show renderLoop _ (R.elements (R.toVariant i.irType d) w) w = _
    cases R.elements (R.toVariant i.irType d) w <;> rfl

/-- The body of a loop prints what `body` says and steps to the next element. -/
def PrintsElement (R : Runtime Z W) (n loops loop : Nat) (b : Code) (again : Value)
    (m₀ : State Z W) (body : Z × Z → W → Rendering Z W) : Prop :=
  ∀ (m : State Z W) (element : Z × Z) (elements : List (Z × Z)), Keeps n loops m₀ m →
    m.iterator loop = element :: elements →
      b.Runs R.machine m
        (fun m' => Printed n loops m₀ m (body element m.world) m' ∧ m'.iterator loop = elements ∧
          R.machine.branch again m' = !elements.isEmpty)
        (Stopped m (body element m.world))

/-- By induction on the elements that are left. -/
theorem PrintsElement.iterates {n loops loop : Nat} {b : Code} {again : Value} {m₀ : State Z W}
    {body : Z × Z → W → Rendering Z W} (hb : PrintsElement R n loops loop b again m₀ body) :
    ∀ (elements : List (Z × Z)) (element : Z × Z) (m : State Z W), Keeps n loops m₀ m →
      m.iterator loop = element :: elements →
        ∃ o, Cfg.Iterates R.machine again (b.Exec R.machine) m o ∧
          o.All (Printed n loops m₀ m (renderLoop body (element :: elements) m.world))
            (Stopped m (renderLoop body (element :: elements) m.world)) := by
  have hstopped : ∀ (elements : List (Z × Z)) (element : Z × Z) (m m' : State Z W),
      Stopped m (body element m.world) m' →
      Stopped m (renderLoop body (element :: elements) m.world) m' := by
    intro elements element m m' h
    unfold renderLoop
    rwa [Rendering.andThen_of_none h.world]
  intro elements
  induction elements with
  | nil =>
    intro element m hk hm
    obtain ⟨o, hexec, ho⟩ := hb m element [] hk hm
    cases o with
    | returned m' => exact ⟨_, .returned hexec, hstopped _ _ _ _ ho⟩
    | next m' =>
      obtain ⟨h, -, hbranch⟩ := ho
      refine ⟨_, .last hexec hbranch, ?_⟩
      unfold renderLoop
      rw [Rendering.andThen_of_some h.world]
      exact ⟨rfl, h.output.trans (congrArg _ (List.append_nil _).symm), h.keeps⟩
  | cons next elements ih =>
    intro element m hk hm
    obtain ⟨o, hexec, ho⟩ := hb m element (next :: elements) hk hm
    cases o with
    | returned m' => exact ⟨_, .returned hexec, hstopped _ _ _ _ ho⟩
    | next m' =>
      obtain ⟨h, hm', hbranch⟩ := ho
      obtain ⟨o', hexec', ho'⟩ := ih next m' h.keeps hm'
      refine ⟨o', .again hexec hbranch hexec', ?_⟩
      rw [renderLoop, Rendering.andThen_of_some h.world]
      cases o' with
      | returned m'' => exact ⟨ho'.1, by rw [ho'.2, h.output, List.append_assoc]⟩
      | next m'' => exact ⟨ho'.1, by rw [ho'.2, h.output, List.append_assoc], ho'.3⟩

/-- The code that `enterLoop` writes: the initialisation with its condition, and the variables. -/
structure EntersLoop (R : Runtime Z W) (s : Codegen) (loop : Nat) (it : Value) (l : List IRAction)
    (s' : Codegen) (f : LoopFrame) (init getVariables : Code) (cond : Value) : Prop where
  loopBlock : f.loopBlock = s.next
  loopElseBlock : f.loopElseBlock = s.next + 1
  afterLoopBlock : f.afterLoopBlock = s.next + 2
  items : l.flatMap IRAction.items =
    [.create s.next true, .create (s.next + 1) true, .create (s.next + 2) true] ++ init.items ++
      [.emit (.condBr cond s.next (s.next + 1)), .place s.next] ++ getVariables.items
  spans : ∃ n, Spans init (s.next + 3) n ∧ Spans getVariables n s'.next
  init : ∀ (m : State Z W) (z : Z), Has R s.next m it (.variant z) →
    Computes R s.next loop init m (some (R.elements z m.world, m.world)) fun m' es =>
      m'.iterator loop = es ∧ R.machine.branch cond m' = !es.isEmpty
  getVariables : ∀ (m : State Z W) (element : Z × Z) (elements : List (Z × Z)) (loops : Nat),
    m.iterator loop = element :: elements →
      Computes R s.next loops getVariables m (some ((), m.world)) fun m' _ =>
        m'.iterator loop = element :: elements ∧
        (∀ u, f.keyVariable = some u → Reads R s'.next m' u (.variant element.1)) ∧
        ∀ u, f.valueVariable = some u → Reads R s'.next m' u (.variant element.2)

theorem enters_enterLoop (hB : B.Sound R) {loop : Nat} {k v : Option Text} {it : Value} :
    Sat (enterLoop B loop k v it) s
      (fun l s' f => ∃ init getVariables cond, EntersLoop R s loop it l s' f init getVariables cond)
      fun _ _ _ => True := by
  unfold enterLoop
  simp only [sat_bind, Gen.sat_createBasicBlock]
  refine Sat.mono (emits_forLoopInit (R := R) hB) ?_ fun _ _ _ _ => trivial
  rintro l₁ s₁ cond ⟨init, hinit, h₁⟩
  simp only [sat_tell, Effect.Traced.sat_get]
  refine Sat.mono (emits_forLoopGetVariables (R := R)) ?_ fun _ _ _ _ => trivial
  rintro l₂ s₂ ⟨key, value⟩ ⟨getVariables, hvars, h₂⟩
  simp only [sat_setOverriden, sat_pure]
  have hle : s.next ≤ (Gen.bump (Gen.bump (Gen.bump s))).next := Nat.le_add_right _ 3
  refine ⟨init, getVariables, cond, rfl, rfl, rfl, ?_, ⟨_, hinit.spans, hvars.spans⟩,
    fun m z hz => ?_, fun m element elements loops hm => ?_⟩
  · have hnote : [IRAction.loopVariables loop key value].flatMap IRAction.items = [] := rfl
    simp only [List.flatMap_append, ← hinit.items, ← hvars.items, List.append_assoc, hnote,
      List.append_nil, List.nil_append]
    rfl
  · have h := (h₁ m z ⟨⟨hz.below.mono hle, hz.valueOf⟩, hz.variant⟩).weaken hle le_rfl
    refine h.mono fun m' es _ ⟨hi, hr⟩ => ⟨hi, ?_⟩
    show (R.valueOf m' cond).isTrue = _
    rw [hr.valueOf, Data.isTrue_ofBool]
  · have h := (h₂ m element elements loops hm).weaken (hle.trans hinit.spans.le) le_rfl
    exact h.mono fun m' _ _ ⟨hi, hk, hv⟩ => ⟨by rw [hi, hm], hk, hv⟩

/-- The code that `leaveLoop` writes: the step to the next element. -/
structure LeavesLoop (R : Runtime Z W) (s : Codegen) (loop : Nat) (l : List IRAction) (s' : Codegen)
    (f : LoopFrame) (step : Code) (again : Value) : Prop where
  items : l.flatMap IRAction.items = step.items ++
    [.emit (.condBr again f.loopBlock f.afterLoopBlock), .place f.loopElseBlock]
  spans : Spans step s.next s'.next
  step : ∀ m : State Z W, Computes R s.next loop step m (some ((), m.world)) fun m' _ =>
    m'.iterator loop = (m.iterator loop).tail ∧
      R.machine.branch again m' = !(m.iterator loop).tail.isEmpty

theorem emits_destroyLoopVariable {value : Option Value} :
    Emits (destroyLoopVariable value) s fun c _ _ => Skips R c := by
  cases value with
  | none => exact emits_pure skips_skip
  | some u => exact emits_outOfScope

theorem leaves_leaveLoop {loop : Nat} {k v : Option Text} {it : Value} {f : LoopFrame} :
    Sat (leaveLoop loop k v it f) s
      (fun l s' _ => ∃ step again, LeavesLoop R s loop l s' f step again) fun _ _ _ => True := by
  unfold leaveLoop
  refine Sat.bind (emits_destroyLoopVariable (R := R)) ?_ fun _ _ _ _ => trivial
  rintro l₁ s₁ - ⟨c₁, hc₁, h₁⟩
  refine Sat.bind (emits_destroyLoopVariable (R := R)) ?_ fun _ _ _ _ => trivial
  rintro l₂ s₂ - ⟨c₂, hc₂, h₂⟩
  simp only [sat_bind, sat_setOverriden]
  refine Sat.mono (emits_forLoopNextIteration (R := R)) ?_ fun _ _ _ _ => trivial
  rintro l₃ s₃ again ⟨c₃, hc₃, h₃⟩
  simp only [sat_tell]
  refine ⟨c₁.seq (c₂.seq c₃), again, ?_, ?_, fun m => h₁.computes (h₂.computes ?_)⟩
  · simp only [Cfg.Code.items, List.flatMap_append, hc₁.items, hc₂.items, hc₃.items,
      List.append_assoc, List.nil_append]
    rfl
  · exact hc₁.spans.seq (hc₂.spans.seq ⟨hc₃.spans.le, hc₃.spans.bound, hc₃.spans.nodup⟩)
  · have h := (h₃ m).weaken (hc₁.spans.le.trans hc₂.spans.le) le_rfl
    refine h.mono ?_
    rintro m' _ _ ⟨hi, hr⟩
    refine ⟨hi, ?_⟩
    show (R.valueOf m' again).isTrue = _
    rw [hr.valueOf, Data.isTrue_ofBool]

theorem finishes_finishLoop {it : Value} {f : LoopFrame} :
    Sat (finishLoop it f) s (fun l s' _ => ∃ c, l.flatMap IRAction.items =
        [.emit (.br f.afterLoopBlock), .place f.afterLoopBlock] ++ Cfg.Code.items c ∧
      Spans c s.next s'.next ∧ Skips R c) fun _ _ _ => True := by
  unfold finishLoop createForLoopCleanup
  simp only [sat_bind, sat_tell, sat_setForLoopMetadata]
  refine Sat.mono (emits_outOfScope (R := R)) ?_ fun _ _ _ _ => trivial
  rintro l s' _ ⟨c, hc, h⟩
  refine ⟨c, ?_, hc.spans, h⟩
  rw [hc.items]
  rfl

/-- In the body of a loop its variables have the key and the value. -/
theorem Holds.body {loop : Nat} {k v : Option Text} {it : Value} {f : LoopFrame}
    {ρ : Text → Option Z} {m : State Z W} {element : Z × Z} (h : Holds R s₁ ρ m)
    (hE : Entered s₁ loop k v it l s₂ f)
    (hkey : ∀ u, f.keyVariable = some u → Reads R s₂.next m u (.variant element.1))
    (hvalue : ∀ u, f.valueVariable = some u → Reads R s₂.next m u (.variant element.2)) :
    Holds R s₂ (bindLoop k v element.1 element.2 ρ) m := by
  intro x
  rw [hE.overriden]
  unfold bindLoopVariables bindLoop
  rw [bindVariable_apply, bindVariable_apply]
  split_ifs with hv hk
  · have hsome := hE.isSome_value
    rw [hv, Option.isSome_some, Option.isSome_iff_exists] at hsome
    obtain ⟨u, hu⟩ := hsome
    rw [hu]
    exact ⟨_, rfl, hvalue u hu⟩
  · have hsome := hE.isSome_key
    rw [hk, Option.isSome_some, Option.isSome_iff_exists] at hsome
    obtain ⟨u, hu⟩ := hsome
    rw [hu]
    exact ⟨_, rfl, hkey u hu⟩
  · have hx := h x
    cases hu : s₁.overridenVariables x with
    | none =>
      rw [hu] at hx
      exact hx
    | some u =>
      rw [hu] at hx
      obtain ⟨z, hz, hr⟩ := hx
      exact ⟨z, hz, hr.below.mono hE.next, hr.valueOf⟩

/-- One turn of a loop: its variables, its body and the step to the next element. -/
theorem printsElement {loop : Nat} {k v : Option Text} {it again cond : Value} {f : LoopFrame}
    {init getVariables cb step : Code} {b : AST} {ρ : Text → Option Z} {m₁ : State Z W}
    {s₄ : Codegen} {l₄ : List IRAction} (hm₁ : Holds R s₁ ρ m₁)
    (hE : Entered s₁ loop k v it l₁ s₂ f)
    (henters : EntersLoop R s₁ loop it l₁ s₂ f init getVariables cond) (hloop : loop < s₂.loops)
    (hn : s₂.next ≤ s₃.next) (hcb : ∀ (m : State Z W) (ρ : Text → Option Z), Holds R s₂ ρ m →
      Prints R s₂.next s₂.loops cb m (R.render ρ b m.world))
    (hleaves : LeavesLoop R s₃ loop l₄ s₄ f step again) :
    PrintsElement R s₁.next loop loop (getVariables.seq (cb.seq step)) again m₁
      fun element => R.render (bindLoop k v element.1 element.2 ρ) b := by
  intro m element elements hk hm
  have hget := henters.getVariables m element elements loop hm
  refine Cfg.Code.Runs.seq (Cfg.Code.Runs.mono hget (fun _ h => h) fun _ h => nomatch h.1) ?_
  rintro m₂ ⟨_, hw, hk₂, ho₂, hi₂, hkey, hvalue⟩
  have hw : m.world = m₂.world := congrArg Prod.snd (Option.some.inj hw)
  have hk₁₂ := hk.trans hk₂ le_rfl le_rfl
  have hbody := hcb m₂ _ ((hm₁.keep hk₁₂ le_rfl rfl).body hE hkey hvalue)
  rw [← hw] at hbody
  refine Cfg.Code.Runs.seq (Cfg.Code.Runs.mono hbody (fun _ h => h) ?_) ?_
  · exact fun m' h => ⟨h.world, by rw [h.output, ho₂]⟩
  rintro m₃ ⟨hw₃, ho₃, hk₃⟩
  refine Cfg.Code.Runs.mono (hleaves.step m₃) ?_ fun _ h => nomatch h.1
  rintro m₄ ⟨_, hw₄, hk₄, ho₄, hi₄, hbranch⟩
  have hw₄ : m₃.world = m₄.world := congrArg Prod.snd (Option.some.inj hw₄)
  have hi₃ : m₃.iterator loop = element :: elements := by rw [hk₃.iterator loop hloop, hi₂]
  rw [hi₃] at hi₄ hbranch
  refine ⟨⟨hw₃.trans (by rw [hw₄]), by rw [ho₄, ho₃, ho₂], ?_⟩, hi₄, hbranch⟩
  exact (hk₁₂.trans hk₃ hE.next hloop.le).trans hk₄ (hE.next.trans hn) le_rfl

/-- A loop after its initialisation, or its else body. -/
theorem prints_loop {n loops loop : Nat} {init b ce : Code} {cond again : Value}
    {body els after : Nat} {m : State Z W} {elements : List (Z × Z)}
    {render : Z × Z → W → Rendering Z W} {r : W → Rendering Z W}
    (hinit : Computes R n loops init m (some (elements, m.world)) fun m' es =>
      m'.iterator loop = es ∧ R.machine.branch cond m' = !es.isEmpty)
    (hb : PrintsElement R n loops loop b again m render)
    (he : ∀ m', Keeps n loops m m' → Prints R n loops ce m' (r m'.world)) :
    Prints R n loops (.loop body els after init cond b again ce) m
      (if elements.isEmpty then r m.world else renderLoop render elements m.world) := by
  refine Cfg.Code.runs_loop (Cfg.Code.Runs.mono hinit (fun _ h => h) fun _ h => nomatch h.1) ?_ ?_
  · rintro m' ⟨es, heq, hk, ho, hm', hbranch⟩ hb'
    have hes : elements = es := congrArg Prod.fst (Option.some.inj heq)
    have hw : m.world = m'.world := congrArg Prod.snd (Option.some.inj heq)
    subst hes
    rw [hbranch] at hb'
    cases elements with
    | nil => cases hb'
    | cons element elements =>
      obtain ⟨o, hexec, hall⟩ := hb.iterates elements element m' hk hm'
      rw [hw]
      refine ⟨o, hexec, ?_⟩
      cases o with
      | next m'' => exact Printed.of_output hall ho
      | returned m'' => exact Stopped.of_output hall ho
  · rintro m' ⟨es, heq, hk, ho, hm', hbranch⟩ hb'
    have hes : elements = es := congrArg Prod.fst (Option.some.inj heq)
    have hw : m.world = m'.world := congrArg Prod.snd (Option.some.inj heq)
    subst hes
    rw [hbranch] at hb'
    cases elements with
    | cons element elements => cases hb'
    | nil =>
      refine Cfg.Code.Runs.mono (he m' hk) (fun m'' h => ?_) fun m'' h => ?_
      · rw [hw]
        exact ⟨h.world, by rw [h.output, ho]; rfl, hk.trans h.keeps le_rfl le_rfl⟩
      · rw [hw]
        exact Stopped.of_output h ho

theorem performs_forBlock {k v : Option Text} {i : Expression} {b : AST} {e : Option AST}
    {it cond again : Value} {f : LoopFrame} {s₀ s₄ s₅ s₆ : Codegen} {l₄ l₅ l₆ : List IRAction}
    {init getVariables step : Code} (hi : Evaluates R i (withLoop s₀) l₁ s₁ it)
    (ht : it.type = i.irType) (hvariant : it.type = .variant)
    (g : (withLoop s₀).Grows s₁) (hE : Entered s₁ s₀.loops k v it l₂ s₂ f)
    (henters : EntersLoop R s₁ s₀.loops it l₂ s₂ f init getVariables cond)
    (hb : Performs R b s₂ l₃ s₃) (hleaves : LeavesLoop R s₃ s₀.loops l₄ s₄ f step again)
    (hloops : s₂.loops ≤ s₄.loops) (ho : s₄.overridenVariables = s₁.overridenVariables)
    (he : Performs R (.elseOf e) s₄ l₅ s₅)
    (hz : ∃ c, l₆.flatMap IRAction.items =
        [.emit (.br f.afterLoopBlock), .place f.afterLoopBlock] ++ Cfg.Code.items c ∧
      Spans c s₅.next s₆.next ∧ Skips R c) :
    Performs R (.forBlock k v i b e) s₀ (l₁ ++ l₂ ++ l₃ ++ l₄ ++ l₅ ++ l₆) s₆ := by
  obtain ⟨ci, hci, hi⟩ := hi
  obtain ⟨cb, hcb, hb⟩ := hb
  obtain ⟨ce, hce, he⟩ := he
  obtain ⟨d, hd, hspans, hskips⟩ := hz
  obtain ⟨hloopBlock, hloopElseBlock, hafterLoopBlock⟩ :=
    And.intro henters.loopBlock (And.intro henters.loopElseBlock henters.afterLoopBlock)
  refine ⟨ci.seq ((Cfg.Code.loop s₁.next (s₁.next + 1) (s₁.next + 2) init cond
    (getVariables.seq (cb.seq step)) again ce).seq d), ⟨?_, ?_⟩, fun m ρ hm => ?_⟩
  · simp only [Cfg.Code.items, List.flatMap_append, hci.items, hcb.items, hce.items, henters.items,
      hleaves.items, hd, hloopBlock, hloopElseBlock, hafterLoopBlock, List.append_assoc]
  · obtain ⟨n, hinit, hvars⟩ := henters.spans
    have hparts := (hinit.seq hvars).seq (hcb.spans.seq (hleaves.spans.seq hce.spans))
    refine hci.spans.seq (Spans.seq (hparts.around (List.perm_iff_count.2 fun x => ?_)) hspans)
    simp only [Cfg.Code.labels, List.count_append, List.count_cons, List.count_nil]
    omega
  · rw [render_forBlock]
    have hm₀ : Holds R (withLoop s₀) ρ m := hm.mono le_rfl rfl
    refine (hi m ρ s₀.loops hm₀).prints hci.spans.le le_rfl fun m₁ dv hk hdv => ?_
    obtain ⟨z, rfl⟩ := hdv.variant hvariant
    rw [← ht, hvariant, R.toVariant_variant]
    have hm₁ := hm₀.keep hk g.next g.overriden
    have hloop : s₀.loops < s₂.loops := by
      rw [hE.loops, g.loops]
      exact Nat.lt_succ_self _
    have hle := (hE.next.trans hcb.spans.le).trans hleaves.spans.le
    refine Prints.skips (prints_loop (henters.init m₁ z hdv) ?_ fun m' hk' => ?_) hskips
    · exact printsElement hm₁ hE henters hloop hcb.spans.le hb hleaves
    · exact (he m' ρ (hm₁.keep hk' hle ho)).weaken hle (hloop.le.trans hloops)

end

end Php

namespace LLVMVisitor

open Php

variable {Z W : Type} {B : IRBuilder} {R : Runtime Z W}

/-- A visit that returns writes code for the rendering of its tree. -/
theorem Visits.performs (hB : B.Sound R) {a : AST} {s s' : Codegen} {l : List IRAction} {r : Bool}
    (h : Visits B a s l s' r) : s.Ready → r = true → Performs R a s l s' := by
  induction h with
  | nil => exact fun _ _ => performs_nil
  | cons ha hs₁ has iha ihas =>
    intro hs hr
    obtain ⟨hext, ho⟩ := ha.frame hs
    exact (iha hs rfl).cons (ihas hs₁ hr) hext.loops (ho rfl)
  | rawBlock h => exact fun _ _ => performs_rawBlock h
  | printBlock he hs₁ hp =>
    intro hs _
    have hv := (expression_returns hs he).2.2
    exact performs_printBlock (evaluates_expression hB _ hs he) hv.type hp
  | ifBlock hc hs₁ hv ht hs₂ he iht ihe =>
    intro hs _
    have g := (expression_returns hs hc).2.1
    obtain ⟨hext, ho⟩ := ht.frame (ready_withBlocks hs₁)
    have h := (evaluates_expression hB _ hs hc).ifBlock (iht (ready_withBlocks hs₁) rfl)
      (ihe hs₂ rfl) g (ho rfl) hext.loops
    simpa only [List.append_assoc] using h
  | @forBlock k v i b e s _ s₁ it _ _ f _ s₃ _ s₄ _ s₅ _ _ hi hs₁ hf hs₂ hb hs₃ hl hs₄ he hs₅ hz
      ihb ihe =>
    intro hs _
    obtain ⟨-, g, hit⟩ := expression_returns (ready_withLoop hs) hi
    obtain ⟨hext, ho⟩ := hb.frame hs₂
    have hloop := loopVisit hf hext (ho rfl) hs₃ hl
    have hcounted := (hz.sat (finishLoop_spec hs₅)).2
    have hvariant := (hs₅.made hcounted).type
    obtain ⟨init, getVariables, cond, henters⟩ := hf.sat (enters_enterLoop (R := R) hB)
    obtain ⟨step, again, hleaves⟩ := hl.sat (leaves_leaveLoop (R := R))
    exact performs_forBlock (evaluates_expression hB _ (ready_withLoop hs) hi) hit.type hvariant g
      hloop.entered henters (ihb hs₂ rfl) hleaves (hext.loops.trans hloop.left.extends.loops)
      hloop.overriden (ihe hs₄ rfl) (hz.sat (finishes_finishLoop (R := R)))
  | _ => exact fun _ hr => nomatch hr

end LLVMVisitor

end B2
