import B2.Llvm.ControlFlow

/-!
# Generated functions

The graph of a generated function is complete, its run prints the reference
rendering, and whenever the visitor calls itself or returns, the insertion point
is in a block without terminator (`VisitorCall`).
-/

namespace B2

open Effect.Traced (Sat Returns)
open PHPBindings LLVMVisitor Php

namespace LLVMVisitor

/-! ## Insertion points -/

/-- The insertion point is in the block `b`, which has no terminator, and the blocks from `n` on are
empty. -/
structure At (n : Nat) (g : Cfg.Graph Nat IRAction Value) (b : Nat) : Prop where
  current : g.current = some b
  below : b < n
  unterminated : Cfg.Unterminated (g.code b)
  fresh : ∀ x, n ≤ x → g.code x = []

section

variable {n n' b x : Nat} {g g' : Cfg.Graph Nat IRAction Value} {c : Code}

theorem At.mono (h : At n g b) (hn : n ≤ n') : At n' g b :=
  ⟨h.current, h.below.trans_le hn, h.unterminated, fun x hx => h.fresh x (hn.trans hx)⟩

/-- Blocks are created or attached. -/
theorem At.of_eq (h : At n g b) (hcurrent : g'.current = g.current) (hcode : g'.code = g.code) :
    At n g' b := by
  obtain ⟨h₁, h₂, h₃, h₄⟩ := h
  exact ⟨hcurrent.trans h₁, h₂, hcode ▸ h₃, hcode ▸ h₄⟩

/-- What some code does to the graph in which it is inserted. -/
structure Inserted (n n' b : Nat) (c : Code) (g : Cfg.Graph Nat IRAction Value) : Prop where
  leaves : At n' (g.addAll c.items) (c.last b)
  last : c.last b = b ∨ n ≤ c.last b
  frame : ∀ x < n, x ≠ b → (g.addAll c.items).code x = g.code x
  terminated : ∀ x ∈ c.labels, x ≠ c.last b → Cfg.Terminated ((g.addAll c.items).code x)

theorem At.insert (h : At n g b) (hc : Spans c n n') : Inserted n n' b c g := by
  have hplaced : c.Placed g b := by
    refine ⟨h.current, List.nodup_cons.2 ⟨fun hb => ?_, hc.nodup⟩, fun x hx => ?_, h.unterminated⟩
    · exact absurd h.below (Nat.not_lt.2 (hc.bound b hb).1)
    · exact h.fresh x (hc.bound x hx).1
  have hfills := c.fills hplaced
  have hlast := List.mem_cons.1 (c.last_mem b)
  refine ⟨⟨c.current_items h.current, ?_, hfills.unterminated, fun x hx => ?_⟩, ?_, fun x hx hne => ?_,
    fun x hx hne => hfills.terminated x (List.mem_cons_of_mem _ hx) hne⟩
  · rcases hlast with hlast | hlast
    · rw [hlast]
      exact h.below.trans_le hc.le
    · exact (hc.bound _ hlast).2
  · rw [hfills.frame x, h.fresh x (hc.le.trans hx)]
    rintro (_ | ⟨_, hmem⟩)
    · exact absurd h.below (Nat.not_lt.2 (hc.le.trans hx))
    · exact absurd (hc.bound x hmem).2 (Nat.not_lt.2 hx)
  · exact hlast.imp_right fun hlast => (hc.bound _ hlast).1
  · refine hfills.frame x fun hmem => ?_
    rcases List.mem_cons.1 hmem with hb | hmem
    · exact hne hb
    · exact absurd hx (Nat.not_lt.2 (hc.bound x hmem).1)

/-- A branch ends the block, and the insertion point moves to an empty one. -/
theorem At.jump {t : Cfg.Instr Nat IRAction Value} (h : At n g b) (hx : g.code x = [])
    (hxb : x ≠ b) (hxn : x < n) :
    At n ((g.add (.emit t)).add (.place x)) x ∧
      ∀ y, y ≠ b → ((g.add (.emit t)).add (.place x)).code y = g.code y := by
  have hcode : ∀ y, y ≠ b → ((g.add (.emit t)).add (.place x)).code y = g.code y := by
    intro y hy
    simp [Cfg.Graph.add, h.current, hy]
  refine ⟨⟨rfl, hxn, ?_, fun y hy => ?_⟩, hcode⟩
  · rw [hcode x hxb, hx]
    exact Cfg.unterminated_nil
  · have hyb : y ≠ b := by
      have := h.below
      omega
    rw [hcode y hyb, h.fresh y hy]

theorem functionGraph_append (l l' : List IRAction) :
    functionGraph (l ++ l') = (functionGraph l).addAll (l'.flatMap IRAction.items) := by
  unfold functionGraph Cfg.Graph.build
  rw [List.flatMap_append, Cfg.Graph.addAll_append]

theorem At.wrote {p l : List IRAction} {s s' : Codegen} (h : At s.next (functionGraph p) b)
    (hw : Wrote l s s' c) : Inserted s.next s'.next b c (functionGraph p) ∧
      functionGraph (p ++ l) = (functionGraph p).addAll c.items :=
  ⟨h.insert hw.spans, by rw [functionGraph_append, hw.items]⟩

/-- The insertion point is in `b`, and the block `x` is still empty. -/
structure Ahead (n : Nat) (g : Cfg.Graph Nat IRAction Value) (b x : Nat) : Prop extends At n g b where
  ne : b ≠ x
  lt : x < n
  empty : g.code x = []

theorem Ahead.wrote {p l : List IRAction} {s s' : Codegen}
    (h : Ahead s.next (functionGraph p) b x) (hw : Wrote l s s' c) :
    Ahead s'.next (functionGraph (p ++ l)) (c.last b) x := by
  obtain ⟨hins, hgraph⟩ := h.toAt.wrote hw
  have hlast := hins.last
  have hne := h.ne
  have hlt := h.lt
  rw [hgraph]
  refine ⟨hins.leaves, by omega, hlt.trans_le hw.spans.le, ?_⟩
  exact (hins.frame x hlt hne.symm).trans h.empty

/-- The start of an if block: the insertion point is in the then block, and the else block is
empty. -/
theorem At.ifHead {p : List IRAction} {v : Value} (h : At n (functionGraph p) b) :
    Ahead (n + 3) (functionGraph (p ++ ifHead v n)) n (n + 1) := by
  have hcreated : At (n + 3) ((functionGraph p).addAll
      [.create n true, .create (n + 1) false, .create (n + 2) false]) b :=
    (h.mono (Nat.le_add_right n 3)).of_eq rfl rfl
  have hb := h.below
  obtain ⟨hat, hcode⟩ := hcreated.jump (t := .condBr v n (n + 1)) (h.fresh n le_rfl) (by omega)
    (by omega)
  rw [functionGraph_append]
  have hempty := h.fresh (n + 1) (Nat.le_succ n)
  exact ⟨hat, by omega, by omega, (hcode (n + 1) (by omega)).trans hempty⟩

/-- The step from the then body to the else body. -/
theorem Ahead.ifNext {p : List IRAction} {m : Nat} (h : Ahead n (functionGraph p) b x) :
    At n (functionGraph (p ++ ifNext m x)) x := by
  rw [functionGraph_append]
  exact (h.toAt.jump (t := .br m) h.empty h.ne.symm h.lt).1.of_eq rfl rfl

section

variable {Z W : Type} {R : Runtime Z W} {s s' : Codegen} {loop : Nat} {p l : List IRAction}
  {f : LoopFrame} {init getVariables step : Code} {it cond again : Value}

/-- The start of a for block: the insertion point is in its body, and its else block is empty. -/
theorem At.enterLoop (h : At s.next (functionGraph p) b)
    (he : EntersLoop R s loop it l s' f init getVariables cond) :
    ∃ b', Ahead s'.next (functionGraph (p ++ l)) b' f.loopElseBlock := by
  obtain ⟨n, hinit, hvars⟩ := he.spans
  have hb := h.below
  have hle := hinit.le
  have hle' := hvars.le
  have hcreated : At (s.next + 3) ((functionGraph p).addAll
      [.create s.next true, .create (s.next + 1) true, .create (s.next + 2) true]) b :=
    (h.mono (Nat.le_add_right _ 3)).of_eq rfl rfl
  have h₁ := hcreated.insert hinit
  have hlast := h₁.last
  have hframe : ∀ x < s.next + 3, s.next ≤ x → (((functionGraph p).addAll
      [.create s.next true, .create (s.next + 1) true, .create (s.next + 2) true]).addAll
        init.items).code x = [] :=
    fun x hx hx' => (h₁.frame x hx (by omega)).trans (h.fresh x hx')
  obtain ⟨h₂, hcode⟩ := h₁.leaves.jump (t := .condBr cond s.next (s.next + 1))
    (hframe s.next (by omega) le_rfl) (by omega) (by omega)
  have h₃ := h₂.insert hvars
  have hlast₃ := h₃.last
  have hgraph : functionGraph (p ++ l) = ((((functionGraph p).addAll
      [.create s.next true, .create (s.next + 1) true, .create (s.next + 2) true]).addAll
        init.items).addAll [.emit (.condBr cond s.next (s.next + 1)), .place s.next]).addAll
          getVariables.items := by
    rw [functionGraph_append, he.items]
    simp only [Cfg.Graph.addAll_append]
  rw [hgraph, he.loopElseBlock]
  refine ⟨_, h₃.leaves, by omega, by omega, ?_⟩
  have hempty := hframe (s.next + 1) (by omega) (by omega)
  exact (h₃.frame (s.next + 1) (by omega) (by omega)).trans ((hcode _ (by omega)).trans hempty)

/-- The step from the body of a for block to its else block. -/
theorem Ahead.leaveLoop (h : Ahead s.next (functionGraph p) b f.loopElseBlock)
    (hl : LeavesLoop R s loop l s' f step again) :
    At s'.next (functionGraph (p ++ l)) f.loopElseBlock := by
  have h₁ := h.toAt.insert hl.spans
  have hlast := h₁.last
  have hle := hl.spans.le
  have hne := h.ne
  have hlt := h.lt
  obtain ⟨h₂, -⟩ := h₁.leaves.jump (t := .condBr again f.loopBlock f.afterLoopBlock)
    ((h₁.frame _ hlt hne.symm).trans h.empty) (by omega) (by omega)
  rw [functionGraph_append, hl.items, Cfg.Graph.addAll_append]
  exact h₂

end

end

/-! ## Calls of the visitor -/

/-- A call of the visitor: what was written before it, its state, and the node it visits. -/
structure VisitorCall where
  before : List IRAction
  state : Codegen
  node : AST ⊕ Expression

/-- The call returns. -/
def VisitorCall.Finishes (B : IRBuilder) (c : VisitorCall) (l : List IRAction) (s' : Codegen) : Prop :=
  match c.node with
  | .inl a => Returns (ast B a) c.state l s' ()
  | .inr e => ∃ v, Returns (expression B e) c.state l s' v

/-- A call makes another, directly. -/
inductive Calls (B : IRBuilder) : VisitorCall → VisitorCall → Prop
  | statement {p s as a bs l s'} (h : Returns (statements B as) s l s' ()) :
      Calls B ⟨p, s, .inl (.statements (as ++ a :: bs))⟩ ⟨p ++ l, s', .inl a⟩
  | printed {p s e} : Calls B ⟨p, s, .inl (.printBlock e)⟩ ⟨p, s, .inr e⟩
  | condition {p s c t e} : Calls B ⟨p, s, .inl (.ifBlock c t e)⟩ ⟨p, s, .inr c⟩
  | thenBody {p s c t e l₁ s₁ v l₂ s₂ f} (hc : Returns (expression B c) s l₁ s₁ v)
      (hf : Returns (enterIf v) s₁ l₂ s₂ f) :
      Calls B ⟨p, s, .inl (.ifBlock c t e)⟩ ⟨p ++ l₁ ++ l₂, s₂, .inl t⟩
  | elseBody {p s c t e l₁ s₁ v l₂ s₂ f l₃ s₃ l₄ s₄} (hc : Returns (expression B c) s l₁ s₁ v)
      (hf : Returns (enterIf v) s₁ l₂ s₂ f) (ht : Returns (ast B t) s₂ l₃ s₃ ())
      (hn : Returns (continueIn f.mergeBlock f.elseBlock) s₃ l₄ s₄ ()) :
      Calls B ⟨p, s, .inl (.ifBlock c t (some e))⟩ ⟨p ++ l₁ ++ l₂ ++ l₃ ++ l₄, s₄, .inl e⟩
  | iterable {p s k v i b e l₁ s₁ loop} (hl : Returns nextLoop s l₁ s₁ loop) :
      Calls B ⟨p, s, .inl (.forBlock k v i b e)⟩ ⟨p ++ l₁, s₁, .inr i⟩
  | loopBody {p s k v i b e l₁ s₁ loop l₂ s₂ it l₃ s₃ f} (hl : Returns nextLoop s l₁ s₁ loop)
      (hi : Returns (expression B i) s₁ l₂ s₂ it)
      (hf : Returns (enterLoop B loop k v it) s₂ l₃ s₃ f) :
      Calls B ⟨p, s, .inl (.forBlock k v i b e)⟩ ⟨p ++ l₁ ++ l₂ ++ l₃, s₃, .inl b⟩
  | loopElse {p s k v i b e l₁ s₁ loop l₂ s₂ it l₃ s₃ f l₄ s₄ l₅ s₅}
      (hl : Returns nextLoop s l₁ s₁ loop) (hi : Returns (expression B i) s₁ l₂ s₂ it)
      (hf : Returns (enterLoop B loop k v it) s₂ l₃ s₃ f) (hb : Returns (ast B b) s₃ l₄ s₄ ())
      (hz : Returns (leaveLoop loop k v it f) s₄ l₅ s₅ ()) :
      Calls B ⟨p, s, .inl (.forBlock k v i b (some e))⟩
        ⟨p ++ l₁ ++ l₂ ++ l₃ ++ l₄ ++ l₅, s₅, .inl e⟩
  | parent {p s e a} : Calls B ⟨p, s, .inr (.getAttribute e a)⟩ ⟨p, s, .inr e⟩
  | argument {p s m as e bs l s' vs} (h : Returns (expressions B as) s l s' vs) :
      Calls B ⟨p, s, .inr (.methodCall m (as ++ some e :: bs))⟩ ⟨p ++ l, s', .inr e⟩
  | binaryLeft {p s e e' op} : Calls B ⟨p, s, .inr (.binaryOperation e e' op)⟩ ⟨p, s, .inr e⟩
  | binaryRight {p s e e' op l s' v} (h : Returns (expression B e) s l s' v) :
      Calls B ⟨p, s, .inr (.binaryOperation e e' op)⟩ ⟨p ++ l, s', .inr e'⟩
  | comparisonLeft {p s e e' op} : Calls B ⟨p, s, .inr (.comparison e e' op)⟩ ⟨p, s, .inr e⟩
  | comparisonRight {p s e e' op l s' v} (h : Returns (expression B e) s l s' v) :
      Calls B ⟨p, s, .inr (.comparison e e' op)⟩ ⟨p ++ l, s', .inr e'⟩
  | operand {p s e op} : Calls B ⟨p, s, .inr (.unaryOperation e op)⟩ ⟨p, s, .inr e⟩

/-- The call starts in a state whose loop variables are counted, at an insertion point in a block
without terminator. -/
structure VisitorCall.Stands (c : VisitorCall) : Prop where
  ready : c.state.Ready
  point : ∃ b, At c.state.next (functionGraph c.before) b

section

variable {Z W : Type} {B : IRBuilder} {R : Runtime Z W} {s s' : Codegen} {l : List IRAction}

theorem ast_wrote (hB : B.Sound R) {a : AST} (hs : s.Ready) (h : Returns (ast B a) s l s' ()) :
    s'.Ready ∧ ∃ c, Wrote l s s' c := by
  have hvisit := h.sat (ast_visits a hs)
  obtain ⟨c, hc, -⟩ := hvisit.performs hB hs rfl
  exact ⟨hvisit.ready hs, c, hc⟩

theorem expression_wrote (hB : B.Sound R) {e : Expression} {v : Value} (hs : s.Ready)
    (h : Returns (expression B e) s l s' v) : s'.Ready ∧ ∃ c, Wrote l s s' c := by
  obtain ⟨c, hc, -⟩ := evaluates_expression hB e hs h
  exact ⟨((expression_returns hs h).2.1).ready hs, c, hc⟩

theorem expressions_wrote (hB : B.Sound R) {args : List (Option Expression)} {vs : List Value}
    (hs : s.Ready) (h : Returns (expressions B args) s l s' vs) :
    s'.Ready ∧ ∃ c, Wrote l s s' c := by
  obtain ⟨c, hc, -⟩ := evaluates_arguments (fun e _ => evaluates_expression hB e) hs h
  exact ⟨((expressions_return hs h).2.1).ready hs, c, hc⟩

/-- After code the insertion point is in a block without terminator. -/
theorem VisitorCall.Stands.wrote {p : List IRAction} {node node' : AST ⊕ Expression}
    (h : VisitorCall.Stands ⟨p, s, node⟩) (hw : s'.Ready ∧ ∃ c, Wrote l s s' c) :
    VisitorCall.Stands ⟨p ++ l, s', node'⟩ := by
  obtain ⟨-, b, hb⟩ := h
  obtain ⟨hs', c, hc⟩ := hw
  obtain ⟨hins, hgraph⟩ := hb.wrote hc
  exact ⟨hs', _, hgraph ▸ hins.leaves⟩

theorem VisitorCall.Stands.nextLoop {p : List IRAction} {loop : Nat} {node node' : AST ⊕ Expression}
    (h : VisitorCall.Stands ⟨p, s, node⟩) (hl : Returns nextLoop s l s' loop) :
    VisitorCall.Stands ⟨p ++ l, s', node'⟩ := by
  have hsat : Sat LLVMVisitor.nextLoop s (fun l s' _ => l = [] ∧ s' = withLoop s) fun _ _ _ => True :=
    sat_nextLoop.2 ⟨rfl, rfl⟩
  obtain ⟨hs, b, hb⟩ := h
  obtain ⟨rfl, rfl⟩ := hl.sat hsat
  exact ⟨ready_withLoop hs, b, by rwa [List.append_nil]⟩

theorem VisitorCall.Stands.enterIf {p : List IRAction} {v : Value} {f : IfFrame}
    {node : AST ⊕ Expression} (h : VisitorCall.Stands ⟨p, s, node⟩)
    (hf : Returns (enterIf v) s l s' f) :
    s'.Ready ∧ ∃ b, Ahead s'.next (functionGraph (p ++ l)) b f.elseBlock := by
  have hsat : Sat (LLVMVisitor.enterIf v) s
      (fun l s' f => l = ifHead v s.next ∧ s' = withBlocks s ∧ f = ⟨s.next + 1, s.next + 2⟩)
      fun _ _ _ => True := by
    rw [sat_enterIf]
    split_ifs
    exact ⟨rfl, rfl, rfl⟩
  obtain ⟨hs, b, hb⟩ := h
  obtain ⟨rfl, rfl, rfl⟩ := hf.sat hsat
  exact ⟨ready_withBlocks hs, _, hb.ifHead⟩

theorem VisitorCall.Stands.enterLoop {p : List IRAction} {loop : Nat} {k v : Option Text}
    {it : Value} {f : LoopFrame} {node : AST ⊕ Expression} (hB : B.Sound R)
    (h : VisitorCall.Stands ⟨p, s, node⟩) (hf : Returns (enterLoop B loop k v it) s l s' f) :
    s'.Ready ∧ ∃ b, Ahead s'.next (functionGraph (p ++ l)) b f.loopElseBlock := by
  obtain ⟨hs, b, hb⟩ := h
  have hentered : Entered s loop k v it l s' f :=
    hf.sat (enterLoop_spec (E := fun _ _ _ => False))
  obtain ⟨init, getVariables, cond, henters⟩ := hf.sat (enters_enterLoop (R := R) hB)
  exact ⟨hentered.ready hs, hb.enterLoop henters⟩

/-- The call of the else body of a loop. -/
theorem VisitorCall.Stands.leaveLoop {p : List IRAction} {loop : Nat} {k v : Option Text}
    {it : Value} {f : LoopFrame} {node node' : AST ⊕ Expression} {b : AST} {s₁ s₂ s₃ : Codegen}
    {l₁ l₂ l₃ : List IRAction} (hB : B.Sound R) (h : VisitorCall.Stands ⟨p, s, node⟩)
    (hf : Returns (LLVMVisitor.enterLoop B loop k v it) s l₁ s₁ f)
    (hb : Returns (ast B b) s₁ l₂ s₂ ()) (hz : Returns (leaveLoop loop k v it f) s₂ l₃ s₃ ()) :
    VisitorCall.Stands ⟨p ++ l₁ ++ l₂ ++ l₃, s₃, node'⟩ := by
  obtain ⟨hs₁, x, hahead⟩ := h.enterLoop hB hf
  obtain ⟨hs₂, cb, hcb⟩ := ast_wrote hB hs₁ hb
  obtain ⟨hext, ho⟩ := (hb.sat (ast_visits b hs₁)).frame hs₁
  have hloop := loopVisit hf hext (ho rfl) hs₂ hz
  obtain ⟨step, again, hleaves⟩ := hz.sat (leaves_leaveLoop (R := R))
  have hextends := hloop.entered.extends.trans (hext.trans hloop.left.extends)
  exact ⟨hextends.ready hloop.overriden h.ready, _, (hahead.wrote hcb).leaveLoop hleaves⟩

/-- A call that stands makes calls that stand. -/
theorem Calls.stands {c c' : VisitorCall} (hB : B.Sound R) (h : Calls B c c') (hc : c.Stands) :
    c'.Stands := by
  cases h with
  | printed | condition | parent | binaryLeft | comparisonLeft | operand => exact ⟨hc.1, hc.2⟩
  | @statement _ _ as _ _ _ _ h => exact hc.wrote (ast_wrote hB (a := .statements as) hc.ready h)
  | binaryRight h | comparisonRight h => exact hc.wrote (expression_wrote hB hc.ready h)
  | argument h => exact hc.wrote (expressions_wrote hB hc.ready h)
  | iterable hl => exact hc.nextLoop hl
  | @thenBody _ _ c _ _ _ _ _ _ _ _ he hf =>
    have hcondition : VisitorCall.Stands ⟨_, _, .inr c⟩ := hc.wrote (expression_wrote hB hc.ready he)
    obtain ⟨hs₂, b, hb⟩ := hcondition.enterIf hf
    exact ⟨hs₂, b, hb.toAt⟩
  | @elseBody _ _ c _ _ _ _ _ _ _ _ _ _ _ _ he hf ht hn =>
    have hcondition : VisitorCall.Stands ⟨_, _, .inr c⟩ := hc.wrote (expression_wrote hB hc.ready he)
    obtain ⟨hs₂, b, hb⟩ := hcondition.enterIf hf
    obtain ⟨hs₃, ct, hct⟩ := ast_wrote hB hs₂ ht
    obtain ⟨rfl, rfl⟩ := hn.sat (sat_continueIn.2 ⟨rfl, rfl⟩ : Sat _ _
      (fun l s' _ => l = ifNext _ _ ∧ s' = _) fun _ _ _ => True)
    exact ⟨hs₃, _, (hb.wrote hct).ifNext⟩
  | @loopBody _ _ _ _ i _ _ _ _ _ _ _ _ _ _ _ hl hi hf =>
    have hloop : VisitorCall.Stands ⟨_, _, .inr i⟩ := hc.nextLoop hl
    have hiterable : VisitorCall.Stands ⟨_, _, .inr i⟩ :=
      hloop.wrote (expression_wrote hB hloop.ready hi)
    obtain ⟨hs₂, b, hb⟩ := hiterable.enterLoop hB hf
    exact ⟨hs₂, b, hb.toAt⟩
  | @loopElse _ _ _ _ i _ _ _ _ _ _ _ _ _ _ _ _ _ _ _ hl hi hf hb hz =>
    have hloop : VisitorCall.Stands ⟨_, _, .inr i⟩ := hc.nextLoop hl
    have hiterable : VisitorCall.Stands ⟨_, _, .inr i⟩ :=
      hloop.wrote (expression_wrote hB hloop.ready hi)
    exact hiterable.leaveLoop hB hf hb hz

/-! ## Boundaries of calls -/

/-- After these calls of the builder the insertion point is in a block without terminator. -/
def Unterminated (log : List IRAction) : Prop :=
  ∃ b, (functionGraph log).current = some b ∧ Cfg.Unterminated ((functionGraph log).code b)

/-- When the call starts and when it returns the insertion block has no terminator, and all other
blocks that it created have one. -/
structure VisitorCall.Bounded (B : IRBuilder) (c : VisitorCall) : Prop where
  entry : Unterminated c.before
  exit : ∀ l s', c.Finishes B l s' → Unterminated (c.before ++ l)
  terminated : ∀ l s' x attached, c.Finishes B l s' → .createBlock x attached ∈ l →
    (functionGraph (c.before ++ l)).current ≠ some x →
      Cfg.Terminated ((functionGraph (c.before ++ l)).code x)

theorem mem_labels_of_wrote {c : Code} {x : Nat} {attached : Bool} (h : Wrote l s s' c)
    (hx : .createBlock x attached ∈ l) : x ∈ c.labels := by
  have hitem : Cfg.Item.create x attached ∈ c.items := by
    rw [h.items]
    exact List.mem_flatMap.2 ⟨_, hx, List.mem_singleton_self _⟩
  have hperm := c.perm_items (f := Cfg.Item.created) (fun _ => rfl) (fun _ => rfl) (fun _ => rfl)
    fun _ => rfl
  exact hperm.mem_iff.1 (List.mem_flatMap.2 ⟨_, hitem, List.mem_singleton_self _⟩)

theorem VisitorCall.Stands.bounded {c : VisitorCall} (hB : B.Sound R) (h : c.Stands) :
    c.Bounded B := by
  obtain ⟨p, s, node⟩ := c
  obtain ⟨b, hb⟩ := h.point
  have hwrote : ∀ l s', VisitorCall.Finishes B ⟨p, s, node⟩ l s' → ∃ c, Wrote l s s' c := by
    intro l s' hf
    cases node with
    | inl a => exact (ast_wrote hB h.ready hf).2
    | inr e =>
      obtain ⟨v, hv⟩ := hf
      exact (expression_wrote hB h.ready hv).2
  refine ⟨⟨b, hb.current, hb.unterminated⟩, fun l s' hf => ?_, fun l s' x attached hf hx hne => ?_⟩
  · obtain ⟨c, hc⟩ := hwrote l s' hf
    obtain ⟨hins, hgraph⟩ := hb.wrote hc
    rw [Unterminated, hgraph]
    exact ⟨_, hins.leaves.current, hins.leaves.unterminated⟩
  · obtain ⟨c, hc⟩ := hwrote l s' hf
    obtain ⟨hins, hgraph⟩ := hb.wrote hc
    rw [hgraph, hins.leaves.current] at hne
    rw [hgraph]
    exact hins.terminated x (mem_labels_of_wrote hc hx) fun heq => hne (heq ▸ rfl)

/-- The calls that a visit of the tree makes, at any depth. -/
def CallOf (B : IRBuilder) (a : AST) : VisitorCall → Prop :=
  Relation.ReflTransGen (Calls B) ⟨entryLog, .start, .inl a⟩

/-- By induction on the depth of the call. -/
theorem CallOf.stands {a : AST} {c : VisitorCall} (hB : B.Sound R) (h : CallOf B a c) :
    c.Stands := by
  induction h with
  | refl =>
    refine ⟨Codegen.ready_start, 0, rfl, Nat.zero_lt_one, ?_, fun _ _ => rfl⟩
    exact Cfg.unterminated_nil
  | tail _ hcalls ih => exact hcalls.stands hB ih

/-! ## Functions -/

/-- The function made by these calls, run from its entry block in `m`, returns in `m'`. -/
def Executes (R : Runtime Z W) (log : List IRAction) (m m' : State Z W) : Prop :=
  Cfg.Halts (functionGraph log) R.machine ⟨0, (functionGraph log).code 0, m⟩ m'

/-- The graph of a function is complete, and its run returns when it has made the prints of the
reference rendering. -/
structure Correct (R : Runtime Z W) (a : AST) (log : List IRAction) : Prop where
  complete : (functionGraph log).Complete
  executes : ∀ m : State Z W, ∃ m', Executes R log m m' ∧
    m'.output = m.output ++ (R.render (fun _ => none) a m.world).output

/-- The graph of a function is that of its code. -/
theorem functionGraph_of_wrote {c : Code} (hc : Wrote l .start s' c) :
    (0 :: c.labels).Nodup ∧ functionGraph (entryLog ++ l ++ [.retVoid]) = .build (c.function 0) := by
  constructor
  · refine List.nodup_cons.2 ⟨fun hmem => ?_, hc.spans.nodup⟩
    exact absurd (hc.spans.bound 0 hmem).1 (by decide)
  · unfold functionGraph Cfg.Code.function
    rw [List.flatMap_append, List.flatMap_append, hc.items]
    rfl

theorem correct_of_performs {a : AST} (h : Performs R a .start l s') :
    Correct R a (entryLog ++ l ++ [.retVoid]) := by
  obtain ⟨c, hc, h⟩ := h
  obtain ⟨hnodup, hgraph⟩ := functionGraph_of_wrote hc
  refine ⟨hgraph ▸ c.complete_function hnodup, fun m => ?_⟩
  unfold Executes
  obtain ⟨o, hexec, ho⟩ := h m _ fun _ => rfl
  refine ⟨o.state, hgraph ▸ c.halts_function hnodup hexec, ?_⟩
  cases o with
  | next m' => exact ho.output
  | returned m' => exact ho.output

theorem visit_returns_iff (a : AST) (hs : s.Clean) :
    (visit B a s).result = .ok () ↔ a.Compiles := by
  obtain ⟨l, s', r, hvisit, hok, herr⟩ := visit_run B a hs
  rw [hvisit.compiles_iff Codegen.ready_start]
  cases r with
  | true => simp [hok rfl]
  | false =>
    obtain ⟨err, herr⟩ := herr rfl
    simp [herr]

theorem correct_of_returns (hB : B.Sound R) {a : AST} (hs : s.Clean)
    (h : (visit B a s).result = .ok ()) : Correct R a (visit B a s).log := by
  obtain ⟨l, s', r, hvisit, hok, herr⟩ := visit_run B a hs
  cases r with
  | true =>
    rw [hok rfl]
    exact correct_of_performs (hvisit.performs hB Codegen.ready_start rfl)
  | false =>
    obtain ⟨err, herr⟩ := herr rfl
    rw [herr] at h
    cases h

/-- A visit returns for the trees that compile. Its function prints the reference rendering, and
every call that it makes on the way starts and ends in a block without terminator. -/
theorem visit_correct (hB : B.Sound R) (a : AST) (hs : s.Clean) :
    ((visit B a s).result = .ok () ↔ a.Compiles) ∧
    ((visit B a s).result = .ok () → Correct R a (visit B a s).log) ∧
    ∀ c, CallOf B a c → c.Bounded B :=
  ⟨visit_returns_iff a hs, correct_of_returns hB hs, fun _ hc => (hc.stands hB).bounded hB⟩

end

/-- Variants are numbers, and a number iterates over the numbers below it. -/
def countingRuntime : Runtime Nat Unit where
  operation _ _ := .pointer false
  folded _ := .pointer false
  undefined := 0
  setZval
    | .integer _ z => z.toNat
    | _ => 0
  getValueFromHashtable x w := (x.length, w)
  getAttribute z _ w := (z, w)
  compareVariant _ z z' w := (some (z = z'), w)
  binaryVariantOperation _ z z' w := (some (z + z'), w)
  unaryVariantOperation _ _ w := (none, w)
  doMethodCall _ _ w := (none, w)
  elements z _ := (List.range z).map fun i => (i, i)

/-- `{% for x in ab %}{{ x }}{{ x() }}{% endfor %}` -/
def stopsInLoop : AST :=
  .forBlock none (some ['x']) (.variableReference ['a', 'b'])
    (.statements [.printBlock (.variableReference ['x']), .printBlock (.methodCall ['x'] [])]) none

/-- The method fails in the first turn. -/
theorem correct_stopsInLoop : ∃ m',
    Executes countingRuntime (visit .noFolding stopsInLoop .fresh).log
      ⟨fun _ => .pointer false, fun _ _ => .pointer false, fun _ => [], (), []⟩ m' ∧
      m'.output = [⟨.printVariant, .variant 0⟩] := by
  have h := visit_correct (IRBuilder.sound_noFolding countingRuntime) stopsInLoop
    Codegen.clean_fresh
  exact (h.2.1 rfl).executes _

end LLVMVisitor

end B2
