import B2.Javascript.Occurrences
import B2.Llvm.Statements

/-!
# What the LLVM visitor uses for variables

The references of a run, each with the value it got, are the occurrences of the
tree: a loop variable of the for block an occurrence belongs to, or a lookup
(`Visits.references`). A run that throws has a first part of them. With what the
JavaScript visitor writes this says that both scope variables alike.
-/

namespace B2

open Effect.Traced (Sat Returns Throws sat_bind sat_pure sat_tell sat_get sat_throw)
open PHPBindings LLVMVisitor
open IRAction (OutsideLoops Quiet)

/-- The value is the loop variable: the log `T` has its for block with the value. -/
def Binding.Denotes (T : List IRAction) (u : Value) : Binding → Prop
  | .key n => ∃ value, IRAction.loopVariables n (some u) value ∈ T
  | .value n => ∃ key, IRAction.loopVariables n key (some u) ∈ T

/-- The value is the result of a lookup of the name. -/
def LooksUp (T : List IRAction) (x : Text) (u : Value) : Prop :=
  ∃ id id', u = .instruction id .variant ∧
    IRAction.call id .getValueFromHashtable
      [.argument 0, .constant (.globalString id' x), constantInt 32 x.length] ∈ T

/-- A reference has the value that its occurrence means. -/
def Occurrence.Uses (T : List IRAction) (o : Occurrence) (p : Text × Value) : Prop :=
  p.1 = o.name ∧
    match o.binding with
    | some b => b.Denotes T p.2
    | none => LooksUp T o.name p.2

namespace LLVMVisitor

/-- The references of a log and their values. -/
def references (l : List IRAction) : List (Text × Value) :=
  l.filterMap fun
    | .reference x v => some (x, v)
    | _ => none

/-- The for blocks of a log whose bodies were entered. -/
def loopNumbers (l : List IRAction) : List Nat :=
  l.filterMap fun
    | .loopVariables n _ _ => some n
    | _ => none

theorem references_append (l l' : List IRAction) :
    references (l ++ l') = references l ++ references l' := List.filterMap_append

theorem loopNumbers_append (l l' : List IRAction) :
    loopNumbers (l ++ l') = loopNumbers l ++ loopNumbers l' := List.filterMap_append

theorem references_of_quiet {l : List IRAction} (h : ∀ x ∈ l, Quiet x) : references l = [] := by
  refine List.filterMap_eq_nil_iff.2 fun x hx => ?_
  have hx := (h x hx).noReference
  cases x <;> first | rfl | exact absurd trivial hx

theorem loopNumbers_of_outsideLoops {l : List IRAction} (h : ∀ x ∈ l, OutsideLoops x) :
    loopNumbers l = [] := by
  refine List.filterMap_eq_nil_iff.2 fun x hx => ?_
  have hx := h x hx
  cases x <;> first | rfl | exact absurd hx id

theorem loopNumbers_of_quiet {l : List IRAction} (h : ∀ x ∈ l, Quiet x) : loopNumbers l = [] :=
  loopNumbers_of_outsideLoops fun x hx => (h x hx).outsideLoops

/-- Of the occurrences `all`, those that the log has references of: all of them if the run
returned (`r`), else a first part. -/
def Follows (T : List IRAction) (all : List Occurrence) (l : List IRAction) (r : Bool) : Prop :=
  (∀ x ∈ l, x ∈ T) → ∃ os, os <+: all ∧ (r = true → os = all) ∧
    List.Forall₂ (Occurrence.Uses T) os (references l)

section

variable {T l l' : List IRAction} {all all' : List Occurrence} {r : Bool}

theorem follows_of_references (h : references l = []) : Follows T [] l true :=
  fun _ => ⟨[], List.prefix_rfl, fun _ => rfl, h ▸ .nil⟩

/-- A run that throws before the rest. -/
theorem Follows.before (h : Follows T all l false) : Follows T (all ++ all') l false := fun hT => by
  obtain ⟨os, hos, -, h⟩ := h hT
  exact ⟨os, hos.trans (List.prefix_append _ _), nofun, h⟩

theorem Follows.throws (h : Follows T all l r) : Follows T all l false := fun hT => by
  obtain ⟨os, hos, -, h⟩ := h hT
  exact ⟨os, hos, nofun, h⟩

theorem Follows.append (h : Follows T all l true) (h' : Follows T all' l' r) :
    Follows T (all ++ all') (l ++ l') r := fun hT => by
  obtain ⟨hl, hl'⟩ := List.forall_mem_append.1 hT
  obtain ⟨os, -, hall, hu⟩ := h hl
  obtain ⟨os', hos', hall', hu'⟩ := h' hl'
  rw [hall rfl] at hu
  refine ⟨all ++ os', (List.prefix_append_right_inj all).2 hos', fun hr => by rw [hall' hr], ?_⟩
  rw [references_append]
  exact List.rel_append hu hu'

/-- Actions that are no references. -/
theorem Follows.skip (h : Follows T all l r) (hl : references l' = []) :
    Follows T all (l ++ l') r := fun hT => by
  obtain ⟨os, hos, hall, h⟩ := h (List.forall_mem_append.1 hT).1
  refine ⟨os, hos, hall, ?_⟩
  rwa [references_append, hl, List.append_nil]

end

/-- The map of overriden variables in the bodies of some for blocks. -/
def Scoped (T : List IRAction) (Ls : List Loop) (ρ : Text → Option Value) : Prop :=
  ∀ x, match (⟨x, Ls⟩ : Occurrence).binding with
    | some b => ∃ u, ρ x = some u ∧ b.Denotes T u
    | none => ρ x = none

theorem scoped_nil {T : List IRAction} {ρ : Text → Option Value} (h : ∀ x, ρ x = none) :
    Scoped T [] ρ := h

/-- The map in the body of one for block more. -/
theorem Scoped.enter {T : List IRAction} {Ls : List Loop} {ρ : Text → Option Value} {n : Nat}
    {k v : Option Text} {key value : Option Value} (h : Scoped T Ls ρ)
    (hk : key.isSome = k.isSome) (hv : value.isSome = v.isSome)
    (hT : IRAction.loopVariables n key value ∈ T) :
    Scoped T (⟨n, k, v⟩ :: Ls) (bindLoopVariables k v key value ρ) := by
  intro x
  have hx := h x
  rw [Occurrence.binding_cons]
  unfold Loop.binding bindLoopVariables
  rw [bindVariable_apply, bindVariable_apply]
  by_cases hvx : v = some x
  · obtain ⟨u, rfl⟩ := Option.isSome_iff_exists.1 (hv.trans (by rw [hvx]; rfl))
    simp only [hvx, if_true, Option.some_or]
    exact ⟨u, rfl, key, hT⟩
  by_cases hkx : k = some x
  · obtain ⟨u, rfl⟩ := Option.isSome_iff_exists.1 (hk.trans (by rw [hkx]; rfl))
    simp only [hvx, hkx, if_true, if_false, Option.some_or]
    exact ⟨u, rfl, value, hT⟩
  · simp only [hvx, hkx, if_false, Option.none_or]
    exact hx

/-! ## Expressions -/

section

variable {B : IRBuilder} {T : List IRAction} {Ls : List Loop}

theorem references_of_plain {l : List IRAction} (h : ∀ x ∈ l, IRAction.Plain x) :
    references l = [] := by
  refine List.filterMap_eq_nil_iff.2 fun x hx => ?_
  have hx := (h x hx).2
  cases x <;> first | rfl | exact absurd trivial hx

/-- From `s` the references of a run are the occurrences `all`. -/
def RunFollows {α : Type} (T : List IRAction) (all : List Occurrence) (m : Gen α) (s : Codegen) :
    Prop :=
  Sat m s (fun l _ _ => Follows T all l true) fun l _ _ => Follows T all l false

theorem runFollows_of_plain {α : Type} {m : Gen α} {s : Codegen} {P : Codegen → α → Prop}
    {R : Codegen → Prop} (h : Gives IRAction.Plain m s P R) : RunFollows T [] m s := by
  refine Sat.mono h ?_ ?_
  · exact fun _ _ _ h => follows_of_references (references_of_plain h.1)
  · exact fun _ _ _ h => (follows_of_references (references_of_plain h.1)).throws

theorem RunFollows.bind {α β : Type} {m : Gen α} {f : α → Gen β} {s : Codegen}
    {all all' : List Occurrence} {P : Codegen → α → Prop} {R : Codegen → Prop}
    {A : IRAction → Prop} (h : RunFollows T all m s) (hm : Gives A m s P R)
    (hf : ∀ s' a, s.Grows s' → P s' a → RunFollows T all' (f a) s') :
    RunFollows T (all ++ all') (m >>= f) s := by
  refine Sat.bind (Sat.and h hm) ?_ (fun _ _ _ h => h.1.before)
  rintro l s' a ⟨hl, -, hg, ha⟩
  exact Sat.mono (hf s' a hg ha) (fun _ _ _ h => hl.append h) fun _ _ _ h => hl.append h

theorem follows_variableReference {x : Text} {s : Codegen} (hs : s.Ready)
    (hρ : Scoped T Ls s.overridenVariables) :
    RunFollows T [⟨x, Ls⟩] (variableReferenceExpression x) s := by
  have hx := hρ x
  have huse : ∀ {l : List IRAction} {v : Value}, references l = [] →
      ((∀ y ∈ l, y ∈ T) → (⟨x, Ls⟩ : Occurrence).Uses T (x, v)) →
      Follows T [⟨x, Ls⟩] (l ++ ([.reference x v] ++ [])) true := by
    intro l v hl hu hT
    refine ⟨_, List.prefix_rfl, fun _ => rfl, ?_⟩
    rw [references_append, hl]
    exact .cons (hu (List.forall_mem_append.1 hT).1) .nil
  unfold variableReferenceExpression RunFollows
  rw [sat_bind, sat_get]
  cases hb : (⟨x, Ls⟩ : Occurrence).binding with
  | some b =>
    rw [hb] at hx
    obtain ⟨u, hu, hd⟩ := hx
    rw [hu]
    obtain ⟨c, hc⟩ := Option.ne_none_iff_exists'.1 (hs.overriden hu)
    simp only [sat_bind, sat_newReference, hc, sat_tell, sat_pure]
    have h := huse (l := []) (v := u) rfl fun _ => ⟨rfl, by rw [hb]; exact hd⟩
    split
    · exact h
    · exact h
  | none =>
    rw [hb] at hx
    rw [hx]
    unfold createVariableLookup setRefCount
    simp only [sat_bind, sat_tell, sat_pure, Gen.sat_createGlobalStringPtr, Gen.sat_createCall,
      Effect.Traced.sat_modify]
    refine huse (l := [.call _ _ _]) rfl fun hT => ⟨rfl, ?_⟩
    rw [hb]
    exact ⟨_, _, rfl, hT _ List.mem_cons_self⟩

theorem follows_expressions {args : List (Option Expression)}
    (ih : ∀ e, some e ∈ args → ∀ {s : Codegen}, s.Ready → Scoped T Ls s.overridenVariables →
      RunFollows T (e.occurrences Ls) (expression B e) s) :
    ∀ {s : Codegen}, s.Ready → Scoped T Ls s.overridenVariables →
      RunFollows T ((Expr.argumentReferences args).map (⟨·, Ls⟩)) (expressions B args) s := by
  induction args with
  | nil => exact fun _ _ => follows_of_references rfl
  | cons arg args iha =>
    intro s hs hρ
    cases arg with
    | none => exact fun _ => ⟨[], List.nil_prefix, nofun, .nil⟩
    | some e =>
      unfold expressions Expr.argumentReferences
      rw [List.map_append]
      refine (ih e List.mem_cons_self hs hρ).bind (expression_spec e hs) fun s₁ v g₁ hv => ?_
      have hargs := iha (fun e he => ih e (List.mem_cons_of_mem _ he)) (g₁.ready hs)
        (g₁.overriden ▸ hρ)
      have hpure : ∀ s' (vs : List Value),
          Gives IRAction.Plain (pure (v :: vs) : Gen (List Value)) s' (fun _ _ => True)
            (fun _ => False) := fun s' vs => Gives.pure trivial
      rw [← List.append_nil (List.map _ _)]
      exact hargs.bind (expressions_spec (fun e _ => expression_spec e) (g₁.ready hs))
        fun s₂ vs _ _ => runFollows_of_plain (hpure s₂ vs)

/-- The references of a run of an expression are its occurrences. -/
theorem follows_expression (e : Expression) : ∀ {s : Codegen}, s.Ready →
    Scoped T Ls s.overridenVariables → RunFollows T (e.occurrences Ls) (expression B e) s := by
  have htail : ∀ {l : List Occurrence} {s : Codegen} {m : Gen Value},
      RunFollows T (l ++ []) m s → RunFollows T l m s := fun h => by rwa [List.append_nil] at h
  induction e using Expr.ind with
  | variableReference x =>
    intro s hs hρ
    unfold expression
    exact follows_variableReference hs hρ
  | getAttribute p a ih =>
    intro s hs hρ
    unfold expression
    refine htail ((ih hs hρ).bind (expression_spec p hs) fun s₁ u g₁ hu => ?_)
    rcases hu.usable with hv | hv
    · exact runFollows_of_plain (gives_plain (gives_getAttribute_error (g₁.ready hs) hv))
    · exact runFollows_of_plain
        (gives_plain (gives_getAttribute (R := fun _ => False) (g₁.ready hs) hv))
  | methodCall m args ih =>
    intro s hs hρ
    unfold expression
    refine htail ((follows_expressions (fun e he => ih e he) hs hρ).bind
      (expressions_spec (fun e _ => expression_spec e) hs) fun s₁ vs g₁ hvs => ?_)
    exact runFollows_of_plain
      (gives_plain (gives_methodCall (R := fun _ => False) (g₁.ready hs) hvs.2.1))
  | doubleLiteral v | integerLiteral v | booleanLiteral v =>
    exact fun _ _ => follows_of_references rfl
  | stringLiteral v =>
    exact fun _ _ => follows_of_references rfl
  | binaryOperation a b op iha ihb =>
    intro s hs hρ
    unfold expression
    rw [show (Expr.binaryOperation a b op).occurrences Ls = a.occurrences Ls ++ b.occurrences Ls
      from List.map_append]
    refine (iha hs hρ).bind (expression_spec a hs) fun s₁ left g₁ hl => htail ?_
    refine (ihb (g₁.ready hs) (g₁.overriden ▸ hρ)).bind (expression_spec b (g₁.ready hs))
      fun s₂ right g₂ hr => ?_
    exact runFollows_of_plain (gives_binaryOperation (R := fun _ => False)
      (g₂.ready (g₁.ready hs)) (hl.usable.mono g₂) hr.usable)
  | unaryOperation e op ih =>
    intro s hs hρ
    unfold expression
    refine htail ((ih hs hρ).bind (expression_spec e hs) fun s₁ u g₁ hu => ?_)
    exact runFollows_of_plain
      (gives_unaryOperation (R := fun _ => False) (g₁.ready hs) hu.usable)
  | comparison a b op iha ihb =>
    intro s hs hρ
    unfold expression
    rw [show (Expr.comparison a b op).occurrences Ls = a.occurrences Ls ++ b.occurrences Ls
      from List.map_append]
    refine (iha hs hρ).bind (expression_spec a hs) fun s₁ left g₁ hl => htail ?_
    refine (ihb (g₁.ready hs) (g₁.overriden ▸ hρ)).bind (expression_spec b (g₁.ready hs))
      fun s₂ right g₂ hr => ?_
    exact runFollows_of_plain (gives_comparison (R := fun _ => False)
      (g₂.ready (g₁.ready hs)) (hl.usable.mono g₂) hr.usable)

end

/-! ## The parts of a visit -/

theorem forBlocks_ifBlock {c : Expression} {t : AST} {e : Option AST} :
    (AST.ifBlock c t e).forBlocks = t.forBlocks + (AST.elseOf e).forBlocks := by
  cases e <;> rfl

theorem forBlocks_forBlock {k v : Option Text} {i : Expression} {b : AST} {e : Option AST} :
    (AST.forBlock k v i b e).forBlocks = b.forBlocks + (AST.elseOf e).forBlocks + 1 := by
  cases e <;> rfl

theorem occurrences_ifBlock {n : Nat} {Ls : List Loop} {c : Expression} {t : AST}
    {e : Option AST} :
    (AST.ifBlock c t e).occurrences n Ls = c.occurrences Ls ++ t.occurrences n Ls ++
      (AST.elseOf e).occurrences (n + t.forBlocks) Ls := by
  cases e with
  | none => exact (List.append_nil _).symm
  | some e => rfl

theorem occurrences_forBlock {n : Nat} {Ls : List Loop} {k v : Option Text} {i : Expression}
    {b : AST} {e : Option AST} :
    (AST.forBlock k v i b e).occurrences n Ls =
      i.occurrences Ls ++ b.occurrences (n + 1) (⟨n, k, v⟩ :: Ls) ++
        (AST.elseOf e).occurrences (n + 1 + b.forBlocks) Ls := by
  cases e with
  | none => exact (List.append_nil _).symm
  | some e => rfl

section

variable {s s' : Codegen} {l : List IRAction} {k v : Option Text} {it : Value} {f : LoopFrame}
  {n : Nat}

theorem references_entered (h : Entered s n k v it l s' f) :
    references l = [] ∧ loopNumbers l = [n] ∧
      IRAction.loopVariables n f.keyVariable f.valueVariable ∈ l := by
  obtain ⟨id, id', pos, kp, vp, l₁, l₂, l₃, -, hq, rfl⟩ := h.calls
  simp only [List.forall_mem_append] at hq
  simp only [references_append, loopNumbers_append, references_of_quiet hq.1.1,
    references_of_quiet hq.1.2, references_of_quiet hq.2, loopNumbers_of_quiet hq.1.1,
    loopNumbers_of_quiet hq.1.2, loopNumbers_of_quiet hq.2]
  exact ⟨rfl, rfl, by simp⟩

theorem references_left (h : Left s n k v it f l s') : references l = [] ∧ loopNumbers l = [] := by
  obtain ⟨id, c, l₁, hq, rfl⟩ := h.calls
  rw [references_append, loopNumbers_append, references_of_quiet hq, loopNumbers_of_quiet hq]
  exact ⟨rfl, rfl⟩

theorem references_finished (h : Finished s it f l s') :
    references l = [] ∧ loopNumbers l = [] := by
  obtain ⟨l₁, hq, rfl⟩ := h.calls
  rw [references_append, loopNumbers_append, references_of_quiet hq, loopNumbers_of_quiet hq]
  exact ⟨rfl, rfl⟩

theorem references_ifHead {c : Value} : references (ifHead c n) = [] := rfl

theorem references_ifNext {m : Nat} : references (ifNext m n) = [] := rfl

end

/-! ## Trees -/

/-- A run that returns numbers all for blocks of the tree. -/
theorem Visits.loops {B : IRBuilder} {a : AST} {s s' : Codegen} {l : List IRAction} {r : Bool}
    (h : Visits B a s l s' r) : s.Ready → r = true → s'.loops = s.loops + a.forBlocks := by
  induction h with
  | nil => exact fun _ _ => rfl
  | cons ha hs₁ has iha ihas =>
    intro hs hr
    rw [ihas hs₁ hr, iha hs rfl]
    show _ = _ + (_ + _)
    rw [Nat.add_assoc]
    rfl
  | rawBlock h =>
    intro hs _
    rw [(h.sat (gives_printText (R := fun _ => True) hs)).2.1.loops]
    rfl
  | printBlock he hs₁ hp =>
    intro hs _
    obtain ⟨-, g₁, hv⟩ := expression_returns hs he
    rw [(hp.sat (gives_printValue (R := fun _ => True) hs₁ hv.usable)).2.1.loops, g₁.loops]
    rfl
  | ifBlock hc hs₁ hv ht hs₂ he iht ihe =>
    intro hs _
    have g₁ := (expression_returns hs hc).2.1
    rw [ihe hs₂ rfl, iht (ready_withBlocks hs₁) rfl, forBlocks_ifBlock]
    show _ + _ = _
    rw [show (withBlocks _).loops = _ from g₁.loops]
    omega
  | forBlock hi hs₁ hf hs₂ hb hs₃ hl hs₄ he hs₅ hz ihb ihe =>
    intro hs _
    have g₁ := (expression_returns (ready_withLoop hs) hi).2.1
    have hloop := loopVisit hf (hb.frame hs₂).1 ((hb.frame hs₂).2 rfl) hs₃ hl
    have hF := (hz.sat (finishLoop_spec hs₅)).1
    have h₁ := g₁.loops
    rw [hF.loops, ihe hs₄ rfl, hloop.left.loops, ihb hs₂ rfl, hloop.entered.loops, h₁,
      forBlocks_forBlock]
    show _ + 1 + _ + _ = _
    omega
  | _ => exact fun _ hr => nomatch hr

section

variable {B : IRBuilder} {T : List IRAction}

/-- A for block up to the end of its body. -/
theorem follows_body {k v : Option Text} {i : Expression} {b : AST} {Ls : List Loop}
    {s s₁ s₂ : Codegen} {l₁ l₂ l₃ : List IRAction} {it : Value} {f : LoopFrame} {r : Bool}
    (hs : s.Ready) (hρ : Scoped T Ls s.overridenVariables)
    (hi : Returns (expression B i) (withLoop s) l₁ s₁ it)
    (hE : Entered s₁ s.loops k v it l₂ s₂ f)
    (hb : ∀ Ls, Scoped T Ls s₂.overridenVariables → Follows T (b.occurrences s₂.loops Ls) l₃ r) :
    Follows T (i.occurrences Ls ++ b.occurrences (s.loops + 1) (⟨s.loops, k, v⟩ :: Ls))
      (l₁ ++ l₂ ++ l₃) r := by
  intro hT
  have g₁ := (expression_returns (ready_withLoop hs) hi).2.1
  have hfi : Follows T (i.occurrences Ls) l₁ true :=
    hi.sat (follows_expression _ (ready_withLoop hs) hρ)
  obtain ⟨href, -, hmem⟩ := references_entered hE
  have hmem := hT _ (List.mem_append_left _ (List.mem_append_right _ hmem))
  have hρ₁ : Scoped T Ls s₁.overridenVariables := g₁.overriden.symm ▸ hρ
  have hfb := hb _ (hE.overriden.symm ▸ hρ₁.enter hE.isSome_key hE.isSome_value hmem)
  rw [hE.loops, show s₁.loops = s.loops + 1 from g₁.loops] at hfb
  exact ((hfi.skip href).append hfb) hT

/-- The references of a visit are the occurrences of the tree. -/
theorem Visits.follows {a : AST} {s s' : Codegen} {l : List IRAction} {r : Bool}
    (h : Visits B a s l s' r) : s.Ready → ∀ Ls, Scoped T Ls s.overridenVariables →
      Follows T (a.occurrences s.loops Ls) l r := by
  induction h with
  | nil => exact fun _ _ _ => follows_of_references rfl
  | cons ha hs₁ has iha ihas =>
    intro hs Ls hρ
    have hrest := ihas hs₁ Ls (((ha.frame hs).2 rfl).symm ▸ hρ)
    rw [ha.loops hs rfl] at hrest
    exact (iha hs Ls hρ).append hrest
  | consThrows ha iha => exact fun hs Ls hρ => (iha hs Ls hρ).before
  | rawBlock h =>
    intro hs Ls _
    have hq := (h.sat (gives_printText (R := fun _ => True) hs)).1
    exact follows_of_references (references_of_quiet hq)
  | printBlock he hs₁ hp =>
    intro hs Ls hρ
    have hv := (expression_returns hs he).2.2
    have hq := (hp.sat (gives_printValue (R := fun _ => True) hs₁ hv.usable)).1
    exact (he.sat (follows_expression _ hs hρ)).skip (references_of_quiet hq)
  | printThrows he =>
    intro hs Ls hρ
    obtain ⟨_, hfe⟩ := he.sat (follows_expression _ hs hρ)
    exact hfe
  | ifBlock hc hs₁ hv ht hs₂ he iht ihe =>
    intro hs Ls hρ
    have g₁ := (expression_returns hs hc).2.1
    have hρ₁ : Scoped T Ls (withBlocks _).overridenVariables := g₁.overriden.symm ▸ hρ
    have hft := iht (ready_withBlocks hs₁) Ls hρ₁
    have hfe := ihe hs₂ Ls (((ht.frame (ready_withBlocks hs₁)).2 rfl).symm ▸ hρ₁)
    rw [ht.loops (ready_withBlocks hs₁) rfl] at hfe
    rw [show (withBlocks _).loops = _ from g₁.loops] at hft hfe
    rw [occurrences_ifBlock]
    exact (((((hc.sat (follows_expression _ hs hρ)).skip references_ifHead).append hft).skip
      references_ifNext).append hfe).skip references_ifNext
  | ifCondition hc =>
    intro hs Ls hρ
    obtain ⟨_, hfc⟩ := hc.sat (follows_expression _ hs hρ)
    rw [occurrences_ifBlock, List.append_assoc]
    exact hfc.before
  | ifType hc hv =>
    intro hs Ls hρ
    rw [occurrences_ifBlock, List.append_assoc]
    exact (hc.sat (follows_expression _ hs hρ)).throws.before
  | ifThen hc hs₁ hv ht iht =>
    intro hs Ls hρ
    have g₁ := (expression_returns hs hc).2.1
    have hρ₁ : Scoped T Ls (withBlocks _).overridenVariables := g₁.overriden.symm ▸ hρ
    have hft := iht (ready_withBlocks hs₁) Ls hρ₁
    rw [show (withBlocks _).loops = _ from g₁.loops] at hft
    rw [occurrences_ifBlock]
    exact (((hc.sat (follows_expression _ hs hρ)).skip references_ifHead).append hft).before
  | ifElse hc hs₁ hv ht hs₂ he iht ihe =>
    intro hs Ls hρ
    have g₁ := (expression_returns hs hc).2.1
    have hρ₁ : Scoped T Ls (withBlocks _).overridenVariables := g₁.overriden.symm ▸ hρ
    have hft := iht (ready_withBlocks hs₁) Ls hρ₁
    have hfe := ihe hs₂ Ls (((ht.frame (ready_withBlocks hs₁)).2 rfl).symm ▸ hρ₁)
    rw [ht.loops (ready_withBlocks hs₁) rfl] at hfe
    rw [show (withBlocks _).loops = _ from g₁.loops] at hft hfe
    rw [occurrences_ifBlock]
    exact ((((hc.sat (follows_expression _ hs hρ)).skip references_ifHead).append hft).skip
      references_ifNext).append hfe
  | forBlock hi hs₁ hf hs₂ hb hs₃ hl hs₄ he hs₅ hz ihb ihe =>
    intro hs Ls hρ
    have g₁ := (expression_returns (ready_withLoop hs) hi).2.1
    have hloop := loopVisit hf (hb.frame hs₂).1 ((hb.frame hs₂).2 rfl) hs₃ hl
    have hF := (hz.sat (finishLoop_spec hs₅)).1
    have hfb := follows_body hs hρ hi hloop.entered (ihb hs₂)
    have hfe := ihe hs₄ Ls (hloop.overriden.symm ▸ g₁.overriden.symm ▸ hρ)
    rw [hloop.left.loops, hb.loops hs₂ rfl, hloop.entered.loops, g₁.loops] at hfe
    rw [occurrences_forBlock]
    exact ((hfb.skip (references_left hloop.left).1).append hfe).skip (references_finished hF).1
  | forIterable hi =>
    intro hs Ls hρ
    obtain ⟨_, hfi⟩ := hi.sat (follows_expression _ (ready_withLoop hs) hρ)
    rw [occurrences_forBlock, List.append_assoc]
    exact hfi.before
  | forBody hi hs₁ hf hs₂ hb ihb =>
    intro hs Ls hρ
    have hE := hf.sat (enterLoop_spec (E := fun _ _ _ => True))
    rw [occurrences_forBlock]
    exact (follows_body hs hρ hi hE (ihb hs₂)).before
  | forElse hi hs₁ hf hs₂ hb hs₃ hl hs₄ he ihb ihe =>
    intro hs Ls hρ
    have g₁ := (expression_returns (ready_withLoop hs) hi).2.1
    have hloop := loopVisit hf (hb.frame hs₂).1 ((hb.frame hs₂).2 rfl) hs₃ hl
    have hfb := follows_body hs hρ hi hloop.entered (ihb hs₂)
    have hfe := ihe hs₄ Ls (hloop.overriden.symm ▸ g₁.overriden.symm ▸ hρ)
    rw [hloop.left.loops, hb.loops hs₂ rfl, hloop.entered.loops, g₁.loops] at hfe
    rw [occurrences_forBlock]
    exact (hfb.skip (references_left hloop.left).1).append hfe
  | forFinish hi hs₁ hf hs₂ hb hs₃ hl hs₄ he hs₅ hz ihb ihe =>
    intro hs Ls hρ
    have g₁ := (expression_returns (ready_withLoop hs) hi).2.1
    have hloop := loopVisit hf (hb.frame hs₂).1 ((hb.frame hs₂).2 rfl) hs₃ hl
    obtain ⟨_, hF, -⟩ := hz.sat (finishLoop_spec hs₅)
    have hfb := follows_body hs hρ hi hloop.entered (ihb hs₂)
    have hfe := ihe hs₄ Ls (hloop.overriden.symm ▸ g₁.overriden.symm ▸ hρ)
    rw [hloop.left.loops, hb.loops hs₂ rfl, hloop.entered.loops, g₁.loops] at hfe
    rw [occurrences_forBlock]
    exact (((hfb.skip (references_left hloop.left).1).append hfe).skip
      (references_finished hF).1).throws
  | includeBlock => exact fun _ _ _ => (follows_of_references rfl).throws

/-- The for blocks of a log have the numbers from `m` up to `n`, each at most once. -/
def NumbersWithin (m n : Nat) (l : List IRAction) : Prop :=
  (loopNumbers l).Nodup ∧ ∀ i ∈ loopNumbers l, m ≤ i ∧ i < n

theorem numbersWithin_of_eq_nil {m n : Nat} {l : List IRAction} (h : loopNumbers l = []) :
    NumbersWithin m n l := by
  unfold NumbersWithin
  rw [h]
  exact ⟨List.nodup_nil, nofun⟩

theorem NumbersWithin.append {m n n' : Nat} {l l' : List IRAction} (h : NumbersWithin m n l)
    (h' : NumbersWithin n n' l') (hm : m ≤ n) (hn : n ≤ n') : NumbersWithin m n' (l ++ l') := by
  unfold NumbersWithin
  rw [loopNumbers_append]
  refine ⟨List.nodup_append.2 ⟨h.1, h'.1, ?_⟩, fun i hi => ?_⟩
  · rintro i hi _ hi' rfl
    have := (h.2 i hi).2
    have := (h'.2 i hi').1
    omega
  · rcases List.mem_append.1 hi with hi | hi
    · have := h.2 i hi
      omega
    · have := h'.2 i hi
      omega

theorem NumbersWithin.skip {m n : Nat} {l l' : List IRAction} (h : NumbersWithin m n l)
    (h' : loopNumbers l' = []) : NumbersWithin m n (l ++ l') := by
  unfold NumbersWithin
  rwa [loopNumbers_append, h', List.append_nil]

theorem loopNumbers_returns {e : Expression} {s s' : Codegen} {l : List IRAction} {v : Value}
    (hs : s.Ready) (h : Returns (expression B e) s l s' v) : loopNumbers l = [] :=
  loopNumbers_of_outsideLoops (expression_returns hs h).1

theorem loopNumbers_throws {e : Expression} {s s' : Codegen} {l : List IRAction}
    (hs : s.Ready) (h : Throws (expression B e) s l s') : loopNumbers l = [] :=
  loopNumbers_of_outsideLoops (expression_throws hs h).1

/-- A for block up to the end of its body has its own number and those of its body. -/
theorem numbersWithin_body {k v : Option Text} {i : Expression} {s s₁ s₂ s₃ : Codegen}
    {l₁ l₂ l₃ : List IRAction} {it : Value} {f : LoopFrame} (hs : s.Ready)
    (hi : Returns (expression B i) (withLoop s) l₁ s₁ it)
    (hE : Entered s₁ s.loops k v it l₂ s₂ f) (hb : NumbersWithin s₂.loops s₃.loops l₃)
    (hle : s₂.loops ≤ s₃.loops) : NumbersWithin s.loops s₃.loops (l₁ ++ l₂ ++ l₃) := by
  have hnext : s₂.loops = s.loops + 1 :=
    hE.loops.trans (expression_returns (ready_withLoop hs) hi).2.1.loops
  rw [hnext] at hb hle
  have hown : NumbersWithin s.loops (s.loops + 1) (l₁ ++ l₂) := by
    unfold NumbersWithin
    rw [loopNumbers_append, loopNumbers_returns (ready_withLoop hs) hi,
      (references_entered hE).2.1]
    refine ⟨List.nodup_singleton _, fun i hi => ?_⟩
    obtain rfl := List.mem_singleton.1 hi
    omega
  exact hown.append hb (Nat.le_succ _) hle

theorem Visits.within {k v : Option Text} {i : Expression} {b : AST} {s s₁ s₂ s₃ : Codegen}
    {l₁ l₂ l₃ : List IRAction} {it : Value} {f : LoopFrame} {r : Bool}
    (h : Visits B b s₂ l₃ s₃ r) (hs : s.Ready)
    (hi : Returns (expression B i) (withLoop s) l₁ s₁ it)
    (hE : Entered s₁ s.loops k v it l₂ s₂ f) (hs₂ : s₂.Ready) : s.loops ≤ s₃.loops := by
  have hnext : s₂.loops = s.loops + 1 :=
    hE.loops.trans (expression_returns (ready_withLoop hs) hi).2.1.loops
  have hle := (h.frame hs₂).1.loops
  omega

/-- An if block up to the end of its then body. -/
theorem numbersWithin_then {c : Expression} {s s₁ s₂ : Codegen} {l₁ l₂ : List IRAction}
    {v : Value} (hs : s.Ready) (hc : Returns (expression B c) s l₁ s₁ v)
    (ht : NumbersWithin (withBlocks s₁).loops s₂.loops l₂) :
    NumbersWithin s.loops s₂.loops (l₁ ++ ifHead v s₁.next ++ l₂) := by
  have hloops : (withBlocks s₁).loops = s.loops := (expression_returns hs hc).2.1.loops
  rw [hloops] at ht
  unfold NumbersWithin at ht ⊢
  rw [loopNumbers_append, loopNumbers_append, loopNumbers_returns hs hc]
  exact ht

/-- No two for blocks of a visit have the same number. -/
theorem Visits.numbersWithin {a : AST} {s s' : Codegen} {l : List IRAction} {r : Bool}
    (h : Visits B a s l s' r) : s.Ready → NumbersWithin s.loops s'.loops l := by
  induction h with
  | nil | includeBlock => exact fun _ => numbersWithin_of_eq_nil rfl
  | cons ha hs₁ has iha ihas =>
    exact fun hs => (iha hs).append (ihas hs₁) (ha.frame hs).1.loops (has.frame hs₁).1.loops
  | consThrows ha iha => exact iha
  | rawBlock h =>
    intro hs
    have hq := (h.sat (gives_printText (R := fun _ => True) hs)).1
    exact numbersWithin_of_eq_nil (loopNumbers_of_quiet hq)
  | printBlock he hs₁ hp =>
    intro hs
    have hv := (expression_returns hs he).2.2
    have hq := (hp.sat (gives_printValue (R := fun _ => True) hs₁ hv.usable)).1
    exact (numbersWithin_of_eq_nil (loopNumbers_returns hs he)).skip (loopNumbers_of_quiet hq)
  | printThrows he => exact fun hs => numbersWithin_of_eq_nil (loopNumbers_throws hs he)
  | ifBlock hc hs₁ hv ht hs₂ he iht ihe =>
    intro hs
    have hle : _ ≤ _ := (expression_returns hs hc).2.1.loops.ge.trans
      (ht.frame (ready_withBlocks hs₁)).1.loops
    exact (((numbersWithin_then hs hc (iht (ready_withBlocks hs₁))).skip rfl).append (ihe hs₂) hle
      (he.frame hs₂).1.loops).skip rfl
  | ifCondition hc => exact fun hs => numbersWithin_of_eq_nil (loopNumbers_throws hs hc)
  | ifType hc hv => exact fun hs => numbersWithin_of_eq_nil (loopNumbers_returns hs hc)
  | ifThen hc hs₁ hv ht iht =>
    exact fun hs => numbersWithin_then hs hc (iht (ready_withBlocks hs₁))
  | ifElse hc hs₁ hv ht hs₂ he iht ihe =>
    intro hs
    have hle : _ ≤ _ := (expression_returns hs hc).2.1.loops.ge.trans
      (ht.frame (ready_withBlocks hs₁)).1.loops
    exact ((numbersWithin_then hs hc (iht (ready_withBlocks hs₁))).skip rfl).append (ihe hs₂) hle
      (he.frame hs₂).1.loops
  | forIterable hi =>
    exact fun hs => numbersWithin_of_eq_nil (loopNumbers_throws (ready_withLoop hs) hi)
  | forBody hi hs₁ hf hs₂ hb ihb =>
    intro hs
    have hE := hf.sat (enterLoop_spec (E := fun _ _ _ => True))
    exact numbersWithin_body hs hi hE (ihb hs₂) (hb.frame hs₂).1.loops
  | forElse hi hs₁ hf hs₂ hb hs₃ hl hs₄ he ihb ihe =>
    intro hs
    have hloop := loopVisit hf (hb.frame hs₂).1 ((hb.frame hs₂).2 rfl) hs₃ hl
    have hn := numbersWithin_body hs hi hloop.entered (ihb hs₂) (hb.frame hs₂).1.loops
    have hE := hb.within hs hi hloop.entered hs₂
    rw [← hloop.left.loops] at hn hE
    exact (hn.skip (references_left hloop.left).2).append (ihe hs₄) hE (he.frame hs₄).1.loops
  | forBlock hi hs₁ hf hs₂ hb hs₃ hl hs₄ he hs₅ hz ihb ihe =>
    intro hs
    have hloop := loopVisit hf (hb.frame hs₂).1 ((hb.frame hs₂).2 rfl) hs₃ hl
    have hF := (hz.sat (finishLoop_spec hs₅)).1
    have hn := numbersWithin_body hs hi hloop.entered (ihb hs₂) (hb.frame hs₂).1.loops
    have hE := hb.within hs hi hloop.entered hs₂
    rw [← hloop.left.loops] at hn hE
    rw [hF.loops]
    exact ((hn.skip (references_left hloop.left).2).append (ihe hs₄) hE
      (he.frame hs₄).1.loops).skip (references_finished hF).2
  | forFinish hi hs₁ hf hs₂ hb hs₃ hl hs₄ he hs₅ hz ihb ihe =>
    intro hs
    have hloop := loopVisit hf (hb.frame hs₂).1 ((hb.frame hs₂).2 rfl) hs₃ hl
    obtain ⟨_, hF, -⟩ := hz.sat (finishLoop_spec hs₅)
    have hn := numbersWithin_body hs hi hloop.entered (ihb hs₂) (hb.frame hs₂).1.loops
    have hE := hb.within hs hi hloop.entered hs₂
    rw [← hloop.left.loops] at hn hE
    rw [hF.loops]
    exact ((hn.skip (references_left hloop.left).2).append (ihe hs₄) hE
      (he.frame hs₄).1.loops).skip (references_finished hF).2

/-- The references of a function that a clean visitor makes. -/
theorem visit_references (a : AST) {s : Codegen} (hs : s.Clean) :
    (loopNumbers (visit B a s).log).Nodup ∧ ∃ os, os <+: a.occurrences 0 [] ∧
      ((visit B a s).result = .ok () → os = a.occurrences 0 []) ∧
      List.Forall₂ (Occurrence.Uses (visit B a s).log) os (references (visit B a s).log) := by
  obtain ⟨l, s', r, h, hok, herr⟩ := visit_run B a hs
  have hn := (h.numbersWithin Codegen.ready_start).1
  have hscoped : ∀ T, Scoped T [] Codegen.start.overridenVariables := fun T =>
    scoped_nil fun _ => rfl
  obtain ⟨l', hlog, href, hnum, hsub, hr⟩ : ∃ l', (visit B a s).log = l' ∧
      references l' = references l ∧ loopNumbers l' = loopNumbers l ∧ (∀ x ∈ l, x ∈ l') ∧
      ((visit B a s).result = .ok () → r = true) := by
    cases r with
    | true =>
      refine ⟨entryLog ++ l ++ [.retVoid], by rw [hok rfl], ?_, ?_, by simp +contextual, fun _ => rfl⟩
      · rw [references_append, references_append]
        exact List.append_nil _
      · rw [loopNumbers_append, loopNumbers_append]
        exact List.append_nil _
    | false =>
      obtain ⟨err, hrun⟩ := herr rfl
      refine ⟨entryLog ++ l, by rw [hrun], ?_, ?_, by simp +contextual, fun h => ?_⟩
      · exact references_append _ _
      · exact loopNumbers_append _ _
      · rw [hrun] at h
        cases h
  obtain ⟨os, hos, hall, huses⟩ := h.follows Codegen.ready_start [] (hscoped l') hsub
  rw [hlog, hnum, href]
  exact ⟨hn, os, hos, fun h => hall (hr h), huses⟩

/-- Both visitors give an occurrence of a variable the key or the value of the same for block, or
look it up: the JavaScript visitor in what it writes, the LLVM visitor in the values it returns,
up to where it throws. Both leave their maps as they were before a for block. -/
theorem scopes_alike (B : IRBuilder) (undefinedCheck : Bool) {a : AST} (ha : a.IncludeFree) :
    (∃ lines, JavascriptVisitor.visit undefinedCheck a = .ok lines ∧
      JavascriptVisitor.functionReferences lines = (a.occurrences 0 []).map Occurrence.jsVar) ∧
    (∀ s : Codegen, s.Clean → (loopNumbers (visit B a s).log).Nodup ∧
      ∃ os, os <+: a.occurrences 0 [] ∧
        ((visit B a s).result = .ok () → os = a.occurrences 0 []) ∧
        List.Forall₂ (Occurrence.Uses (visit B a s).log) os (references (visit B a s).log)) ∧
    ∀ k v i b e, (AST.forBlock k v i b e).IncludeFree →
      (∀ n Ls, ∃ lines n', JavascriptVisitor.node undefinedCheck false
        ⟨n, JavascriptVisitor.shadowOf Ls⟩ (.forBlock k v i b e) =
          .ok (lines, ⟨n', JavascriptVisitor.shadowOf Ls⟩)) ∧
      ∀ s l s', s.Ready → Returns (ast B (.forBlock k v i b e)) s l s' () →
        s'.overridenVariables = s.overridenVariables := by
  refine ⟨JavascriptVisitor.visit_occurrences ha, fun s hs => visit_references a hs, ?_⟩
  intro k v i b e hfor
  constructor
  · intro n Ls
    obtain ⟨lines, h, -⟩ := JavascriptVisitor.writesOccurrences undefinedCheck _ hfor false n Ls
    exact ⟨lines, _, h⟩
  · intro s l s' hs h
    have hv : Visits B (.forBlock k v i b e) s l s' true := h.sat (ast_visits _ hs)
    exact (hv.frame hs).2 rfl

/-- `{% for k, x in x %}{% for x in x %}{{ x }}{{ k }}{% endfor %}{% else %}{{ x }}{% endfor %}` -/
def nestedLoops : AST :=
  .forBlock (some ['k']) (some ['x']) (.variableReference ['x'])
    (.forBlock none (some ['x']) (.variableReference ['x'])
      (.statements [.printBlock (.variableReference ['x']), .printBlock (.variableReference ['k'])])
      none)
    (some (.printBlock (.variableReference ['x'])))

theorem scopes_alike_nestedLoops :
    (∃ lines, JavascriptVisitor.visit false nestedLoops = .ok lines ∧
      JavascriptVisitor.functionReferences lines =
        [.data ['x'], .identifier "value_1".toList, .identifier "value_2".toList,
          .identifier "key_1".toList, .data ['x']]) ∧
    ((visit .noFolding nestedLoops .start).result = .ok () ∧
      (loopNumbers (visit .noFolding nestedLoops .start).log).Nodup ∧
      List.Forall₂ (Occurrence.Uses (visit .noFolding nestedLoops .start).log)
        (nestedLoops.occurrences 0 []) (references (visit .noFolding nestedLoops .start).log)) ∧
    (∃ lines n', JavascriptVisitor.node false false ⟨0, JavascriptVisitor.shadowOf []⟩ nestedLoops =
      .ok (lines, ⟨n', JavascriptVisitor.shadowOf []⟩)) ∧
    ∃ l s', Returns (ast .noFolding nestedLoops) .start l s' () ∧
      s'.overridenVariables = Codegen.start.overridenVariables := by
  have hfree : nestedLoops.IncludeFree := by simp [nestedLoops, AST.IncludeFree, AST.IncludeFreeList]
  obtain ⟨⟨lines, h, href⟩, hllvm, hrestores⟩ := scopes_alike .noFolding false hfree
  obtain ⟨hnodup, os, -, hall, huses⟩ := hllvm .start Codegen.clean_start
  obtain ⟨hjs, hast⟩ := hrestores _ _ _ _ _ hfree
  have hok : (visit .noFolding nestedLoops .start).result = .ok () := rfl
  rw [hall hok] at huses
  exact ⟨⟨lines, h, href.trans rfl⟩, ⟨hok, hnodup, huses⟩, hjs 0 [],
    _, _, rfl, hast _ _ _ Codegen.ready_start rfl⟩

end

end LLVMVisitor

end B2
