import B2.Cfg.Code

/-!
# Paths

The instructions that are executed from a point of a graph up to a return,
whichever way the branches go (`Path`). Every run takes such a path
(`Reaches.path`). The paths of structured code are read off the code
(`Code.Trace`): those that end in the block in which the code goes on, and not
in one that a check returns from, are its traces (`Code.completes_function_iff`).
-/

namespace Cfg

variable {L I C M : Type}

/-- From the rest `is` of the block `l` a path of `n` steps executes `xs` and returns in the block
`e`. -/
inductive Path (G : Graph L I C) : ℕ → L → List (Instr L I C) → List I → L → Prop
  | ret {l is} : Path G 0 l (.ret :: is) [] l
  | op {n l x is xs e} (h : Path G n l is xs e) : Path G (n + 1) l (.op x :: is) (x :: xs) e
  | br {n l t is xs e} (h : Path G n t (G.code t) xs e) : Path G (n + 1) l (.br t :: is) xs e
  | ifTrue {n l c t f is xs e} (h : Path G n t (G.code t) xs e) :
      Path G (n + 1) l (.condBr c t f :: is) xs e
  | ifFalse {n l c t f is xs e} (h : Path G n f (G.code f) xs e) :
      Path G (n + 1) l (.condBr c t f :: is) xs e

/-- A run to a return takes a path, whose instructions it executes. -/
theorem Reaches.path {G : Graph L I C} {σ : Machine I C M} {c : Config L I C M} {e : L}
    {is : List (Instr L I C)} {m : M} (h : Reaches G σ c ⟨e, .ret :: is, m⟩) :
    ∃ n xs, Path G n c.block c.rest xs e ∧ m = xs.foldl (fun m x => σ.exec x m) c.state := by
  induction h using Relation.ReflTransGen.head_induction_on with
  | refl => exact ⟨0, [], .ret, rfl⟩
  | @head c c' hs _ ih =>
    obtain ⟨n, xs, hp, hm⟩ := ih
    obtain ⟨b, is, s⟩ := c
    cases is with
    | nil => cases hs
    | cons i is =>
      cases i with
      | op x =>
        cases hs
        exact ⟨n + 1, x :: xs, .op hp, hm⟩
      | condBr cond t f =>
        cases hb : σ.branch cond s with
        | true =>
          simp only [Graph.step, hb, if_true, Option.some.injEq] at hs
          subst hs
          exact ⟨n + 1, xs, .ifTrue hp, hm⟩
        | false =>
          simp only [Graph.step, hb, Bool.false_eq_true, if_false, Option.some.injEq] at hs
          subst hs
          exact ⟨n + 1, xs, .ifFalse hp, hm⟩
      | br t =>
        cases hs
        exact ⟨n + 1, xs, .br hp, hm⟩
      | ret => cases hs

namespace Graph

/-- What is left of the block `l` after the insertion point of `g`. -/
def rest (G g : Graph L I C) (l : L) : List (Instr L I C) := (G.code l).drop (g.code l).length

variable {G g : Graph L I C} {l : L}

theorem rest_of_code_eq_nil (h : g.code l = []) : G.rest g l = G.code l := by
  unfold rest
  rw [h]
  rfl

theorem rest_emit [DecidableEq L] {i : Instr L I C} (hl : g.current = some l)
    (h : (g.add (.emit i)).Le G) : G.rest g l = i :: G.rest (g.add (.emit i)) l :=
  congrArg Config.rest (point_emit (m := ()) hl h)

/-- A path that comes to the return instruction that was emitted last. -/
def Completes (G : Graph L I C) (entry : L) (xs : List I) : Prop :=
  ∃ n e, G.current = some e ∧ Path G n entry (G.code entry) xs e

end Graph

/-! ## Traces -/

/-- One `R` after another, at least one. -/
inductive Turns (R : List I → Prop) : List I → Prop
  | one {xs} (h : R xs) : Turns R xs
  | more {xs ys} (h : R xs) (h' : Turns R ys) : Turns R (xs ++ ys)

namespace Code

/-- The instructions that the code executes if it goes on, whichever way its branches go. -/
def Trace : Code L I C → List I → Prop
  | skip, xs => xs = []
  | op i, xs => xs = [i]
  | seq c d, xs => ∃ ys zs, c.Trace ys ∧ d.Trace zs ∧ xs = ys ++ zs
  | check _ _ _, xs => xs = []
  | ite _ _ _ _ t e, xs => t.Trace xs ∨ e.Trace xs
  | loop _ _ _ init _ b _ e, xs =>
    ∃ ys zs, init.Trace ys ∧ (Turns b.Trace zs ∨ e.Trace zs) ∧ xs = ys ++ zs

/-- The instructions of the code. -/
def ops : Code L I C → List I
  | skip | check _ _ _ => []
  | op i => [i]
  | seq c d => c.ops ++ d.ops
  | ite _ _ _ _ t e => t.ops ++ e.ops
  | loop _ _ _ init _ b _ e => init.ops ++ (b.ops ++ e.ops)

theorem mem_ops_iff {c : Code L I C} {x : I} : x ∈ c.ops ↔ .emit (.op x) ∈ c.items := by
  induction c with
  | skip | check _ _ _ => simp [ops, items]
  | op i => simp [ops, items]
  | seq c d ihc ihd => simp [ops, items, ihc, ihd]
  | ite cond t e m ct ce iht ihe => simp [ops, items, iht, ihe]
  | loop body els after init cond b again e ihi ihb ihe => simp [ops, items, ihi, ihb, ihe]

theorem exists_trace (c : Code L I C) : ∃ xs, c.Trace xs := by
  induction c with
  | skip | check _ _ _ => exact ⟨_, rfl⟩
  | op i => exact ⟨_, rfl⟩
  | seq c d ihc ihd =>
    obtain ⟨ys, hys⟩ := ihc
    obtain ⟨zs, hzs⟩ := ihd
    exact ⟨_, ys, zs, hys, hzs, rfl⟩
  | ite cond t e m ct ce iht _ =>
    obtain ⟨xs, hxs⟩ := iht
    exact ⟨xs, .inl hxs⟩
  | loop body els after init cond b again e ihi _ ihe =>
    obtain ⟨ys, hys⟩ := ihi
    obtain ⟨zs, hzs⟩ := ihe
    exact ⟨_, ys, zs, hys, .inr hzs, rfl⟩

/-- Every instruction is on a trace. -/
theorem exists_trace_of_mem (c : Code L I C) {x : I} (h : x ∈ c.ops) :
    ∃ xs, c.Trace xs ∧ x ∈ xs := by
  induction c with
  | skip | check _ _ _ => cases h
  | op i => exact ⟨[i], rfl, h⟩
  | seq c d ihc ihd =>
    rcases List.mem_append.1 h with h | h
    · obtain ⟨ys, hys, hx⟩ := ihc h
      obtain ⟨zs, hzs⟩ := d.exists_trace
      exact ⟨_, ⟨ys, zs, hys, hzs, rfl⟩, List.mem_append_left _ hx⟩
    · obtain ⟨ys, hys⟩ := c.exists_trace
      obtain ⟨zs, hzs, hx⟩ := ihd h
      exact ⟨_, ⟨ys, zs, hys, hzs, rfl⟩, List.mem_append_right _ hx⟩
  | ite cond t e m ct ce iht ihe =>
    rcases List.mem_append.1 h with h | h
    · obtain ⟨xs, hxs, hx⟩ := iht h
      exact ⟨xs, .inl hxs, hx⟩
    · obtain ⟨xs, hxs, hx⟩ := ihe h
      exact ⟨xs, .inr hxs, hx⟩
  | loop body els after init cond b again e ihi ihb ihe =>
    rcases List.mem_append.1 h with h | h
    · obtain ⟨ys, hys, hx⟩ := ihi h
      obtain ⟨zs, hzs⟩ := e.exists_trace
      exact ⟨_, ⟨ys, zs, hys, .inr hzs, rfl⟩, List.mem_append_left _ hx⟩
    · obtain ⟨ys, hys⟩ := init.exists_trace
      rcases List.mem_append.1 h with h | h
      · obtain ⟨zs, hzs, hx⟩ := ihb h
        exact ⟨_, ⟨ys, zs, hys, .inl (.one hzs), rfl⟩, List.mem_append_right _ hx⟩
      · obtain ⟨zs, hzs, hx⟩ := ihe h
        exact ⟨_, ⟨ys, zs, hys, .inr hzs, rfl⟩, List.mem_append_right _ hx⟩

theorem subset_of_turns {R : List I → Prop} {l xs : List I} (hR : ∀ xs, R xs → xs ⊆ l)
    (h : Turns R xs) : xs ⊆ l := by
  induction h with
  | one h => exact hR _ h
  | more h _ ih => exact List.append_subset.2 ⟨hR _ h, ih⟩

theorem Trace.subset {c : Code L I C} {xs : List I} (h : c.Trace xs) : xs ⊆ c.ops := by
  induction c generalizing xs with
  | skip | check _ _ _ | op i =>
    cases h
    exact List.Subset.refl _
  | seq c d ihc ihd =>
    obtain ⟨ys, zs, hys, hzs, rfl⟩ := h
    exact List.append_subset.2 ⟨List.subset_append_of_subset_left _ (ihc hys),
      List.subset_append_of_subset_right _ (ihd hzs)⟩
  | ite cond t e m ct ce iht ihe =>
    rcases h with h | h
    · exact List.subset_append_of_subset_left _ (iht h)
    · exact List.subset_append_of_subset_right _ (ihe h)
  | loop body els after init cond b again e ihi ihb ihe =>
    obtain ⟨ys, zs, hys, hzs, rfl⟩ := h
    have hzs : zs ⊆ b.ops ++ e.ops := by
      rcases hzs with hzs | hzs
      · exact List.subset_append_of_subset_left _ (subset_of_turns (fun _ => ihb) hzs)
      · exact List.subset_append_of_subset_right _ (ihe hzs)
    exact List.append_subset.2 ⟨List.subset_append_of_subset_left _ (ihi hys),
      List.subset_append_of_subset_right _ hzs⟩

/-! ## Where the code returns -/

/-- The blocks that return. -/
def fails : Code L I C → List L
  | skip | op _ => []
  | seq c d => c.fails ++ d.fails
  | check _ _ fail => [fail]
  | ite _ _ _ _ t e => t.fails ++ e.fails
  | loop _ _ _ init _ b _ e => init.fails ++ b.fails ++ e.fails

theorem fails_subset (c : Code L I C) : c.fails ⊆ c.labels := by
  induction c with
  | skip | op i => exact List.Subset.refl _
  | seq c d ihc ihd =>
    unfold fails labels
    grind
  | check cond success fail => simp [fails, labels]
  | ite cond t e m ct ce iht ihe =>
    unfold fails labels
    grind
  | loop body els after init cond b again e ihi ihb ihe =>
    unfold fails labels
    grind

/-- The block in which the code goes on is none that returns. -/
theorem last_not_mem_fails (c : Code L I C) {l : L} (h : (l :: c.labels).Nodup) :
    c.last l ∉ c.fails := by
  induction c generalizing l with
  | skip | op i => exact List.not_mem_nil
  | seq c d ihc ihd =>
    unfold labels at h
    have hc : (l :: c.labels).Nodup := by grind
    have hd : (c.last l :: d.labels).Nodup := by
      have := c.last_mem l
      grind
    have h₁ := ihc hc
    have h₂ := ihd hd
    have h₃ := c.fails_subset
    have h₄ := d.fails_subset
    have h₅ := d.last_mem (c.last l)
    unfold last fails
    grind
  | check cond success fail =>
    simp [labels, last, fails] at h ⊢
    tauto
  | ite cond t e m ct ce _ _ =>
    have h₁ := ct.fails_subset
    have h₂ := ce.fails_subset
    unfold labels at h
    unfold last fails
    grind
  | loop body els after init cond b again e _ _ _ =>
    have h₁ := init.fails_subset
    have h₂ := b.fails_subset
    have h₃ := e.fails_subset
    unfold labels at h
    unfold last fails
    grind

/-! ## Paths through code -/

variable [DecidableEq L] {G g g' : Graph L I C} {l e : L} {n : ℕ} {xs : List I}

/-- The paths that begin at the insertion point of `g` in the block `l`. -/
def PathFrom (G g : Graph L I C) (l : L) (n : ℕ) (xs : List I) (e : L) : Prop :=
  Path G n l (G.rest g l) xs e

omit [DecidableEq L] in
theorem pathFrom_of_code_eq_nil (h : g.code l = []) :
    PathFrom G g l n xs e ↔ Path G n l (G.code l) xs e := by
  rw [PathFrom, Graph.rest_of_code_eq_nil h]

theorem pathFrom_condBr {cond : C} {t f : L} (hl : g.current = some l)
    (hle : (g.add (.emit (.condBr cond t f))).Le G) :
    PathFrom G g l n xs e ↔
      ∃ k, n = k + 1 ∧ (Path G k t (G.code t) xs e ∨ Path G k f (G.code f) xs e) := by
  rw [PathFrom, Graph.rest_emit hl hle]
  constructor
  · intro h
    cases h with
    | ifTrue h => exact ⟨_, rfl, .inl h⟩
    | ifFalse h => exact ⟨_, rfl, .inr h⟩
  · rintro ⟨k, rfl, h | h⟩
    · exact .ifTrue h
    · exact .ifFalse h

theorem pathFrom_br {t : L} (hl : g.current = some l) (hle : (g.add (.emit (.br t))).Le G) :
    PathFrom G g l n xs e ↔ ∃ k, n = k + 1 ∧ Path G k t (G.code t) xs e := by
  rw [PathFrom, Graph.rest_emit hl hle]
  constructor
  · intro h
    cases h with
    | br h => exact ⟨_, rfl, h⟩
  · rintro ⟨k, rfl, h⟩
    exact .br h

/-- A path that comes to the end of the code executes a trace of it and goes on from there. -/
def Passes (G : Graph L I C) (c : Code L I C) (g : Graph L I C) (l : L) (n : ℕ) (xs : List I)
    (e : L) : Prop :=
  ∃ ys zs k, k ≤ n ∧ c.Trace ys ∧ xs = ys ++ zs ∧ PathFrom G (g.addAll c.items) (c.last l) k zs e

/-- What is to be shown of a piece of code: a path from the point before it returns in it or comes
to its end. -/
abbrev AllPass (G : Graph L I C) (c : Code L I C) : Prop :=
  ∀ {g : Graph L I C} {l e : L} {n : ℕ} {xs : List I}, c.Placed g l → (g.addAll c.items).Le G →
    PathFrom G g l n xs e → e ∈ c.fails ∨ Passes G c g l n xs e

theorem passes_op (i : I) : AllPass G (op i : Code L I C) := by
  intro g l e n xs h hle hp
  rw [PathFrom, Graph.rest_emit h.current hle] at hp
  cases hp with
  | op hp => exact .inr ⟨[i], _, _, Nat.le_succ _, rfl, rfl, hp⟩

theorem passes_seq {c d : Code L I C} (hc : AllPass G c) (hd : AllPass G d) :
    AllPass G (seq c d) := by
  intro g l e n xs h hle hp
  obtain ⟨hpc, hpd⟩ := h.seq c.fills
  unfold items at hle
  rw [Graph.addAll_append] at hle
  rcases hc hpc ((Graph.le_addAll _ _).trans hle) hp with hf | ⟨ys, zs, k, hk, hys, rfl, hq⟩
  · exact .inl (List.mem_append_left _ hf)
  · rcases hd hpd hle hq with hf | ⟨ys', zs', k', hk', hys', rfl, hr⟩
    · exact .inl (List.mem_append_right _ hf)
    · refine .inr ⟨ys ++ ys', zs', k', hk'.trans hk, ⟨ys, ys', hys, hys', rfl⟩,
        (List.append_assoc _ _ _).symm, ?_⟩
      rw [show (seq c d).items = c.items ++ d.items from rfl, Graph.addAll_append]
      exact hr

/-- A check goes to one of its two blocks. -/
theorem pathFrom_check {cond : C} {success fail : L} (hl : g.current = some l)
    (hle : (g.addAll (check cond success fail : Code L I C).items).Le G) :
    PathFrom G g l n xs e ↔ ∃ k, n = k + 1 ∧
      (Path G k success (G.code success) xs e ∨ Path G k fail (G.code fail) xs e) := by
  have hbranch : PathFrom G (g.addAll [.create success true, .create fail true]) l n xs e ↔ _ :=
    pathFrom_condBr hl ((Graph.le_addAll (failGraph g cond success fail) [.emit .ret]).trans hle)
  exact hbranch

theorem passes_check {cond : C} {success fail : L} :
    AllPass G (check cond success fail : Code L I C) := by
  intro g l e n xs h hle hp
  obtain ⟨hfail, -, hsuccess⟩ := h.check
  have hret : ((failGraph g cond success fail).add (.emit .ret)).Le G := hle
  obtain ⟨k, rfl, hp | hp⟩ := (pathFrom_check h.current hle).1 hp
  · exact .inr ⟨[], xs, k, Nat.le_succ k, rfl, rfl, (pathFrom_of_code_eq_nil hsuccess).2 hp⟩
  · -- the path returns here
    rw [← Graph.rest_of_code_eq_nil hfail, Graph.rest_emit rfl hret] at hp
    cases hp with
    | ret => exact .inl List.mem_cons_self

theorem passes_ite {cond : C} {t e m : L} {ct ce : Code L I C} (ht : AllPass G ct)
    (he : AllPass G ce) : AllPass G (ite cond t e m ct ce) := by
  intro g l e' n xs h hle hp
  obtain ⟨hpt, hpe, -, hlast⟩ := h.ite ct.fills ce.fills
  have hle := iteLe hle
  rw [addAll_ite] at hlast
  have hbranch : PathFrom G (g.addAll [.create t true, .create e false, .create m false])
      l n xs e' ↔ _ := pathFrom_condBr h.current hle.branch
  obtain ⟨k, rfl, hp | hp⟩ := hbranch.1 hp
  · rcases ht hpt.toPlaced hle.thenItems ((pathFrom_of_code_eq_nil hpt.empty).2 hp) with
      hf | ⟨ys, zs, k', hk', hys, rfl, hq⟩
    · exact .inl (List.mem_append_left _ hf)
    · obtain ⟨j, rfl, hr⟩ := (pathFrom_br (ct.current_items hpt.current) hle.thenEnd).1 hq
      refine .inr ⟨ys, zs, j, by omega, .inl hys, rfl, ?_⟩
      rw [addAll_ite]
      exact (pathFrom_of_code_eq_nil hlast).2 hr
  · rcases he hpe.toPlaced hle.elseItems ((pathFrom_of_code_eq_nil hpe.empty).2 hp) with
      hf | ⟨ys, zs, k', hk', hys, rfl, hq⟩
    · exact .inl (List.mem_append_right _ hf)
    · obtain ⟨j, rfl, hr⟩ := (pathFrom_br (ce.current_items hpe.current) hle.elseEnd).1 hq
      refine .inr ⟨ys, zs, j, by omega, .inr hys, rfl, ?_⟩
      rw [addAll_ite]
      exact (pathFrom_of_code_eq_nil hlast).2 hr

/-- The turns of a loop, by induction on the length of the path. -/
theorem passes_turns {body after : L} {again : C} {b : Code L I C} (hb : AllPass G b)
    (hp : b.Opens g body) (hle : (g.addAll b.items).Le G)
    (hturn : ((g.addAll b.items).add (.emit (.condBr again body after))).Le G) :
    ∀ {n : ℕ} {xs : List I}, Path G n body (G.code body) xs e →
      e ∈ b.fails ∨ ∃ ys zs k, k ≤ n ∧ Turns b.Trace ys ∧ xs = ys ++ zs ∧
        Path G k after (G.code after) zs e := by
  intro n
  induction n using Nat.strong_induction_on with
  | _ n ih =>
    intro xs h
    rcases hb hp.toPlaced hle ((pathFrom_of_code_eq_nil hp.empty).2 h) with
      hf | ⟨ys, zs, k, hk, hys, rfl, hq⟩
    · exact .inl hf
    · obtain ⟨j, rfl, hr | hr⟩ := (pathFrom_condBr (b.current_items hp.current) hturn).1 hq
      · rcases ih j (by omega) hr with hf | ⟨ys', zs', k', hk', hys', rfl, ht⟩
        · exact .inl hf
        · exact .inr ⟨ys ++ ys', zs', k', by omega, .more hys hys',
            (List.append_assoc _ _ _).symm, ht⟩
      · exact .inr ⟨ys, zs, j, by omega, .one hys, rfl, hr⟩

theorem passes_loop {body els after : L} {init b e : Code L I C} {cond again : C}
    (hi : AllPass G init) (hb : AllPass G b) (he : AllPass G e) :
    AllPass G (loop body els after init cond b again e) := by
  intro g l e' n xs h hle hp
  obtain ⟨hpi, hpb, hpe, -, hlast⟩ := h.loop init.fills b.fills e.fills
  have hle := loopLe hle
  rw [addAll_loop] at hlast
  rcases hi hpi hle.initItems hp with hf | ⟨ys, zs, k, hk, hys, rfl, hq⟩
  · exact .inl (List.mem_append_left _ (List.mem_append_left _ hf))
  · obtain ⟨j, rfl, hr | hr⟩ :=
      (pathFrom_condBr (init.current_items hpi.current) hle.branch).1 hq
    · rcases passes_turns hb hpb hle.bodyItems hle.turn hr with
        hf | ⟨ys', zs', k', hk', hys', rfl, ht⟩
      · exact .inl (List.mem_append_left _ (List.mem_append_right _ hf))
      · refine .inr ⟨ys ++ ys', zs', k', by omega, ⟨ys, ys', hys, .inl hys', rfl⟩,
          (List.append_assoc _ _ _).symm, ?_⟩
        rw [addAll_loop]
        exact (pathFrom_of_code_eq_nil hlast).2 ht
    · rcases he hpe.toPlaced hle.elseItems ((pathFrom_of_code_eq_nil hpe.empty).2 hr) with
        hf | ⟨ys', zs', k', hk', hys', rfl, ht⟩
      · exact .inl (List.mem_append_right _ hf)
      · obtain ⟨i, rfl, hu⟩ := (pathFrom_br (e.current_items hpe.current) hle.elseEnd).1 ht
        refine .inr ⟨ys ++ ys', zs', i, by omega, ⟨ys, ys', hys, .inr hys', rfl⟩,
          (List.append_assoc _ _ _).symm, ?_⟩
        rw [addAll_loop]
        exact (pathFrom_of_code_eq_nil hlast).2 hu

/-- A path executes traces of the code that it comes through. -/
theorem passes (c : Code L I C) : AllPass G c := by
  induction c with
  | skip => exact fun _ _ hp => .inr ⟨[], _, _, le_rfl, rfl, rfl, hp⟩
  | op i => exact passes_op i
  | seq c d ihc ihd => exact passes_seq ihc ihd
  | check cond success fail => exact passes_check
  | ite cond t e m ct ce iht ihe => exact passes_ite iht ihe
  | loop body els after init cond b again e ihi ihb ihe => exact passes_loop ihi ihb ihe

/-- What is to be shown of a piece of code: there is a path through it for every trace. -/
abbrev AllTake (G : Graph L I C) (c : Code L I C) : Prop :=
  ∀ {g : Graph L I C} {l e : L} {n : ℕ} {ys zs : List I}, c.Placed g l →
    (g.addAll c.items).Le G → c.Trace ys → PathFrom G (g.addAll c.items) (c.last l) n zs e →
      ∃ k, PathFrom G g l k (ys ++ zs) e

theorem takes_turns {body after : L} {again : C} {b : Code L I C} {ys zs : List I}
    (hb : AllTake G b) (hp : b.Opens g body) (hle : (g.addAll b.items).Le G)
    (hturn : ((g.addAll b.items).add (.emit (.condBr again body after))).Le G)
    (hys : Turns b.Trace ys) (h : Path G n after (G.code after) zs e) :
    ∃ k, Path G k body (G.code body) (ys ++ zs) e := by
  have hcurrent := b.current_items hp.current
  induction hys with
  | one hys =>
    obtain ⟨k, hk⟩ := hb hp.toPlaced hle hys ((pathFrom_condBr hcurrent hturn).2 ⟨n, rfl, .inr h⟩)
    exact ⟨k, (pathFrom_of_code_eq_nil hp.empty).1 hk⟩
  | more hys _ ih =>
    obtain ⟨j, hj⟩ := ih
    obtain ⟨k, hk⟩ := hb hp.toPlaced hle hys ((pathFrom_condBr hcurrent hturn).2 ⟨j, rfl, .inl hj⟩)
    rw [List.append_assoc]
    exact ⟨k, (pathFrom_of_code_eq_nil hp.empty).1 hk⟩

theorem takes_loop {body els after : L} {init b e : Code L I C} {cond again : C}
    (hi : AllTake G init) (hb : AllTake G b) (he : AllTake G e) :
    AllTake G (loop body els after init cond b again e) := by
  rintro g l e' n ys zs h hle ⟨ys, ys', hys, hys', rfl⟩ hp
  obtain ⟨hpi, hpb, hpe, -, hlast⟩ := h.loop init.fills b.fills e.fills
  have hle := loopLe hle
  rw [addAll_loop] at hlast hp
  have hp := (pathFrom_of_code_eq_nil hlast).1 hp
  have hbranch : ∃ k, PathFrom G ((initGraph g body els after).addAll init.items) (init.last l) k
      (ys' ++ zs) e' := by
    have hcurrent := init.current_items hpi.current
    rcases hys' with hys' | hys'
    · obtain ⟨k, hk⟩ := takes_turns hb hpb hle.bodyItems hle.turn hys' hp
      exact ⟨k + 1, (pathFrom_condBr hcurrent hle.branch).2 ⟨k, rfl, .inl hk⟩⟩
    · have hend := (pathFrom_br (e.current_items hpe.current) hle.elseEnd).2 ⟨n, rfl, hp⟩
      obtain ⟨k, hk⟩ := he hpe.toPlaced hle.elseItems hys' hend
      exact ⟨k + 1, (pathFrom_condBr hcurrent hle.branch).2
        ⟨k, rfl, .inr ((pathFrom_of_code_eq_nil hpe.empty).1 hk)⟩⟩
  obtain ⟨j, hj⟩ := hbranch
  have hinit := hi hpi hle.initItems hys hj
  rw [List.append_assoc]
  exact hinit

theorem takes_ite {cond : C} {t e m : L} {ct ce : Code L I C} (ht : AllTake G ct)
    (he : AllTake G ce) : AllTake G (ite cond t e m ct ce) := by
  intro g l e' n ys zs h hle hys hp
  obtain ⟨hpt, hpe, -, hlast⟩ := h.ite ct.fills ce.fills
  have hle := iteLe hle
  rw [addAll_ite] at hlast hp
  have hp := (pathFrom_of_code_eq_nil hlast).1 hp
  have hbranch : ∀ k, PathFrom G (g.addAll [.create t true, .create e false, .create m false])
      l (k + 1) (ys ++ zs) e' ↔ _ := fun _ => pathFrom_condBr h.current hle.branch
  rcases hys with hys | hys
  · have hend := (pathFrom_br (ct.current_items hpt.current) hle.thenEnd).2 ⟨n, rfl, hp⟩
    obtain ⟨k, hk⟩ := ht hpt.toPlaced hle.thenItems hys hend
    exact ⟨k + 1, (hbranch k).2 ⟨k, rfl, .inl ((pathFrom_of_code_eq_nil hpt.empty).1 hk)⟩⟩
  · have hend := (pathFrom_br (ce.current_items hpe.current) hle.elseEnd).2 ⟨n, rfl, hp⟩
    obtain ⟨k, hk⟩ := he hpe.toPlaced hle.elseItems hys hend
    exact ⟨k + 1, (hbranch k).2 ⟨k, rfl, .inr ((pathFrom_of_code_eq_nil hpe.empty).1 hk)⟩⟩

theorem takes (c : Code L I C) : AllTake G c := by
  induction c with
  | skip =>
    rintro g l e n _ zs _ _ rfl hp
    exact ⟨n, hp⟩
  | op i =>
    rintro g l e n _ zs h hle rfl hp
    refine ⟨n + 1, ?_⟩
    rw [PathFrom, Graph.rest_emit h.current hle]
    exact .op hp
  | seq c d ihc ihd =>
    rintro g l e n _ zs h hle ⟨ys, ys', hys, hys', rfl⟩ hp
    obtain ⟨hpc, hpd⟩ := h.seq c.fills
    unfold items at hle hp
    rw [Graph.addAll_append] at hle hp
    obtain ⟨j, hj⟩ := ihd hpd hle hys' hp
    rw [List.append_assoc]
    exact ihc hpc ((Graph.le_addAll _ _).trans hle) hys hj
  | check cond success fail =>
    rintro g l e n _ zs h hle rfl hp
    obtain ⟨-, -, hsuccess⟩ := h.check
    have hpath := (pathFrom_of_code_eq_nil hsuccess).1 hp
    exact ⟨n + 1, (pathFrom_check h.current hle).2 ⟨n, rfl, .inl hpath⟩⟩
  | ite cond t e m ct ce iht ihe => exact takes_ite iht ihe
  | loop body els after init cond b again e ihi ihb ihe => exact takes_loop ihi ihb ihe

/-- The paths of a function to its last return are the traces of its code. -/
theorem completes_function_iff {entry : L} (c : Code L I C) (h : (entry :: c.labels).Nodup) :
    (Graph.build (function entry c)).Completes entry xs ↔ c.Trace xs := by
  have hp := c.placed_entry h
  have hcurrent := c.current_items hp.current
  have hret : (((Graph.empty.addAll [.create entry true, .place entry]).addAll c.items).add
      (.emit .ret)).Le (Graph.build (function entry c)) := by
    rw [build_function]
    exact .refl _
  have hle := (Graph.le_add _ _).trans hret
  have hlast : (Graph.build (function entry c)).current = some (c.last entry) := by
    rw [build_function]
    simp only [Graph.add, hcurrent]
  have hend := Graph.rest_emit hcurrent hret
  constructor
  · rintro ⟨n, e, he, hpath⟩
    obtain rfl := Option.some.inj (hlast.symm.trans he)
    rcases c.passes hp hle ((pathFrom_of_code_eq_nil rfl).2 hpath) with
      hf | ⟨ys, zs, k, -, hys, rfl, hq⟩
    · exact absurd hf (c.last_not_mem_fails h)
    · rw [PathFrom, hend] at hq
      cases hq
      rwa [List.append_nil]
  · intro hxs
    have hpath : PathFrom (Graph.build (function entry c))
        ((Graph.empty.addAll [.create entry true, .place entry]).addAll c.items) (c.last entry) 0
          [] (c.last entry) := by
      rw [PathFrom, hend]
      exact .ret
    obtain ⟨k, hk⟩ := c.takes hp hle hxs hpath
    rw [List.append_nil] at hk
    exact ⟨k, _, hlast, (pathFrom_of_code_eq_nil rfl).1 hk⟩

end Code

end Cfg
