import B2.Cfg.Graph

/-!
# Structured code

Code with checks that return, conditionals and loops (`Code`), the calls of a
builder that lay it out in blocks (`Code.items`), and its big-step meaning
(`Code.Exec`). The graph that is built has every block terminated
(`Code.fills`), and where the code executes it runs in the same way
(`Code.leads`, `Code.halts_function`).
-/

namespace Cfg

/-- A piece of code goes on, or it returns from the function. -/
inductive Outcome (M : Type) where
  | next (m : M)
  | returned (m : M)

def Outcome.state {M : Type} : Outcome M → M
  | .next m | .returned m => m

/-- What holds of the state, by the way the piece ends. -/
def Outcome.All {M : Type} (Q F : M → Prop) : Outcome M → Prop
  | .next m => Q m
  | .returned m => F m

inductive Code (L I C : Type) where
  | skip
  | op (i : I)
  | seq (c d : Code L I C)
  /-- return unless the condition holds -/
  | check (cond : C) (success fail : L)
  | ite (cond : C) (thenBlock elseBlock merge : L) (t e : Code L I C)
  /-- `init`; if the condition holds then `b` until `again` fails, else `e` -/
  | loop (body els after : L) (init : Code L I C) (cond : C) (b : Code L I C) (again : C)
      (e : Code L I C)

variable {L I C M : Type}

/-- One piece of code after another. -/
inductive Then (R S : M → Outcome M → Prop) (m : M) : Outcome M → Prop
  | next {m' o} (h : R m (.next m')) (h' : S m' o) : Then R S m o
  | returned {m'} (h : R m (.returned m')) : Then R S m (.returned m')

/-- A body until the condition after it fails. -/
inductive Iterates (σ : Machine I C M) (again : C) (R : M → Outcome M → Prop) :
    M → Outcome M → Prop
  | last {m m'} (h : R m (.next m')) (hb : σ.branch again m' = false) :
      Iterates σ again R m (.next m')
  | again {m m' o} (h : R m (.next m')) (hb : σ.branch again m' = true)
      (h' : Iterates σ again R m' o) : Iterates σ again R m o
  | returned {m m'} (h : R m (.returned m')) : Iterates σ again R m (.returned m')

namespace Code

/-- The calls of the builder. -/
def items : Code L I C → List (Item L I C)
  | skip => []
  | op i => [.emit (.op i)]
  | seq c d => c.items ++ d.items
  | check cond success fail =>
    [.create success true, .create fail true, .emit (.condBr cond success fail), .place fail,
      .emit .ret, .place success]
  | ite cond thenBlock elseBlock merge t e =>
    [.create thenBlock true, .create elseBlock false, .create merge false,
      .emit (.condBr cond thenBlock elseBlock), .place thenBlock] ++ t.items ++
    [.emit (.br merge), .attach elseBlock, .place elseBlock] ++ e.items ++
    [.emit (.br merge), .attach merge, .place merge]
  | loop body els after init cond b again e =>
    [.create body true, .create els true, .create after true] ++ init.items ++
    [.emit (.condBr cond body els), .place body] ++ b.items ++
    [.emit (.condBr again body after), .place els] ++ e.items ++ [.emit (.br after), .place after]

/-- The blocks of the code. -/
def labels : Code L I C → List L
  | skip | op _ => []
  | seq c d => c.labels ++ d.labels
  | check _ success fail => [fail, success]
  | ite _ thenBlock elseBlock merge t e =>
    [thenBlock] ++ t.labels ++ [elseBlock] ++ e.labels ++ [merge]
  | loop body els after init _ b _ e =>
    init.labels ++ [body] ++ b.labels ++ [els] ++ e.labels ++ [after]

/-- The block in which code that began in `l` goes on. -/
def last : Code L I C → L → L
  | skip, l | op _, l => l
  | seq c d, l => d.last (c.last l)
  | check _ success _, _ => success
  | ite _ _ _ merge _ _, _ => merge
  | loop _ _ after _ _ _ _ _, _ => after

def Exec (σ : Machine I C M) : Code L I C → M → Outcome M → Prop
  | skip, m, o => o = .next m
  | op i, m, o => o = .next (σ.exec i m)
  | seq c d, m, o => Then (c.Exec σ) (d.Exec σ) m o
  | check cond _ _, m, o =>
    o = if σ.branch cond m then .next m else .returned m
  | ite cond _ _ _ t e, m, o =>
    if σ.branch cond m then t.Exec σ m o else e.Exec σ m o
  | loop _ _ _ init cond b again e, m, o =>
    Then (init.Exec σ) (fun m o =>
      if σ.branch cond m then Iterates σ again (b.Exec σ) m o else e.Exec σ m o) m o

theorem last_mem (c : Code L I C) (l : L) : c.last l ∈ l :: c.labels := by
  induction c generalizing l with
  | skip | op i => exact List.mem_cons_self
  | seq c d ihc ihd =>
    unfold last labels
    have h := ihd (c.last l)
    have h' := ihc l
    grind
  | check cond success fail | ite cond t e m ct ce _ _ | loop body els after init cond b again e =>
    simp [last, labels]

/-! ## Rules -/

section

variable {σ : Machine I C M} {m : M} {Q Q' F : M → Prop} {c d : Code L I C}

/-- The code runs to its end, where `Q` holds of the state, or to a return, where `F` does. -/
def Runs (σ : Machine I C M) (c : Code L I C) (m : M) (Q F : M → Prop) : Prop :=
  ∃ o, c.Exec σ m o ∧ o.All Q F

theorem runs_skip (h : Q m) : Runs σ (skip : Code L I C) m Q F := ⟨_, rfl, h⟩

theorem runs_op {i : I} (h : Q (σ.exec i m)) : Runs σ (op i : Code L I C) m Q F := ⟨_, rfl, h⟩

theorem Runs.mono {F' : M → Prop} (h : Runs σ c m Q F) (hQ : ∀ m, Q m → Q' m)
    (hF : ∀ m, F m → F' m) : Runs σ c m Q' F' := by
  obtain ⟨o, hexec, h⟩ := h
  refine ⟨o, hexec, ?_⟩
  cases o with
  | next m' => exact hQ m' h
  | returned m' => exact hF m' h

theorem Runs.seq {P : M → Prop} (h : Runs σ c m P F) (h' : ∀ m', P m' → Runs σ d m' Q F) :
    Runs σ (c.seq d) m Q F := by
  obtain ⟨o, hexec, h⟩ := h
  cases o with
  | next m' =>
    obtain ⟨o', hexec', h'⟩ := h' m' h
    exact ⟨o', .next hexec hexec', h'⟩
  | returned m' => exact ⟨_, .returned hexec, h⟩

theorem runs_check {cond : C} {success fail : L} (hQ : σ.branch cond m = true → Q m)
    (hF : σ.branch cond m = false → F m) :
    Runs σ (check cond success fail : Code L I C) m Q F := by
  refine ⟨_, rfl, ?_⟩
  cases h : σ.branch cond m with
  | true => exact hQ h
  | false => exact hF h

theorem runs_ite {cond : C} {thenBlock elseBlock merge : L}
    (ht : σ.branch cond m = true → Runs σ c m Q F)
    (he : σ.branch cond m = false → Runs σ d m Q F) :
    Runs σ (ite cond thenBlock elseBlock merge c d) m Q F := by
  unfold Runs Exec
  cases h : σ.branch cond m with
  | true => exact ht h
  | false => exact he h

theorem runs_loop {body els after : L} {init b e : Code L I C} {cond again : C}
    (hi : Runs σ init m Q' F)
    (hb : ∀ m', Q' m' → σ.branch cond m' = true →
      ∃ o, Iterates σ again (b.Exec σ) m' o ∧ o.All Q F)
    (he : ∀ m', Q' m' → σ.branch cond m' = false → Runs σ e m' Q F) :
    Runs σ (loop body els after init cond b again e) m Q F := by
  obtain ⟨o, hexec, h⟩ := hi
  cases o with
  | returned m' => exact ⟨_, .returned hexec, h⟩
  | next m' =>
    cases hc : σ.branch cond m' with
    | true =>
      obtain ⟨o', h', ho'⟩ := hb m' h hc
      exact ⟨o', .next hexec (by rw [if_pos hc]; exact h'), ho'⟩
    | false =>
      obtain ⟨o', h', ho'⟩ := he m' h hc
      exact ⟨o', .next hexec (by rw [if_neg (by simp [hc])]; exact h'), ho'⟩

end

/-! ## The graph -/

variable [DecidableEq L] {g g' g'' : Graph L I C} {l : L}

theorem current_items (c : Code L I C) {g : Graph L I C} {l : L} (hl : g.current = some l) :
    (g.addAll c.items).current = some (c.last l) := by
  induction c generalizing g l with
  | skip => exact hl
  | op i => simp [items, Graph.add, hl, last]
  | seq c d ihc ihd =>
    unfold items last
    rw [Graph.addAll_append]
    exact ihd (ihc hl)
  | check cond success fail | ite cond t e m ct ce _ _ | loop body els after init cond b again e =>
    simp [items, Graph.addAll_append, Graph.add, last]

/-- Whatever counts a block when it is created or, if it is created without the function, when it
is attached, counts the blocks of the code. -/
theorem perm_items {f : Item L I C → List L} (hemit : ∀ i, f (.emit i) = [])
    (hplace : ∀ l, f (.place l) = []) (hnew : ∀ l, f (.create l true) = [l])
    (hlater : ∀ l, f (.create l false) ++ f (.attach l) = [l]) (c : Code L I C) :
    (c.items.flatMap f).Perm c.labels := by
  have hcount : ∀ l x, (f (.create l false)).count x + (f (.attach l)).count x = [l].count x := by
    intro l x
    rw [← hlater l, List.count_append]
  induction c with
  | skip => rfl
  | op i => simp [items, labels, hemit]
  | seq c d ihc ihd =>
    unfold items labels
    rw [List.flatMap_append]
    exact ihc.append ihd
  | check cond success fail =>
    simp only [items, labels, List.flatMap_cons, List.flatMap_nil, hemit, hplace, hnew,
      List.nil_append]
    exact List.Perm.swap _ _ _
  | ite cond t e m ct ce iht ihe =>
    refine List.perm_iff_count.2 fun x => ?_
    have h₁ := List.perm_iff_count.1 iht x
    have h₂ := List.perm_iff_count.1 ihe x
    have h₃ := hcount e x
    have h₄ := hcount m x
    simp only [items, labels, List.flatMap_append, List.flatMap_cons, List.flatMap_nil, hemit,
      hplace, hnew, List.count_append, List.count_nil] at h₁ h₂ ⊢
    omega
  | loop body els after init cond b again e ihi ihb ihe =>
    refine List.perm_iff_count.2 fun x => ?_
    have h₁ := List.perm_iff_count.1 ihi x
    have h₂ := List.perm_iff_count.1 ihb x
    have h₃ := List.perm_iff_count.1 ihe x
    simp only [items, labels, List.flatMap_append, List.flatMap_cons, List.flatMap_nil, hemit,
      hplace, hnew, List.count_append, List.count_nil] at h₁ h₂ h₃ ⊢
    omega

theorem created_items (c : Code L I C) (g : Graph L I C) :
    (g.addAll c.items).created.Perm (g.created ++ c.labels) := by
  rw [g.created_addAll]
  exact (perm_items (fun _ => rfl) (fun _ => rfl) (fun _ => rfl) (fun _ => rfl) c).append_left _

theorem attached_items (c : Code L I C) (g : Graph L I C) :
    (g.addAll c.items).attached.Perm (g.attached ++ c.labels) := by
  rw [g.attached_addAll]
  exact (perm_items (fun _ => rfl) (fun _ => rfl) (fun _ => rfl) (fun _ => rfl) c).append_left _

/-- The blocks `xs` got their terminator, and the others are as before. -/
structure Sealed (xs : List L) (g g' : Graph L I C) : Prop where
  terminated : ∀ x ∈ xs, Terminated (g'.code x)
  frame : ∀ x, x ∉ xs → g'.code x = g.code x

omit [DecidableEq L] in
theorem Sealed.append {xs ys : List L} (h : Sealed xs g g') (h' : Sealed ys g' g'')
    (hd : (xs ++ ys).Nodup) : Sealed (xs ++ ys) g g'' where
  terminated x hx := by
    rcases List.mem_append.1 hx with hx | hx
    · rw [h'.frame x fun hy => (List.nodup_append.1 hd).2.2 x hx x hy rfl]
      exact h.terminated x hx
    · exact h'.terminated x hx
  frame x hx := by
    rw [List.mem_append, not_or] at hx
    rw [h'.frame x hx.2, h.frame x hx.1]

omit [DecidableEq L] in
theorem Sealed.of_code {k k' : Graph L I C} {xs : List L} (h : Sealed xs g g')
    (hk : k.code = g.code) (hk' : k'.code = g'.code) : Sealed xs k k' where
  terminated := by
    rw [hk']
    exact h.terminated
  frame := by
    rw [hk, hk']
    exact h.frame

/-- Code that is inserted in the block `l` goes on in a block without terminator; all its other
blocks have one. -/
structure Fills (c : Code L I C) (g g' : Graph L I C) (l : L) : Prop where
  terminated : ∀ x ∈ l :: c.labels, x ≠ c.last l → Terminated (g'.code x)
  unterminated : Unterminated (g'.code (c.last l))
  frame : ∀ x ∉ l :: c.labels, g'.code x = g.code x

theorem Fills.seals {c : Code L I C} {t : Instr L I C} (h : c.Fills g g' l)
    (hl : g'.current = some (c.last l)) (ht : ∀ x, t ≠ .op x) :
    Sealed (l :: c.labels) g (g'.add (.emit t)) := by
  have hcode : ∀ x, (g'.add (.emit t)).code x =
      if x = c.last l then g'.code x ++ [t] else g'.code x := by
    intro x
    simp only [Graph.add, hl, Function.update_apply]
    split_ifs with h
    · rw [h]
    · rfl
  refine ⟨fun x hx => ?_, fun x hx => ?_⟩
  · rw [hcode]
    split_ifs with heq
    · subst heq
      exact h.unterminated.terminate ht
    · exact h.terminated x hx heq
  · rw [hcode, if_neg, h.frame x hx]
    rintro rfl
    exact hx (c.last_mem l)

omit [DecidableEq L] in
theorem Sealed.fresh {xs ys : List L} (h : Sealed xs g g') (hd : (xs ++ ys).Nodup)
    (hfresh : ∀ x ∈ ys, g.code x = []) : ∀ x ∈ ys, g'.code x = [] := by
  intro x hx
  rw [h.frame x fun hmem => (List.nodup_append.1 hd).2.2 x hmem x hx rfl]
  exact hfresh x hx

omit [DecidableEq L] in
theorem Sealed.fills {c : Code L I C} {xs : List L} (h : Sealed xs g g')
    (hxs : ∀ x, x ∈ l :: c.labels ↔ x ∈ xs ∨ x = c.last l) (hlast : g'.code (c.last l) = []) :
    c.Fills g g' l where
  terminated x hx hne := h.terminated x (((hxs x).1 hx).resolve_right hne)
  unterminated := by
    rw [hlast]
    exact unterminated_nil
  frame x hx := h.frame x fun hmem => hx ((hxs x).2 (.inl hmem))

/-- Code can be inserted in the block `l`. -/
structure Placed (c : Code L I C) (g : Graph L I C) (l : L) : Prop where
  current : g.current = some l
  nodup : (l :: c.labels).Nodup
  fresh : ∀ x ∈ c.labels, g.code x = []
  unterminated : Unterminated (g.code l)

/-- The code comes first in the block. -/
structure Opens (c : Code L I C) (g : Graph L I C) (l : L) : Prop extends c.Placed g l where
  empty : g.code l = []

omit [DecidableEq L] in
theorem opens_of_fresh {c : Code L I C} (hl : g.current = some l) (hnodup : (l :: c.labels).Nodup)
    (hfresh : ∀ x ∈ l :: c.labels, g.code x = []) : c.Opens g l :=
  have hempty := hfresh l List.mem_cons_self
  ⟨⟨hl, hnodup, fun x hx => hfresh x (List.mem_cons_of_mem _ hx), hempty ▸ unterminated_nil⟩,
    hempty⟩

/-- What is to be shown of a piece of code. -/
abbrev AllFill (c : Code L I C) : Prop :=
  ∀ {g : Graph L I C} {l : L}, c.Placed g l → c.Fills g (g.addAll c.items) l

/-- Code with a terminator after it. -/
theorem AllFill.seals {c : Code L I C} {t : Instr L I C} (h : AllFill c) (hc : c.Placed g l)
    (ht : ∀ x, t ≠ .op x) : Sealed (l :: c.labels) g ((g.addAll c.items).add (.emit t)) :=
  (h hc).seals (c.current_items hc.current) ht

theorem fills_skip : AllFill (skip : Code L I C) := fun h =>
  ⟨fun _ hx hne => absurd (List.mem_singleton.1 hx) hne, h.unterminated, fun _ _ => rfl⟩

theorem fills_op (i : I) : AllFill (op i : Code L I C) := by
  intro g l h
  have hcode : ∀ x, (g.addAll (op i).items).code x =
      if x = l then g.code x ++ [.op i] else g.code x := by
    intro x
    simp only [items, Graph.addAll_cons, Graph.addAll_nil, Graph.add, h.current,
      Function.update_apply]
    split_ifs with h
    · rw [h]
    · rfl
  refine ⟨fun x hx hne => absurd (List.mem_singleton.1 hx) hne, ?_, fun x hx => ?_⟩
  · show Unterminated ((g.addAll (op i).items).code l)
    rw [hcode, if_pos rfl]
    exact h.unterminated.concat i
  · rw [hcode, if_neg (List.ne_of_not_mem_cons hx)]

/-! ### Sequences -/

theorem Placed.seq {c d : Code L I C} (h : (seq c d).Placed g l) (hc : AllFill c) :
    c.Placed g l ∧ d.Placed (g.addAll c.items) (c.last l) := by
  obtain ⟨hl, hnodup, hfresh, hu⟩ := h
  unfold labels at hnodup hfresh
  rw [← List.cons_append] at hnodup
  obtain ⟨hnc, hnd, hdisj⟩ := List.nodup_append.1 hnodup
  have hp : c.Placed g l := ⟨hl, hnc, fun x hx => hfresh x (List.mem_append_left _ hx), hu⟩
  have hlast := c.last_mem l
  refine ⟨hp, c.current_items hl, ?_, fun x hx => ?_, (hc hp).unterminated⟩
  · exact List.nodup_cons.2 ⟨fun h => hdisj _ hlast _ h rfl, hnd⟩
  · rw [(hc hp).frame x fun h => hdisj x h x hx rfl]
    exact hfresh x (List.mem_append_right _ hx)

theorem fills_seq {c d : Code L I C} (hc : AllFill c) (hd : AllFill d) : AllFill (seq c d) := by
  intro g l h
  obtain ⟨hpc, hpd⟩ := h.seq hc
  have hF := hc hpc
  have hF' := hd hpd
  unfold items
  rw [Graph.addAll_append]
  refine ⟨fun x hx hne => ?_, hF'.unterminated, fun x hx => ?_⟩
  · unfold labels at hx
    rw [← List.cons_append, List.mem_append] at hx
    by_cases hxd : x ∈ c.last l :: d.labels
    · exact hF'.terminated x hxd hne
    · rw [hF'.frame x hxd]
      rw [List.mem_cons, not_or] at hxd
      exact hF.terminated x (hx.resolve_right hxd.2) hxd.1
  · unfold labels at hx
    rw [← List.cons_append, List.mem_append, not_or] at hx
    rw [hF'.frame x ?_, hF.frame x hx.1]
    rw [List.mem_cons, not_or]
    refine ⟨?_, hx.2⟩
    rintro rfl
    exact hx.1 (c.last_mem l)

/-! ### Checks -/

/-- The graph at the return instruction of a check. -/
def failGraph (g : Graph L I C) (cond : C) (success fail : L) : Graph L I C :=
  g.addAll [.create success true, .create fail true, .emit (.condBr cond success fail),
    .place fail]

theorem Placed.check {cond : C} {success fail : L}
    (h : (check cond success fail : Code L I C).Placed g l) :
    (failGraph g cond success fail).code fail = [] ∧
      Sealed [l, fail] g (g.addAll (check cond success fail).items) ∧
      (g.addAll (check cond success fail).items).code success = [] := by
  obtain ⟨hl, hnodup, hfresh, hu⟩ := h
  simp only [labels] at hnodup hfresh
  have hnodup' : ([l] ++ [fail]).Nodup := hnodup.sublist (by simp)
  have h₁ : Sealed [l] _ _ :=
    fills_skip.seals (g := g.addAll [.create success true, .create fail true])
      (t := .condBr cond success fail) ⟨hl, by simp [labels], by simp [labels], hu⟩ nofun
  have hfail : (failGraph g cond success fail).code fail = [] :=
    h₁.fresh hnodup' (fun x hx => hfresh x (List.mem_of_mem_take (i := 1) hx)) fail
      List.mem_cons_self
  have hopens : (skip : Code L I C).Opens (failGraph g cond success fail) fail :=
    opens_of_fresh rfl (by simp [labels]) (by simpa [labels] using hfail)
  have h₂ : Sealed [fail] _ _ := fills_skip.seals (t := .ret) hopens.toPlaced nofun
  have hS : Sealed [l, fail] g (g.addAll (Code.check cond success fail).items) :=
    (h₁.append (h₂.of_code rfl rfl) hnodup').of_code rfl rfl
  refine ⟨hfail, hS, ?_⟩
  rw [hS.frame success (by grind)]
  exact hfresh success (by simp)

theorem fills_check {cond : C} {success fail : L} :
    AllFill (check cond success fail : Code L I C) := by
  intro g l h
  obtain ⟨-, hS, hlast⟩ := h.check
  refine hS.fills (fun x => ?_) hlast
  simp only [labels, last]
  grind

/-! ### Conditionals -/

/-- The graph before the then branch. -/
def thenGraph (g : Graph L I C) (cond : C) (t e m : L) : Graph L I C :=
  g.addAll [.create t true, .create e false, .create m false, .emit (.condBr cond t e), .place t]

/-- The graph before the else branch. -/
def elseGraph (g : Graph L I C) (cond : C) (t e m : L) (ct : Code L I C) : Graph L I C :=
  ((thenGraph g cond t e m).addAll ct.items).addAll [.emit (.br m), .attach e, .place e]

theorem Placed.ite {cond : C} {t e m : L} {ct ce : Code L I C}
    (h : (ite cond t e m ct ce).Placed g l) (ht : AllFill ct) (he : AllFill ce) :
    ct.Opens (thenGraph g cond t e m) t ∧ ce.Opens (elseGraph g cond t e m ct) e ∧
      Sealed ([l] ++ (t :: ct.labels) ++ (e :: ce.labels)) g
        (g.addAll (ite cond t e m ct ce).items) ∧
      (g.addAll (ite cond t e m ct ce).items).code m = [] := by
  obtain ⟨hl, hnodup, hfresh, hu⟩ := h
  have hlabels : (Code.ite cond t e m ct ce).labels =
      (t :: ct.labels) ++ (e :: ce.labels) ++ [m] := by simp [labels]
  rw [hlabels] at hnodup hfresh
  have hnodup' : ([l] ++ (t :: ct.labels) ++ (e :: ce.labels)).Nodup :=
    hnodup.sublist (by simp)
  have hnodup₁ : ([l] ++ (t :: ct.labels)).Nodup :=
    hnodup'.sublist (List.sublist_append_left _ _)
  have h₁ : Sealed [l] _ _ :=
    fills_skip.seals (g := g.addAll [.create t true, .create e false, .create m false])
      (t := .condBr cond t e) ⟨hl, by simp [labels], by simp [labels], hu⟩ nofun
  have hopens₁ : ct.Opens (thenGraph g cond t e m) t :=
    opens_of_fresh rfl (hnodup₁.sublist (List.sublist_append_right _ _))
      (h₁.fresh hnodup₁ fun x hx => hfresh x (by simp at hx ⊢; tauto))
  have h₂ : Sealed (t :: ct.labels) _ _ := ht.seals (t := .br m) hopens₁.toPlaced nofun
  have h₁₂ := h₁.append (h₂.of_code rfl rfl) hnodup₁
  have hopens₂ : ce.Opens (elseGraph g cond t e m ct) e :=
    opens_of_fresh rfl (hnodup'.sublist (List.sublist_append_right _ _))
      (h₁₂.fresh hnodup' fun x hx => hfresh x (by simp at hx ⊢; tauto))
  have h₃ : Sealed (e :: ce.labels) _ _ := he.seals (t := .br m) hopens₂.toPlaced nofun
  have hS : Sealed ([l] ++ (t :: ct.labels) ++ (e :: ce.labels)) g
      (g.addAll (Code.ite cond t e m ct ce).items) := by
    refine (h₁₂.append (h₃.of_code rfl rfl) hnodup').of_code rfl ?_
    simp only [items, Graph.addAll_append]
    rfl
  refine ⟨hopens₁, hopens₂, hS, ?_⟩
  rw [hS.frame m (by grind)]
  exact hfresh m (by simp)

theorem fills_ite {cond : C} {t e m : L} {ct ce : Code L I C} (ht : AllFill ct)
    (he : AllFill ce) : AllFill (ite cond t e m ct ce) := by
  intro g l h
  obtain ⟨-, -, hS, hlast⟩ := h.ite ht he
  refine hS.fills (fun x => ?_) hlast
  simp only [labels, last]
  grind

/-! ### Loops -/

/-- The graph before the initialisation. -/
def initGraph (g : Graph L I C) (body els after : L) : Graph L I C :=
  g.addAll [.create body true, .create els true, .create after true]

/-- The graph before the body. -/
def bodyGraph (g : Graph L I C) (body els after : L) (init : Code L I C) (cond : C) :
    Graph L I C :=
  ((initGraph g body els after).addAll init.items).addAll
    [.emit (.condBr cond body els), .place body]

/-- The graph before the else body. -/
def loopElseGraph (g : Graph L I C) (body els after : L) (init : Code L I C) (cond : C)
    (b : Code L I C) (again : C) : Graph L I C :=
  ((bodyGraph g body els after init cond).addAll b.items).addAll
    [.emit (.condBr again body after), .place els]

theorem Placed.loop {body els after : L} {init b e : Code L I C} {cond again : C}
    (h : (loop body els after init cond b again e).Placed g l) (hi : AllFill init)
    (hb : AllFill b) (he : AllFill e) :
    init.Placed (initGraph g body els after) l ∧
      b.Opens (bodyGraph g body els after init cond) body ∧
      e.Opens (loopElseGraph g body els after init cond b again) els ∧
      Sealed ((l :: init.labels) ++ (body :: b.labels) ++ (els :: e.labels)) g
        (g.addAll (loop body els after init cond b again e).items) ∧
      (g.addAll (loop body els after init cond b again e).items).code after = [] := by
  obtain ⟨hl, hnodup, hfresh, hu⟩ := h
  have hlabels : (Code.loop body els after init cond b again e).labels =
      init.labels ++ (body :: b.labels) ++ (els :: e.labels) ++ [after] := by simp [labels]
  rw [hlabels] at hnodup hfresh
  have hnodup' : ((l :: init.labels) ++ (body :: b.labels) ++ (els :: e.labels)).Nodup :=
    hnodup.sublist (by simp)
  have hnodup₁ : ((l :: init.labels) ++ (body :: b.labels)).Nodup :=
    hnodup'.sublist (List.sublist_append_left _ _)
  have hplaced : init.Placed (initGraph g body els after) l :=
    ⟨hl, hnodup₁.sublist (List.sublist_append_left _ _),
      fun x hx => hfresh x (by simp at hx ⊢; tauto), hu⟩
  have h₁ : Sealed (l :: init.labels) _ _ := hi.seals (t := .condBr cond body els) hplaced nofun
  have hopens₁ : b.Opens (bodyGraph g body els after init cond) body :=
    opens_of_fresh rfl (hnodup₁.sublist (List.sublist_append_right _ _))
      (h₁.fresh hnodup₁ fun x hx => hfresh x (by simp at hx ⊢; tauto))
  have h₂ : Sealed (body :: b.labels) _ _ :=
    hb.seals (t := .condBr again body after) hopens₁.toPlaced nofun
  have h₁₂ := h₁.append (h₂.of_code rfl rfl) hnodup₁
  have hopens₂ : e.Opens (loopElseGraph g body els after init cond b again) els :=
    opens_of_fresh rfl (hnodup'.sublist (List.sublist_append_right _ _))
      (h₁₂.fresh hnodup' fun x hx => hfresh x (by simp at hx ⊢; tauto))
  have h₃ : Sealed (els :: e.labels) _ _ := he.seals (t := .br after) hopens₂.toPlaced nofun
  have hS : Sealed ((l :: init.labels) ++ (body :: b.labels) ++ (els :: e.labels)) g
      (g.addAll (Code.loop body els after init cond b again e).items) := by
    refine (h₁₂.append (h₃.of_code rfl rfl) hnodup').of_code rfl ?_
    simp only [items, Graph.addAll_append]
    rfl
  refine ⟨hplaced, hopens₁, hopens₂, hS, ?_⟩
  rw [hS.frame after (by grind)]
  exact hfresh after (by simp)

theorem fills_loop {body els after : L} {init b e : Code L I C} {cond again : C}
    (hi : AllFill init) (hb : AllFill b) (he : AllFill e) :
    AllFill (loop body els after init cond b again e) := by
  intro g l h
  obtain ⟨-, -, -, hS, hlast⟩ := h.loop hi hb he
  refine hS.fills (fun x => ?_) hlast
  simp only [labels, last]
  grind

/-- Code fills its blocks. -/
theorem fills (c : Code L I C) : AllFill c := by
  induction c with
  | skip => exact fills_skip
  | op i => exact fills_op i
  | seq c d ihc ihd => exact fills_seq ihc ihd
  | check cond success fail => exact fills_check
  | ite cond t e m ct ce iht ihe => exact fills_ite iht ihe
  | loop body els after init cond b again e ihi ihb ihe => exact fills_loop ihi ihb ihe

/-! ## Runs -/

variable {G : Graph L I C} {σ : Machine I C M} {m m' : M} {o : Outcome M}

/-- Where the run of the graph leads from the insertion point before the code. -/
def Leads (G : Graph L I C) (σ : Machine I C M) (c : Code L I C) (g : Graph L I C) (l : L) (m : M) :
    Outcome M → Prop
  | .next m' => Reaches G σ (G.point g l m) (G.point (g.addAll c.items) (c.last l) m')
  | .returned m' => Halts G σ (G.point g l m) m'

/-- What is to be shown of a piece of code. -/
abbrev AllLead (G : Graph L I C) (σ : Machine I C M) (c : Code L I C) : Prop :=
  ∀ {g : Graph L I C} {l : L} {m : M} {o : Outcome M}, c.Placed g l →
    (g.addAll c.items).Le G → c.Exec σ m o → Leads G σ c g l m o

/-- A run up to some code, the code, and the run after it. -/
theorem Leads.wrap {c d : Code L I C} {k : L} (h : Leads G σ c g l m o)
    (hbefore : Reaches G σ (G.point g' k m') (G.point g l m))
    (hafter : ∀ m, Reaches G σ (G.point (g.addAll c.items) (c.last l) m)
      (G.point (g'.addAll d.items) (d.last k) m)) : Leads G σ d g' k m' o := by
  cases o with
  | next m' => exact hbefore.trans (Relation.ReflTransGen.trans h (hafter m'))
  | returned m' => exact hbefore.halts h

theorem reaches_br {t : L} (hl : g.current = some l) (h : (g.add (.emit (.br t))).Le G)
    (ht : g'.code t = []) : Reaches G σ (G.point g l m) (G.point g' t m) := by
  refine .single ?_
  rw [Graph.point_emit hl h, Graph.point_of_code_eq_nil ht]
  rfl

theorem reaches_condBr {cond : C} {t e x : L} (hl : g.current = some l)
    (h : (g.add (.emit (.condBr cond t e))).Le G) (hx : (if σ.branch cond m then t else e) = x)
    (hcode : g'.code x = []) : Reaches G σ (G.point g l m) (G.point g' x m) := by
  refine .single ?_
  rw [Graph.point_emit hl h, Graph.point_of_code_eq_nil hcode, ← hx]
  rfl

theorem leads_op (i : I) : AllLead G σ (op i : Code L I C) := by
  intro g l m o h hle hexec
  cases hexec
  refine .single ?_
  rw [Graph.point_emit h.current hle]
  rfl

theorem leads_seq {c d : Code L I C} (hc : AllLead G σ c) (hd : AllLead G σ d) :
    AllLead G σ (seq c d) := by
  intro g l m o h hle hexec
  obtain ⟨hpc, hpd⟩ := h.seq c.fills
  unfold items at hle
  rw [Graph.addAll_append] at hle
  have hle₁ : (g.addAll c.items).Le G := (Graph.le_addAll _ _).trans hle
  cases hexec with
  | next h₁ h₂ =>
    refine (hd hpd hle h₂).wrap (hc hpc hle₁ h₁) fun m' => ?_
    rw [show (seq c d).items = c.items ++ d.items from rfl, Graph.addAll_append]
    exact .refl
  | returned h₁ => exact hc hpc hle₁ h₁

theorem leads_check {cond : C} {success fail : L} :
    AllLead G σ (check cond success fail : Code L I C) := by
  intro g l m o h hle hexec
  obtain ⟨hfail, -, hsuccess⟩ := h.check
  have hle₂ : ((failGraph g cond success fail).add (.emit .ret)).Le G := hle
  have hbranch : ∀ {x : L} {g' : Graph L I C}, (if σ.branch cond m then success else fail) = x →
      g'.code x = [] → Reaches G σ (G.point g l m) (G.point g' x m) :=
    reaches_condBr (g := g.addAll [.create success true, .create fail true]) h.current
      ((Graph.le_addAll (failGraph g cond success fail) [.emit .ret]).trans hle₂)
  cases hexec
  cases hb : σ.branch cond m with
  | true => exact hbranch (if_pos hb) hsuccess
  | false =>
    have hfail := hbranch (if_neg (by simp [hb])) hfail
    rw [Graph.point_emit rfl hle₂] at hfail
    exact ⟨fail, _, hfail⟩

theorem addAll_ite {cond : C} {t e m : L} {ct ce : Code L I C} :
    g.addAll (ite cond t e m ct ce).items =
      ((elseGraph g cond t e m ct).addAll ce.items).addAll
        [.emit (.br m), .attach m, .place m] := by
  simp only [items, Graph.addAll_append]
  rfl

/-- The graphs on the way through a conditional are parts of `G`. -/
structure IteLe (G g : Graph L I C) (cond : C) (t e m : L) (ct ce : Code L I C) : Prop where
  branch : ((g.addAll [.create t true, .create e false, .create m false]).add
    (.emit (.condBr cond t e))).Le G
  thenItems : ((thenGraph g cond t e m).addAll ct.items).Le G
  thenEnd : (((thenGraph g cond t e m).addAll ct.items).add (.emit (.br m))).Le G
  elseItems : ((elseGraph g cond t e m ct).addAll ce.items).Le G
  elseEnd : (((elseGraph g cond t e m ct).addAll ce.items).add (.emit (.br m))).Le G

theorem iteLe {cond : C} {t e m : L} {ct ce : Code L I C}
    (h : (g.addAll (ite cond t e m ct ce).items).Le G) : IteLe G g cond t e m ct ce := by
  rw [addAll_ite] at h
  have h₃ : ((elseGraph g cond t e m ct).addAll ce.items).Le G := (Graph.le_addAll _ _).trans h
  have h₂ : (elseGraph g cond t e m ct).Le G := (Graph.le_addAll _ _).trans h₃
  have h₁ : ((thenGraph g cond t e m).addAll ct.items).Le G := (Graph.le_addAll _ _).trans h₂
  exact ⟨(Graph.le_addAll (thenGraph g cond t e m) ct.items).trans h₁, h₁, h₂, h₃, h⟩

theorem leads_ite {cond : C} {t e m : L} {ct ce : Code L I C} (ht : AllLead G σ ct)
    (he : AllLead G σ ce) : AllLead G σ (ite cond t e m ct ce) := by
  intro g l s o h hle hexec
  obtain ⟨hpt, hpe, -, hlast⟩ := h.ite ct.fills ce.fills
  have hle := iteLe hle
  rw [addAll_ite] at hlast
  have hbranch : ∀ {x : L} {g' : Graph L I C}, (if σ.branch cond s then t else e) = x →
      g'.code x = [] → Reaches G σ (G.point g l s) (G.point g' x s) :=
    reaches_condBr (g := g.addAll [.create t true, .create e false, .create m false]) h.current
      hle.branch
  unfold Exec at hexec
  split_ifs at hexec with hb
  · refine (ht hpt.toPlaced hle.thenItems hexec).wrap (hbranch (if_pos hb) hpt.empty) fun m' => ?_
    rw [addAll_ite]
    exact reaches_br (ct.current_items hpt.current) hle.thenEnd hlast
  · refine (he hpe.toPlaced hle.elseItems hexec).wrap (hbranch (if_neg hb) hpe.empty) fun m' => ?_
    rw [addAll_ite]
    exact reaches_br (ce.current_items hpe.current) hle.elseEnd hlast

theorem leads_iterates {again : C} {b d : Code L I C} {body after k : L}
    {m₀ : M} (hb : AllLead G σ b) (hp : b.Opens g body) (hle : (g.addAll b.items).Le G)
    (hagain : ((g.addAll b.items).add (.emit (.condBr again body after))).Le G)
    (hafter : (g'.addAll d.items).code after = []) (hlast : d.last k = after)
    (h : Iterates σ again (b.Exec σ) m o)
    (hbefore : Reaches G σ (G.point g' k m₀) (G.point g body m)) :
    Leads G σ d g' k m₀ o := by
  have hcurrent := b.current_items hp.current
  induction h with
  | last h hb' =>
    have h' := hb hp.toPlaced hle h
    refine hbefore.trans (Relation.ReflTransGen.trans h' ?_)
    rw [hlast]
    exact reaches_condBr hcurrent hagain (by rw [hb']; rfl) hafter
  | again h hb' _ ih =>
    have h' := hb hp.toPlaced hle h
    refine ih (hbefore.trans (Relation.ReflTransGen.trans h' ?_))
    exact reaches_condBr hcurrent hagain (by rw [hb']; rfl) hp.empty
  | returned h => exact hbefore.halts (hb hp.toPlaced hle h)

theorem addAll_loop {body els after : L} {init b e : Code L I C} {cond again : C} :
    g.addAll (loop body els after init cond b again e).items =
      ((loopElseGraph g body els after init cond b again).addAll e.items).addAll
        [.emit (.br after), .place after] := by
  simp only [items, Graph.addAll_append]
  rfl

/-- The graphs on the way through a loop are parts of `G`. -/
structure LoopLe (G g : Graph L I C) (body els after : L) (init : Code L I C) (cond : C)
    (b : Code L I C) (again : C) (e : Code L I C) : Prop where
  initItems : ((initGraph g body els after).addAll init.items).Le G
  branch : (((initGraph g body els after).addAll init.items).add
    (.emit (.condBr cond body els))).Le G
  bodyItems : ((bodyGraph g body els after init cond).addAll b.items).Le G
  turn : (((bodyGraph g body els after init cond).addAll b.items).add
    (.emit (.condBr again body after))).Le G
  elseItems : ((loopElseGraph g body els after init cond b again).addAll e.items).Le G
  elseEnd : (((loopElseGraph g body els after init cond b again).addAll e.items).add
    (.emit (.br after))).Le G

theorem loopLe {body els after : L} {init b e : Code L I C} {cond again : C}
    (h : (g.addAll (loop body els after init cond b again e).items).Le G) :
    LoopLe G g body els after init cond b again e := by
  rw [addAll_loop] at h
  have h₃ : ((loopElseGraph g body els after init cond b again).addAll e.items).Le G :=
    (Graph.le_addAll _ _).trans h
  have h₂ : (loopElseGraph g body els after init cond b again).Le G :=
    (Graph.le_addAll _ _).trans h₃
  have h₁ : ((bodyGraph g body els after init cond).addAll b.items).Le G :=
    (Graph.le_addAll _ _).trans h₂
  have h₀ : (bodyGraph g body els after init cond).Le G := (Graph.le_addAll _ _).trans h₁
  exact ⟨(Graph.le_addAll _ _).trans h₀, h₀, h₁, h₂, h₃, h⟩

theorem leads_loop {body els after : L} {init b e : Code L I C} {cond again : C}
    (hi : AllLead G σ init) (hb : AllLead G σ b) (he : AllLead G σ e) :
    AllLead G σ (loop body els after init cond b again e) := by
  intro g l m o h hle hexec
  obtain ⟨hpi, hpb, hpe, -, hlast⟩ := h.loop init.fills b.fills e.fills
  have hle := loopLe hle
  rw [addAll_loop] at hlast
  have hcurrent := init.current_items hpi.current
  cases hexec with
  | returned h => exact hi hpi hle.initItems h
  | @next m₁ _ h₁ h₂ =>
    have hinit : Reaches G σ (G.point g l m) _ := hi hpi hle.initItems h₁
    split_ifs at h₂ with hc
    · refine leads_iterates hb hpb hle.bodyItems hle.turn (by rw [addAll_loop]; exact hlast) rfl
        h₂ ?_
      exact hinit.trans (reaches_condBr hcurrent hle.branch (if_pos hc) hpb.empty)
    · refine (he hpe.toPlaced hle.elseItems h₂).wrap
        (hinit.trans (reaches_condBr hcurrent hle.branch (if_neg hc) hpe.empty)) fun m' => ?_
      rw [addAll_loop]
      exact reaches_br (e.current_items hpe.current) hle.elseEnd hlast

/-- The graph that is built runs as the code says. -/
theorem leads (c : Code L I C) : AllLead G σ c := by
  induction c with
  | skip =>
    intro g l m o _ _ hexec
    cases hexec
    exact .refl
  | op i => exact leads_op i
  | seq c d ihc ihd => exact leads_seq ihc ihd
  | check cond success fail => exact leads_check
  | ite cond t e m ct ce iht ihe => exact leads_ite iht ihe
  | loop body els after init cond b again e ihi ihb ihe => exact leads_loop ihi ihb ihe

/-! ## Functions -/

/-- The calls that build a function: an entry block, its code, and a return instruction. -/
def function (entry : L) (c : Code L I C) : List (Item L I C) :=
  [.create entry true, .place entry] ++ c.items ++ [.emit .ret]

section

variable {entry : L} (c : Code L I C) (h : (entry :: c.labels).Nodup)

include h

theorem placed_entry : c.Placed (Graph.empty.addAll [.create entry true, .place entry]) entry :=
  ⟨rfl, h, fun _ _ => rfl, unterminated_nil⟩

omit h in
theorem build_function : Graph.build (function entry c) =
    ((Graph.empty.addAll [.create entry true, .place entry]).addAll c.items).add (.emit .ret) := by
  simp only [Graph.build, function, Graph.addAll_append]
  rfl

/-- Every block of a function is attached once and has one terminator. -/
theorem complete_function : (Graph.build (function entry c)).Complete := by
  have hS := AllFill.seals c.fills (c.placed_entry h) (t := .ret) nofun
  have hcreated := (c.created_items (Graph.empty.addAll [.create entry true, .place entry]))
  have hattached := (c.attached_items (Graph.empty.addAll [.create entry true, .place entry]))
  have hcurrent := c.current_items (c.placed_entry h).current
  have hemit : ∀ g : Graph L I C, (g.add (.emit .ret)).created = g.created ∧
      (g.add (.emit .ret)).attached = g.attached := by
    intro g
    cases hc : g.current <;> simp [Graph.add, hc]
  rw [build_function]
  refine ⟨?_, ?_, fun l hl => ?_⟩
  · rw [(hemit _).1]
    exact hcreated.symm.nodup h
  · rw [(hemit _).1, (hemit _).2]
    exact hattached.trans hcreated.symm
  · rw [(hemit _).1] at hl
    exact hS.terminated l (hcreated.mem_iff.1 hl)

/-- A function runs as its code and then returns. -/
theorem halts_function (hexec : c.Exec σ m o) :
    Halts (Graph.build (function entry c)) σ
      ⟨entry, (Graph.build (function entry c)).code entry, m⟩ o.state := by
  have hp := c.placed_entry h
  have hcurrent := c.current_items hp.current
  have hle : ((Graph.empty.addAll [.create entry true, .place entry]).addAll c.items).Le
      (Graph.build (function entry c)) := build_function c ▸ Graph.le_add _ _
  have hlead := c.leads hp hle hexec
  cases o with
  | returned m' => exact hlead
  | next m' =>
    have hret : (((Graph.empty.addAll [.create entry true, .place entry]).addAll c.items).add
        (.emit .ret)).Le (Graph.build (function entry c)) := by
      rw [build_function]
      exact .refl _
    refine Reaches.halts hlead ?_
    rw [Graph.point_emit hcurrent hret]
    exact ⟨_, _, .refl⟩

end

end Code

end Cfg
