import B2.Passes.VariablePasses
import B2.Render.Scoping

/-!
# Includes and loop scopes

Rendering the tree that takes the place of an include block should be rendering
the included file with its free variables standing for what the include block
inserts for them. A loop variable of the file should keep its loop, and an
inserted variable should keep its meaning in the including template
(`RespectsBinders`).

The passes replace the loop variables of the file as well, put the inserted
expression under the loops of the file as it is, and clone it with null
arguments added to its method calls. `respectsBinders_iff` says for which
occurrences this goes well (`Fits`).
-/

namespace B2

/-! ## What an include should mean -/

/-- The expression an include block means for a variable of its file. -/
def inserted (scope : Option Expression) (M : StringExpressionMap) (x : Text) :
    Option Expression :=
  match scope with
  | some s => some (.getAttribute s x)
  | none => M.find x

section

variable (scope : Option Expression) (M : StringExpressionMap)

/-- A reference of the file in the resolved tree: inserted variables are those outside. -/
def insertedMeaning : Ref → Expr Ref
  | .free x =>
    match inserted scope M x with
    | some e => e.map .free
    | none => .variableReference (.free x)
  | r => .variableReference r

/-- A reference of `B` that no loop of `B` binds. -/
def AST.FreeIn (x : Text) (B : AST) : Prop :=
  ∃ p ∈ B.expressionsIn [], x ∈ p.2.references ∧ ¬Bound p.1 x

/-- The include block gives an expression for every free variable of its file. -/
def Covers (B : AST) : Prop := ∀ x, B.FreeIn x → ∃ e, inserted scope M x = some e

/-- The include of `B` under the name `name` substitutes free variables and nothing else. -/
structure RespectsBinders (ctx : IncludeContext) (name : Text) (B : AST) : Prop where
  /-- a variable is only missed when a free variable of the file is not given -/
  missing : ∀ file x, ctx.Outcome (.includeBlock name scope M)
      (.error (.missingVariableReference file x)) →
    ∃ y, B.FreeIn y ∧ inserted scope M y = none
  /-- the resolved tree has the meaning of the file, variable by variable and in its output -/
  resolved : Covers scope M B → ∃ r, ctx.Outcome (.includeBlock name scope M) (.ok r) ∧
    r.meanings = B.meanings.map (·.bind (insertedMeaning scope M)) ∧
    ∀ (V : Type) (W : World V) (undefinedCheck : Bool) (E : Text → Option V),
      W.render undefinedCheck E r =
        W.render undefinedCheck (fun x => (inserted scope M x).bind (W.eval E)) B

/-- An occurrence of `x` under the loops `S` for which the passes do what is meant: no method
call with arguments is inserted, a loop variable is given by itself, and no loop around a free
variable binds a variable of what is inserted for it. -/
def Fits (S : Scope) (x : Text) : Prop :=
  ∃ e, inserted scope M x = some e ∧ e.ArgumentFree ∧
    if Bound S x then e = .variableReference x else ∀ y ∈ e.references, ¬Bound S y

/-- Every occurrence of a variable in the file fits. -/
def OccurrencesFit (B : AST) : Prop :=
  ∀ p ∈ B.expressionsIn [], ∀ x ∈ p.2.references, Fits scope M p.1 x

end

/-! ## One occurrence -/

section

variable {scope : Option Expression} {M : StringExpressionMap}

theorem insertion_eq (ctx : IncludeContext) (name x : Text) :
    ctx.insertion name scope M x =
      match inserted scope M x with
      | some e => e.clone
      | none => .error (.missingVariableReference (ctx.resolvePath name) x) := by
  cases scope with
  | some s => rfl
  | none =>
    simp only [IncludeContext.insertion, inserted]
    cases M.find x <;> rfl

/-- The clone put in the place of an occurrence means what it should exactly when it fits. -/
theorem map_resolveName_clone_iff {S : Scope} {x : Text} {e e' : Expression}
    (he : inserted scope M x = some e) (hclone : e.clone = .ok e') :
    e'.map (resolveName S) = insertedMeaning scope M (resolveName S x) ↔ Fits scope M S x := by
  have hfits : Fits scope M S x ↔ e.ArgumentFree ∧
      if Bound S x then e = .variableReference x else ∀ y ∈ e.references, ¬Bound S y := by
    simp [Fits, he]
  rw [hfits]
  by_cases hb : Bound S x
  · have hm : insertedMeaning scope M (resolveName S x) =
        .variableReference (resolveName S x) := by
      cases hr : resolveName S x with
      | free y => exact absurd hb (resolveName_eq_free_iff.1 hr).2
      | key n => rfl
      | value n => rfl
    rw [hm, if_pos hb]
    constructor
    · intro h
      cases e' <;> simp only [Expr.map, Expr.variableReference.injEq, reduceCtorEq] at h
      rw [resolveName_inj h] at hclone
      have := Expr.clone_eq_variableReference hclone
      subst this
      exact ⟨trivial, rfl⟩
    · rintro ⟨-, rfl⟩
      cases hclone
      rfl
  · have hm : insertedMeaning scope M (resolveName S x) = e.map .free := by
      rw [resolveName_of_not_bound hb, insertedMeaning, he]
    rw [hm, if_neg hb]
    have hfree : ∀ y, resolveName S y = .free y ↔ ¬Bound S y := fun y => by
      simp [resolveName_eq_free_iff]
    constructor
    · intro h
      have hcount : e'.argumentCount = e.argumentCount := by
        rw [← Expr.argumentCount_map (resolveName S), h, Expr.argumentCount_map]
      have hargs := (Expr.argumentCount_clone e e' hclone).2 hcount
      rw [Expr.clone_of_argumentFree e hargs] at hclone
      cases hclone
      exact ⟨hargs, fun y hy => (hfree y).1 (Expr.map_eq_map_iff.1 h y hy)⟩
    · rintro ⟨hargs, h⟩
      rw [Expr.clone_of_argumentFree e hargs] at hclone
      cases hclone
      exact Expr.map_eq_map_iff.2 fun y hy => (hfree y).2 (h y hy)

/-- What the passes put in the place of an occurrence that fits. -/
theorem insertion_of_fits (ctx : IncludeContext) (name : Text) {S : Scope} {x : Text}
    (h : Fits scope M S x) :
    ∃ e, inserted scope M x = some e ∧ ctx.insertion name scope M x = .ok e := by
  obtain ⟨e, he, hargs, -⟩ := h
  refine ⟨e, he, ?_⟩
  rw [insertion_eq, he]
  exact Expr.clone_of_argumentFree e hargs

/-! ## The output -/

/-- Under the loops `S` of the file: `ρ` for the resolved tree and `ρB` for the file agree on
the loop variables; outside them `ρ` is the data and `ρB` what is inserted. -/
structure Agree {V : Type} (W : World V) (scope : Option Expression) (M : StringExpressionMap)
    (E : Text → Option V) (S : Scope) (ρ ρB : Text → Option V) : Prop where
  outside : ∀ y, ¬Bound S y → ρ y = E y
  file : ∀ x, ρB x = if Bound S x then ρ x else (inserted scope M x).bind (W.eval E)

section

variable {V : Type} {W : World V} {E : Text → Option V} {S : Scope} {ρ ρB : Text → Option V}

theorem Agree.bindLoop (h : Agree W scope M E S ρ ρB) (k v : Option Text) (key value : V) :
    Agree W scope M E ((k, v) :: S) (World.bindLoop k v key value ρ)
      (World.bindLoop k v key value ρB) := by
  refine ⟨fun y hy => ?_, fun x => ?_⟩
  · rw [bound_cons, not_or, not_or] at hy
    rw [World.bindLoop, if_neg hy.1.2, if_neg hy.1.1, h.outside y hy.2]
  · simp only [World.bindLoop, bound_cons, h.file x]
    by_cases hv : v = some x
    · simp [hv]
    · by_cases hk : k = some x
      · simp [hv, hk]
      · simp [hv, hk]

/-- An expression whose references fit has the value it has in the file. -/
theorem eval_substitute {ctx : IncludeContext} {name : Text} {e e' : Expression}
    (h : Agree W scope M E S ρ ρB) (hproper : e.Proper)
    (hfits : ∀ x ∈ e.references, Fits scope M S x)
    (he : e.substitute (ctx.insertion name scope M) = .ok e') : W.eval ρ e' = W.eval ρB e := by
  rcases Expr.substitute_cases e hproper with ⟨hs, -⟩ | ⟨err, hs, -⟩
  · rw [hs] at he
    cases he
    rw [World.eval_bind]
    refine World.eval_congr fun x hx => ?_
    obtain ⟨e, hi, hg⟩ := insertion_of_fits ctx name (hfits x hx)
    obtain ⟨e₁, hi₁, -, hscope⟩ := hfits x hx
    rw [hi] at hi₁
    cases hi₁
    rw [Expr.replacement, hg, h.file x, hi]
    split_ifs at hscope ⊢
    · rw [hscope]
      rfl
    · exact World.eval_congr fun y hy => h.outside y (hscope y hy)
  · rw [hs] at he
    cases he

end

/-- The output of the resolved tree is that of the file under the inserted values. -/
theorem render_mapExpressions {ctx : IncludeContext} {name : Text} {V : Type} {W : World V}
    {undefinedCheck : Bool} {E : Text → Option V} (a : AST) :
    ∀ (a' : AST) (S : Scope) (ρ ρB : Text → Option V),
      (a.mapExpressions fun e => e.substitute (ctx.insertion name scope M)) = .ok a' →
      a.IncludeFree → (∀ p ∈ a.expressionsIn S, p.2.Proper) →
      (∀ p ∈ a.expressionsIn S, ∀ x ∈ p.2.references, Fits scope M p.1 x) →
      Agree W scope M E S ρ ρB →
        W.render undefinedCheck ρ a' = W.render undefinedCheck ρB a := by
  induction a with
  | statements l ih =>
    intro a' S ρ ρB h hfree hp hf hagree
    simp only [AST.mapExpressions, bind_eq_ok, pure_eq_ok] at h
    obtain ⟨l', hl, rfl⟩ := h
    rw [World.render_fromStatementsArray, World.render]
    simp only [AST.expressionsIn, AST.IncludeFree] at hfree hp hf
    induction l generalizing l' with
    | nil => cases hl; rfl
    | cons s l ihl =>
      simp only [AST.mapStatements, bind_eq_ok, pure_eq_ok] at hl
      obtain ⟨s', hs, l'', hl, rfl⟩ := hl
      simp only [AST.expressionsInList, List.mem_append, or_imp, forall_and] at hp hf
      rw [World.renderList_append, World.renderList_asStatements, World.renderList,
        ih s List.mem_cons_self s' S ρ ρB hs hfree.1 hp.1 hf.1 hagree,
        ihl (fun s h => ih s (List.mem_cons_of_mem _ h)) hfree.2 hp.2 hf.2 l'' hl]
  | rawBlock t =>
    intro a' S ρ ρB h _ _ _ _
    cases h
    rfl
  | includeBlock n s M' => intro a' S ρ ρB _ hfree; cases hfree
  | printBlock e =>
    intro a' S ρ ρB h _ hp hf hagree
    simp only [AST.mapExpressions, bind_eq_ok, pure_eq_ok] at h
    obtain ⟨e', he, rfl⟩ := h
    simp only [AST.expressionsIn, List.mem_singleton, forall_eq] at hp hf
    rw [World.render, World.render, eval_substitute hagree hp hf he]
  | ifBlock c t e iht ihe =>
    intro a' S ρ ρB h hfree hp hf hagree
    cases e with
    | none =>
      simp only [AST.mapExpressions, bind_eq_ok, pure_eq_ok] at h
      obtain ⟨c', hc, t', ht, rfl⟩ := h
      simp only [AST.expressionsIn, List.forall_mem_cons] at hp hf
      rw [World.render, World.render, eval_substitute hagree hp.1 hf.1 hc,
        iht t' S ρ ρB ht hfree hp.2 hf.2 hagree]
    | some e =>
      simp only [AST.mapExpressions, bind_eq_ok, pure_eq_ok] at h
      obtain ⟨c', hc, t', ht, e', he, rfl⟩ := h
      simp only [AST.expressionsIn, List.forall_mem_cons, List.mem_append, or_imp,
        forall_and] at hp hf
      rw [World.render, World.render, eval_substitute hagree hp.1 hf.1 hc,
        iht t' S ρ ρB ht hfree.1 hp.2.1 hf.2.1 hagree,
        ihe e rfl e' S ρ ρB he hfree.2 hp.2.2 hf.2.2 hagree]
  | forBlock k v i b e ihb ihe =>
    intro a' S ρ ρB h hfree hp hf hagree
    cases e with
    | none =>
      simp only [AST.mapExpressions, bind_eq_ok, pure_eq_ok] at h
      obtain ⟨i', hi, b', hb, rfl⟩ := h
      simp only [AST.expressionsIn, List.forall_mem_cons] at hp hf
      have hbody := fun key value => ihb b' _ _ _ hb hfree hp.2 hf.2
        (hagree.bindLoop k v key value)
      simp only [World.render, eval_substitute hagree hp.1 hf.1 hi, hbody]
    | some e =>
      simp only [AST.mapExpressions, bind_eq_ok, pure_eq_ok] at h
      obtain ⟨i', hi, b', hb, e', he, rfl⟩ := h
      simp only [AST.expressionsIn, List.forall_mem_cons, List.mem_append, or_imp,
        forall_and] at hp hf
      have hbody := fun key value => ihb b' _ _ _ hb hfree.1 hp.2.1 hf.2.1
        (hagree.bindLoop k v key value)
      simp only [World.render, eval_substitute hagree hp.1 hf.1 hi, hbody,
        ihe e rfl e' S ρ ρB he hfree.2 hp.2.2 hf.2.2 hagree]

end

/-! ## Merged statement lists -/

namespace AST

theorem includeFreeList_append {l l' : List AST} :
    IncludeFreeList (l ++ l') ↔ IncludeFreeList l ∧ IncludeFreeList l' := by
  induction l with
  | nil => simp [IncludeFreeList]
  | cons s l ih => simp [IncludeFreeList, ih, and_assoc]

theorem includeFree_fromStatementsArray {l : List AST} :
    (fromStatementsArray l).IncludeFree ↔ IncludeFreeList l := by
  match l with
  | [] => rfl
  | [s] => simp [fromStatementsArray, IncludeFreeList]
  | s :: s' :: l => rfl

theorem includeFreeList_asStatements {a : AST} : IncludeFreeList a.asStatements ↔ a.IncludeFree := by
  cases a <;> simp [asStatements, IncludeFreeList, IncludeFree]

/-- Merging keeps the expressions, the output and the absence of include blocks. -/
structure SameTree (a b : AST) : Prop where
  expressions : ∀ S : Scope, b.expressionsIn S = a.expressionsIn S
  includeFree : a.IncludeFree → b.IncludeFree
  output : ∀ {V : Type} (W : World V) (undefinedCheck : Bool) (ρ : Text → Option V),
    W.render undefinedCheck ρ b = W.render undefinedCheck ρ a

theorem merged_sameTree (a : AST) : a.SameTree a.merged := by
  induction a with
  | statements l ih =>
    refine ⟨fun S => ?_, fun h => ?_, fun W u ρ => ?_⟩
    · rw [merged, expressionsIn_fromStatementsArray, expressionsIn]
      induction l with
      | nil => rfl
      | cons s l ihl =>
        rw [mergedList, expressionsInList_append, expressionsInList_asStatements,
          (ih s List.mem_cons_self).expressions, ihl fun s h => ih s (List.mem_cons_of_mem _ h)]
        rfl
    · rw [merged, includeFree_fromStatementsArray]
      simp only [IncludeFree] at h
      induction l with
      | nil => trivial
      | cons s l ihl =>
        exact includeFreeList_append.2 ⟨includeFreeList_asStatements.2
          ((ih s List.mem_cons_self).includeFree h.1),
          ihl (fun s h => ih s (List.mem_cons_of_mem _ h)) h.2⟩
    · rw [merged, World.render_fromStatementsArray, World.render]
      induction l with
      | nil => rfl
      | cons s l ihl =>
        rw [mergedList, World.renderList_append, World.renderList_asStatements,
          (ih s List.mem_cons_self).output, ihl fun s h => ih s (List.mem_cons_of_mem _ h)]
        rfl
  | rawBlock _ | printBlock _ | includeBlock _ _ _ =>
    exact ⟨fun _ => rfl, fun h => h, fun _ _ _ => rfl⟩
  | ifBlock c t e iht ihe =>
    cases e with
    | none =>
      refine ⟨fun S => ?_, fun h => iht.includeFree h, fun W u ρ => ?_⟩
      · simp only [merged, expressionsIn, iht.expressions]
      · simp only [merged, World.render, iht.output]
    | some e =>
      have ihe := ihe e rfl
      refine ⟨fun S => ?_, fun h => ⟨iht.includeFree h.1, ihe.includeFree h.2⟩, fun W u ρ => ?_⟩
      · simp only [merged, expressionsIn, iht.expressions, ihe.expressions]
      · simp only [merged, World.render, iht.output, ihe.output]
  | forBlock k v i b e ihb ihe =>
    cases e with
    | none =>
      refine ⟨fun S => ?_, fun h => ihb.includeFree h, fun W u ρ => ?_⟩
      · simp only [merged, expressionsIn, ihb.expressions]
      · simp only [merged, World.render, ihb.output]
    | some e =>
      have ihe := ihe e rfl
      refine ⟨fun S => ?_, fun h => ⟨ihb.includeFree h.1, ihe.includeFree h.2⟩, fun W u ρ => ?_⟩
      · simp only [merged, expressionsIn, ihb.expressions, ihe.expressions]
      · simp only [merged, World.render, ihb.output, ihe.output]

end AST

/-! ## The whole include -/

/-- Lists related one by one with equal images are equal element by element. -/
theorem forall₂_map_eq {α β γ : Type} {R : α → β → Prop} {f : β → γ} {g : α → γ} {l : List α}
    {l' : List β} (h : List.Forall₂ R l l') (he : l'.map f = l.map g) :
    ∀ a ∈ l, ∃ b, R a b ∧ f b = g a := by
  induction h with
  | nil => simp
  | cons hab _ ih =>
    simp only [List.map_cons, List.cons.injEq] at he
    intro a ha
    rcases List.mem_cons.1 ha with rfl | ha
    · exact ⟨_, hab, he.1⟩
    · exact ih he.2 a ha

theorem map_eq_of_forall₂ {α β γ : Type} {R : α → β → Prop} {f : β → γ} {g : α → γ}
    {l : List α} {l' : List β} (h : List.Forall₂ R l l') (he : ∀ a ∈ l, ∀ b, R a b → f b = g a) :
    l'.map f = l.map g := by
  induction h with
  | nil => rfl
  | cons hab _ ih =>
    simp only [List.map_cons, he _ List.mem_cons_self _ hab,
      ih fun a ha => he a (List.mem_cons_of_mem _ ha)]

section

variable {ctx : IncludeContext} {name : Text} {scope : Option Expression}
  {M : StringExpressionMap}

/-- One expression of the file means what it should exactly when its references fit. -/
theorem substitute_meaning_iff {S : Scope} {e e' : Expression} (hproper : e.Proper)
    (he : e.substitute (ctx.insertion name scope M) = .ok e') :
    e'.map (resolveName S) = (e.map (resolveName S)).bind (insertedMeaning scope M) ↔
      ∀ x ∈ e.references, Fits scope M S x := by
  rcases Expr.substitute_cases e hproper with ⟨hs, hrefs⟩ | ⟨err, hs, -⟩
  · rw [hs] at he
    cases he
    rw [Expr.map_eq_bind, Expr.map_eq_bind, Expr.bind_bind, Expr.bind_bind,
      Expr.bind_eq_bind_iff]
    refine forall₂_congr fun x hx => ?_
    obtain ⟨e', hg⟩ := hrefs x hx
    rw [← Expr.map_eq_bind, Expr.replacement, hg]
    rw [insertion_eq] at hg
    cases hi : inserted scope M x with
    | none => rw [hi] at hg; cases hg
    | some e₀ =>
      rw [hi] at hg
      exact map_resolveName_clone_iff hi hg
  · rw [hs] at he
    cases he

/-- A file all of whose references fit is resolved as it should be. -/
theorem resolved_of_occurrencesFit {B : AST}
    (hparse : ctx.parse (ctx.resolvePath name) = .ok B) (hfree : B.IncludeFree)
    (hproper : B.Proper) (hfits : OccurrencesFit scope M B) :
    ∃ r, ctx.Outcome (.includeBlock name scope M) (.ok r) ∧
      r.meanings = B.meanings.map (·.bind (insertedMeaning scope M)) ∧
      ∀ (V : Type) (W : World V) (undefinedCheck : Bool) (E : Text → Option V),
        W.render undefinedCheck E r =
          W.render undefinedCheck (fun x => (inserted scope M x).bind (W.eval E)) B := by
  have hB := AST.merged_sameTree B
  have hproper := hproper.expressionsIn B []
  have hout : ctx.Outcome (.includeBlock name scope M) _ := ctx.outcome_includeBlock hparse hfree
  cases hr : B.merged.mapExpressions fun e => e.substitute (ctx.insertion name scope M) with
  | error err =>
    exfalso
    obtain ⟨p, hp, he⟩ := AST.mapExpressions_eq_error B.merged [] (hB.includeFree hfree) hr
    rw [hB.expressions] at hp
    rcases Expr.substitute_cases p.2 (hproper p hp) with ⟨hs, -⟩ | ⟨err', hs, x, hx, hg⟩
    · rw [he] at hs
      cases hs
    · obtain ⟨e, -, hg'⟩ := insertion_of_fits ctx name (hfits p hp x hx)
      rw [hg'] at hg
      cases hg
  | ok r =>
    rw [hr] at hout
    refine ⟨r, hout, ?_, fun V W undefinedCheck E => ?_⟩
    · have hall := AST.mapExpressions_expressionsIn B.merged r [] hr
      rw [hB.expressions] at hall
      rw [AST.meanings, AST.meanings, List.map_map]
      refine map_eq_of_forall₂ hall fun p hp p' hpp => ?_
      rw [hpp.1]
      exact (substitute_meaning_iff (hproper p hp) hpp.2).2 (hfits p hp)
    · rw [← hB.output]
      refine render_mapExpressions (E := E) B.merged r [] E _ hr (hB.includeFree hfree) ?_ ?_ ?_
      · rw [hB.expressions]
        exact hproper
      · rw [hB.expressions]
        exact hfits
      · exact ⟨fun _ _ => rfl, fun x => by simp [Bound]⟩

/-- The include of a file respects its binders exactly when, if every free variable of the
file is given, every occurrence of a variable fits. -/
theorem respectsBinders_iff {B : AST} (hparse : ctx.parse (ctx.resolvePath name) = .ok B)
    (hfree : B.IncludeFree) (hproper : B.Proper) :
    RespectsBinders scope M ctx name B ↔ (Covers scope M B → OccurrencesFit scope M B) := by
  have hB := AST.merged_sameTree B
  constructor
  · intro h hcovers
    have hproper := hproper.expressionsIn B []
    obtain ⟨r, hout, hmeaning, -⟩ := h.resolved hcovers
    have hr := (ctx.outcome_includeBlock hparse hfree).unique hout
    have hall := AST.mapExpressions_expressionsIn B.merged r [] hr
    rw [hB.expressions] at hall
    rw [AST.meanings, AST.meanings, List.map_map] at hmeaning
    intro p hp
    obtain ⟨p', ⟨hscope, he⟩, hmap⟩ := forall₂_map_eq hall hmeaning p hp
    rw [hscope] at hmap
    exact (substitute_meaning_iff (hproper p hp) he).1 hmap
  · intro h
    refine ⟨fun file x hmissing => ?_, fun hcovers =>
      resolved_of_occurrencesFit hparse hfree hproper (h hcovers)⟩
    by_contra hnone
    have hcovers : Covers scope M B := fun y hy =>
      Option.ne_none_iff_exists'.1 fun hy' => hnone ⟨y, hy, hy'⟩
    obtain ⟨r, hout, -⟩ := resolved_of_occurrencesFit hparse hfree hproper (h hcovers)
    have := hout.unique hmissing
    cases this

end

/-- `{{ x }}`. -/
def printX : AST := .printBlock (.variableReference "x".toList)

/-- `{% for x in xs %}{{ x }}{% endfor %}`. -/
def loopX : AST := .forBlock none (some "x".toList) (.variableReference "xs".toList) printX none

/-- The loop included with `xs=items` and `x=x`, which stands for the loop variable. -/
theorem respectsBinders_loopX :
    RespectsBinders none ((StringExpressionMap.empty.insert "xs".toList
      (.variableReference "items".toList)).insert "x".toList (.variableReference "x".toList))
      ⟨"t".toList, fun _ => .ok loopX⟩ "f".toList loopX := by
  have hfree : loopX.IncludeFree := trivial
  have hproper : loopX.Proper := by simp [loopX, printX, AST.Proper, AST.Everywhere, Expr.Proper]
  refine (respectsBinders_iff rfl hfree hproper).2 fun _ p hp x hx => ?_
  simp only [loopX, printX, AST.expressionsIn, List.mem_cons, List.not_mem_nil, or_false] at hp
  rcases hp with rfl | rfl
  · rw [List.mem_singleton.1 hx]
    exact ⟨.variableReference "items".toList, rfl, trivial, by simp [Bound]⟩
  · rw [List.mem_singleton.1 hx]
    exact ⟨.variableReference "x".toList, rfl, trivial, by simp [Bound]⟩

/-- The loop included with `xs=items`, its only free variable: the loop variable is missed. -/
theorem not_respectsBinders_loopX :
    ¬RespectsBinders none (StringExpressionMap.empty.insert "xs".toList
      (.variableReference "items".toList)) ⟨"t".toList, fun _ => .ok loopX⟩ "f".toList loopX := by
  intro h
  have hcovers : Covers none (StringExpressionMap.empty.insert "xs".toList
      (.variableReference "items".toList)) loopX := by
    rintro x ⟨p, hp, hx, hfree⟩
    simp only [loopX, printX, AST.expressionsIn, List.mem_cons, List.not_mem_nil, or_false] at hp
    rcases hp with rfl | rfl
    · rw [List.mem_singleton.1 hx]
      exact ⟨_, rfl⟩
    · rw [List.mem_singleton.1 hx] at hfree
      exact absurd (by decide) hfree
  obtain ⟨r, hr, -⟩ := h.resolved hcovers
  have := hr.unique (IncludeContext.outcome_includeBlock _ rfl trivial)
  cases this

end B2
