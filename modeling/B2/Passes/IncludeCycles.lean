import B2.Passes.ResolveIncludes
import Mathlib.Data.Fintype.Card
import Mathlib.Data.Set.Finite.Basic

/-!
# Include cycles

When include resolution comes to an end. The walker is stable in the bound on
its nested calls (`process_stable`), so a tree has one outcome, and the outcome
`outOfFuel` means that the walk never ends. A file enters another one when its
walk gets as far as the include: the includes before it were resolved. The walk
of a file ends exactly if no chain of entered files comes back to a file it has
passed (`ends_iff`).
-/

namespace B2

open Relation (ReflTransGen TransGen)

/-! ## Chains in a finite relation -/

/-- In a relation with finitely many sources, a chain is finite unless it comes back. -/
theorem acc_iff_no_cycle {α : Type} {r : α → α → Prop} (hfin : {a | ∃ b, r a b}.Finite) {a : α} :
    Acc (fun b a => r a b) a ↔ ∀ b, ReflTransGen r a b → ¬TransGen r b b := by
  constructor
  · intro hacc b hab hbb
    have hb : Acc (fun b a => r a b) b := by
      clear hbb
      induction hab with
      | refl => exact hacc
      | tail _ hbc ih => exact ih.inv hbc
    induction hb with
    | intro b _ ih =>
      obtain ⟨c, hbc, hcb⟩ := TransGen.head'_iff.1 hbb
      exact ih c hbc (hab.tail hbc) (TransGen.tail' hcb hbc)
  · intro h
    let S := {b // ReflTransGen r a b ∧ ∃ c, r b c}
    let R : S → S → Prop := fun c b => TransGen r b.1 c.1
    have : Finite S := (hfin.subset fun b hb => hb.2).to_subtype
    have : IsTrans S R := ⟨fun _ _ _ h₁ h₂ => h₂.trans h₁⟩
    have : Std.Irrefl R := ⟨fun b => h b.1 b.2.1⟩
    have hwf : WellFounded R := Finite.wellFounded_of_trans_of_irrefl R
    have hall : ∀ b : S, Acc (fun b a => r a b) b.1 := by
      intro b
      induction b using hwf.induction with
      | _ b ih =>
        refine ⟨b.1, fun c hbc => ?_⟩
        by_cases hc : ∃ d, r c d
        · exact ih ⟨c, b.2.1.tail hbc, hc⟩ (.single hbc)
        · exact ⟨c, fun d hd => absurd ⟨d, hd⟩ hc⟩
    by_cases ha : ∃ b, r a b
    · exact hall ⟨a, .refl, ha⟩
    · exact ⟨a, fun b hb => absurd ⟨b, hb⟩ ha⟩

/-! ## Include blocks in the order of the walk -/

/-- The fields of an `IncludeBlockAST`. -/
structure IncludeBlock where
  includeName : Text
  scope : Option Expression
  variableMapping : StringExpressionMap

namespace AST

mutual

/-- The include blocks of a tree in the order the walker meets them. -/
def includeBlocks : AST → List IncludeBlock
  | .statements l => includeBlocksList l
  | .rawBlock _ | .printBlock _ => []
  | .ifBlock _ t none => t.includeBlocks
  | .ifBlock _ t (some e) => t.includeBlocks ++ e.includeBlocks
  | .forBlock _ _ _ b none => b.includeBlocks
  | .forBlock _ _ _ b (some e) => b.includeBlocks ++ e.includeBlocks
  | .includeBlock name scope M => [⟨name, scope, M⟩]

def includeBlocksList : List AST → List IncludeBlock
  | [] => []
  | s :: l => s.includeBlocks ++ includeBlocksList l

end

end AST

/-- Include blocks resolved one after the other, up to the first error. -/
def resolveAll (f : IncludeBlock → Run AST) : List IncludeBlock → Run Unit
  | [] => .ok ()
  | b :: l => do
    let _ ← f b
    resolveAll f l

theorem resolveAll_append (f : IncludeBlock → Run AST) : ∀ l l' : List IncludeBlock,
    resolveAll f (l ++ l') = do resolveAll f l; resolveAll f l'
  | [], _ => rfl
  | b :: l, l' => by
    rw [List.cons_append, resolveAll, resolveAll]
    cases f b with
    | error err => rfl
    | ok r => exact resolveAll_append f l l'

/-- The error is that of the first block that fails. -/
theorem resolveAll_eq_error {f : IncludeBlock → Run AST} {err : Failure} :
    ∀ {l : List IncludeBlock}, resolveAll f l = .error err ↔
      ∃ pre b post, l = pre ++ b :: post ∧ (∀ p ∈ pre, ∃ r, f p = .ok r) ∧ f b = .error err
  | [] => by simp [resolveAll]
  | b :: l => by
    rw [resolveAll]
    constructor
    · intro h
      cases hb : f b with
      | error err' =>
        rw [hb] at h
        cases h
        exact ⟨[], b, l, rfl, by simp, hb⟩
      | ok r =>
        rw [hb] at h
        obtain ⟨pre, b', post, rfl, hpre, hb'⟩ := resolveAll_eq_error.1 h
        exact ⟨b :: pre, b', post, rfl, List.forall_mem_cons.2 ⟨⟨r, hb⟩, hpre⟩, hb'⟩
    · rintro ⟨pre, b', post, h, hpre, hb'⟩
      cases pre with
      | nil =>
        cases h
        rw [hb']
        rfl
      | cons p pre =>
        cases h
        obtain ⟨⟨r, hr⟩, hpre⟩ := List.forall_mem_cons.1 hpre
        rw [hr]
        exact resolveAll_eq_error.2 ⟨pre, b', post, rfl, hpre, hb'⟩

/-- `f` on an include block, taken apart. -/
def onBlock (f : IncludeBlock → Run AST) (name : Text) (scope : Option Expression)
    (M : StringExpressionMap) : Run AST := f ⟨name, scope, M⟩

/-- Forget the result of a run. -/
def done {α : Type} (x : Run α) : Run Unit := x >>= fun _ => .ok ()

theorem done_eq_error {α : Type} {x : Run α} {err : Failure} :
    done x = .error err ↔ x = .error err := by
  cases x <;> simp [done, bind, Except.bind]

theorem done_pure_bind {α β : Type} (x : Run α) (g : α → β) :
    done (do return g (← x)) = done x := by
  cases x <;> rfl

namespace AST

theorem done_mapIncludesList (f : IncludeBlock → Run AST) : ∀ {l : List AST},
    (∀ s ∈ l, done (s.mapIncludes (onBlock f)) = resolveAll f s.includeBlocks) →
      done (mapIncludesList (onBlock f) l) = resolveAll f (includeBlocksList l)
  | [], _ => rfl
  | s :: l, h => by
    have hl := done_mapIncludesList f fun s' h' => h s' (List.mem_cons_of_mem _ h')
    rw [mapIncludesList, includeBlocksList, resolveAll_append, ← h s List.mem_cons_self, ← hl]
    cases s.mapIncludes (onBlock f) with
    | error err => rfl
    | ok s' => exact done_pure_bind _ _

/-- Whether include blocks can be put in place depends on the blocks alone. -/
theorem done_mapIncludes (f : IncludeBlock → Run AST) (a : AST) :
    done (a.mapIncludes (onBlock f)) = resolveAll f a.includeBlocks := by
  induction a with
  | statements l ih =>
    rw [mapIncludes, includeBlocks, done_pure_bind]
    exact done_mapIncludesList f ih
  | rawBlock _ | printBlock _ => rfl
  | includeBlock name scope M =>
    simp only [mapIncludes, onBlock, includeBlocks, resolveAll]
    rfl
  | ifBlock c t e iht ihe =>
    cases e with
    | none =>
      rw [mapIncludes, includeBlocks, done_pure_bind]
      exact iht
    | some e =>
      rw [mapIncludes, includeBlocks, resolveAll_append, ← iht, ← ihe e rfl]
      cases t.mapIncludes (onBlock f) with
      | error err => rfl
      | ok t' => exact done_pure_bind _ _
  | forBlock k v i b e ihb ihe =>
    cases e with
    | none =>
      rw [mapIncludes, includeBlocks, done_pure_bind]
      exact ihb
    | some e =>
      rw [mapIncludes, includeBlocks, resolveAll_append, ← ihb, ← ihe e rfl]
      cases b.mapIncludes (onBlock f) with
      | error err => rfl
      | ok b' => exact done_pure_bind _ _

end AST

/-! ## The walker and its bound -/

/-- The run was not cut off by its bound. -/
def Finished {α : Type} (x : Run α) : Prop := x ≠ .error .outOfFuel

theorem finished_ok {α : Type} (a : α) : Finished (.ok a : Run α) := nofun

theorem finished_error {α β : Type} {err : Failure} :
    Finished (.error err : Run α) ↔ Finished (.error err : Run β) := by
  simp [Finished]

/-- `y` is the result of `x` unless `x` was cut off. -/
def Settles {α : Type} (x y : Run α) : Prop := Finished x → y = x

theorem Settles.bind {α β : Type} {x y : Run α} {f g : α → Run β} (h : Settles x y)
    (hfg : ∀ a, x = .ok a → Settles (f a) (g a)) : Settles (x >>= f) (y >>= g) := by
  intro hx
  cases x with
  | error err =>
    rw [h (finished_error.1 hx)]
    rfl
  | ok a =>
    rw [h (finished_ok a)]
    exact hfg a rfl hx

theorem Settles.map {α β : Type} {x y : Run α} (h : Settles x y) (f : α → β) :
    Settles (do return f (← x)) (do return f (← y)) := h.bind fun _ _ _ => rfl

theorem Settles.mapM {f g : AST → Run AST} {e : Option AST}
    (h : ∀ b, e = some b → Settles (f b) (g b)) : Settles (e.mapM f) (e.mapM g) := by
  cases e with
  | none => exact fun _ => rfl
  | some b => exact (h b rfl).map some

theorem Settles.spliceStatements {f g : AST → Run AST} : ∀ {l : List AST},
    (∀ s ∈ l, Settles (f s) (g s)) → Settles (spliceStatements f l) (spliceStatements g l)
  | [], _ => fun _ => rfl
  | s :: _, h => (h s List.mem_cons_self).bind fun _ _ =>
    (Settles.spliceStatements fun s' h' => h s' (List.mem_cons_of_mem _ h')).map _

/-- A run that is not cut off gets to a block if those before it give no error. -/
theorem resolveAll_reaches {f : IncludeBlock → Run AST} {pre : List IncludeBlock}
    {b : IncludeBlock} {post : List IncludeBlock}
    (h : Finished (resolveAll f (pre ++ b :: post)))
    (hpre : ∀ p ∈ pre, Finished (f p) → ∃ r, f p = .ok r) : Finished (f b) := by
  induction pre with
  | nil =>
    rw [List.nil_append, resolveAll] at h
    intro hout
    rw [hout] at h
    exact h rfl
  | cons p pre ih =>
    rw [List.cons_append, resolveAll] at h
    have hp : Finished (f p) := by
      intro hout
      rw [hout] at h
      exact h rfl
    obtain ⟨r, hr⟩ := hpre p List.mem_cons_self hp
    rw [hr] at h
    exact ih h fun q hq => hpre q (List.mem_cons_of_mem _ hq)

namespace IncludeContext

variable (ctx : IncludeContext)

/-- `process` on an include block. -/
abbrev resolveBlock (n : Nat) (b : IncludeBlock) : Run AST :=
  ctx.resolveIncludesPass.process n (.includeBlock b.includeName b.scope b.variableMapping)

/-- A larger bound changes a run only if the smaller one cut it off. -/
theorem process_stable : ∀ (n : Nat) (a : AST),
    Settles (ctx.resolveIncludesPass.process n a) (ctx.resolveIncludesPass.process (n + 1) a) := by
  intro n
  induction n with
  | zero => exact fun a h => absurd rfl h
  | succ n ih =>
    intro a
    cases a with
    | rawBlock _ | printBlock _ => exact fun _ => rfl
    | includeBlock name scope M =>
      rw [process_includeBlock, process_includeBlock, included, included]
      exact Settles.bind (fun _ => rfl) fun a _ => (ih a).bind fun _ _ _ => rfl
    | statements _ => exact (Settles.spliceStatements fun s _ => ih s).map _
    | ifBlock c t e =>
      exact (ih t).bind fun _ _ => (Settles.mapM fun b _ => ih b).map _
    | forBlock k v i b e =>
      exact (ih b).bind fun _ _ => (Settles.mapM fun b _ => ih b).map _

theorem process_le {n m : Nat} (h : n ≤ m) (a : AST) :
    Settles (ctx.resolveIncludesPass.process n a) (ctx.resolveIncludesPass.process m a) := by
  induction h with
  | refl => exact fun _ => rfl
  | step _ ih =>
    intro hx
    have heq := ih hx
    rw [← heq] at hx
    rw [process_stable ctx _ a hx, heq]

/-- A finished walk has put in place what the walks of the include blocks gave. -/
theorem process_settles (N : Nat) (a : AST) : ∀ n ≤ N, Settles
    (ctx.resolveIncludesPass.process n a) (a.mapIncludes (onBlock (ctx.resolveBlock N))) := by
  induction a with
  | rawBlock _ | printBlock _ =>
    rintro (_ | n) _
    · exact fun h => absurd rfl h
    · exact fun _ => rfl
  | includeBlock name scope M => exact fun n hn => process_le ctx hn _
  | statements l ih =>
    rintro (_ | n) hn
    · exact fun h => absurd rfl h
    have hl : Settles (spliceStatements (ctx.resolveIncludesPass.process n) l)
        (AST.mapIncludesList (onBlock (ctx.resolveBlock N)) l) := by
      have hs : ∀ s ∈ l, Settles (ctx.resolveIncludesPass.process n s)
          (s.mapIncludes (onBlock (ctx.resolveBlock N))) :=
        fun s hs => ih s hs n (Nat.le_of_succ_le hn)
      clear ih
      induction l with
      | nil => exact fun _ => rfl
      | cons s l ihl =>
        exact (hs s List.mem_cons_self).bind fun _ _ =>
          (ihl fun s' h' => hs s' (List.mem_cons_of_mem _ h')).map _
    exact hl.map _
  | ifBlock c t e iht ihe =>
    rintro (_ | n) hn
    · exact fun h => absurd rfl h
    have hle := Nat.le_of_succ_le hn
    cases e with
    | none => exact (iht n hle).map _
    | some e =>
      refine (iht n hle).bind fun t' _ => ?_
      rw [mapM_some_bind]
      exact (ihe e rfl n hle).map _
  | forBlock k v i b e ihb ihe =>
    rintro (_ | n) hn
    · exact fun h => absurd rfl h
    have hle := Nat.le_of_succ_le hn
    cases e with
    | none => exact (ihb n hle).map _
    | some e =>
      refine (ihb n hle).bind fun b' _ => ?_
      rw [mapM_some_bind]
      exact (ihe e rfl n hle).map _

/-- Every walk has an outcome, `outOfFuel` if no bound is enough. -/
theorem exists_outcome (a : AST) : ∃ x, ctx.Outcome a x := by
  by_cases h : ∃ n, Finished (ctx.resolveIncludesPass.process n a)
  · obtain ⟨n, hn⟩ := h
    exact ⟨_, n, fun m hm => process_le ctx hm a hn⟩
  · exact ⟨.error .outOfFuel, 0, fun n _ => not_not.1 (not_exists.1 h n)⟩

theorem Outcome.finished_iff {ctx : IncludeContext} {a : AST} {x : Run AST}
    (h : ctx.Outcome a x) :
    Finished x ↔ ∃ n, Finished (ctx.resolveIncludesPass.process n a) := by
  obtain ⟨N, hN⟩ := h
  refine ⟨fun hx => ⟨N, by rwa [hN N le_rfl]⟩, fun ⟨n, hn⟩ => ?_⟩
  have := process_le ctx (Nat.le_max_left n N) a hn
  rw [hN _ (Nat.le_max_right n N)] at this
  rwa [this]

/-- The outcome of a tree from the outcomes of its include blocks. -/
theorem outcome_mapIncludes {g : IncludeBlock → Run AST}
    (hg : ∀ b : IncludeBlock,
      ctx.Outcome (.includeBlock b.includeName b.scope b.variableMapping) (g b)) (a : AST) :
    ctx.Outcome a (a.mapIncludes (onBlock g)) := by
  induction a with
  | rawBlock _ | printBlock _ =>
    refine ⟨1, fun n hn => ?_⟩
    obtain ⟨n, rfl⟩ := Nat.exists_eq_add_of_le' hn
    rfl
  | includeBlock name scope M => exact hg ⟨name, scope, M⟩
  | statements l ih =>
    have hl : ∃ N, ∀ n, N ≤ n → spliceStatements (ctx.resolveIncludesPass.process n) l =
        AST.mapIncludesList (onBlock g) l := by
      induction l with
      | nil => exact ⟨0, fun _ _ => rfl⟩
      | cons s l ihl =>
        obtain ⟨N, hN⟩ := ihl fun s' h' => ih s' (List.mem_cons_of_mem _ h')
        obtain ⟨N', hN'⟩ := ih s List.mem_cons_self
        refine ⟨max N N', fun n hn => ?_⟩
        rw [spliceStatements, AST.mapIncludesList, hN' n (by omega), hN n (by omega)]
    obtain ⟨N, hN⟩ := hl
    refine ⟨N + 1, fun n hn => ?_⟩
    obtain ⟨n, rfl⟩ : ∃ m, n = m + 1 := ⟨n - 1, by omega⟩
    rw [AST.mapIncludes, ← hN n (by omega)]
    rfl
  | ifBlock c t e iht ihe =>
    obtain ⟨N, hN⟩ := iht
    cases e with
    | none =>
      refine ⟨N + 1, fun n hn => ?_⟩
      obtain ⟨n, rfl⟩ : ∃ m, n = m + 1 := ⟨n - 1, by omega⟩
      rw [AST.mapIncludes, ← hN n (by omega)]
      rfl
    | some e =>
      obtain ⟨N', hN'⟩ := ihe e rfl
      refine ⟨max N N' + 1, fun n hn => ?_⟩
      obtain ⟨n, rfl⟩ : ∃ m, n = m + 1 := ⟨n - 1, by omega⟩
      rw [AST.mapIncludes, ← hN n (by omega), ← hN' n (by omega)]
      simp only [ASTPass.process, resolveIncludesPass, pure_bind, mapM_some_bind]
  | forBlock k v i b e ihb ihe =>
    obtain ⟨N, hN⟩ := ihb
    cases e with
    | none =>
      refine ⟨N + 1, fun n hn => ?_⟩
      obtain ⟨n, rfl⟩ : ∃ m, n = m + 1 := ⟨n - 1, by omega⟩
      rw [AST.mapIncludes, ← hN n (by omega)]
      rfl
    | some e =>
      obtain ⟨N', hN'⟩ := ihe e rfl
      refine ⟨max N N' + 1, fun n hn => ?_⟩
      obtain ⟨n, rfl⟩ : ∃ m, n = m + 1 := ⟨n - 1, by omega⟩
      rw [AST.mapIncludes, ← hN n (by omega), ← hN' n (by omega)]
      simp only [ASTPass.process, resolveIncludesPass, pure_bind, mapM_some_bind]

end IncludeContext

/-! ## Rewriting an included tree ends -/

theorem Finished.bind {α β : Type} {x : Run α} {f : α → Run β} (hx : Finished x)
    (hf : ∀ a, Finished (f a)) : Finished (x >>= f) := by
  cases x with
  | error err => exact finished_error.1 hx
  | ok a => exact hf a

theorem Finished.map {α β : Type} {x : Run α} (hx : Finished x) (f : α → β) :
    Finished (do return f (← x)) := hx.bind fun _ => finished_ok _

mutual

theorem finished_clone : ∀ e : Expression, Finished e.clone
  | .variableReference _ | .doubleLiteral _ | .integerLiteral _ | .booleanLiteral _
  | .stringLiteral _ => finished_ok _
  | .getAttribute v _ => (finished_clone v).map _
  | .methodCall _ args => (finished_cloneArguments args).map _
  | .unaryOperation e _ => (finished_clone e).map _
  | .binaryOperation l r _ | .comparison l r _ =>
    (finished_clone l).bind fun _ => (finished_clone r).map _

theorem finished_cloneArguments : ∀ args : List (Option Expression),
    Finished (Expr.cloneArguments args)
  | [] => finished_ok _
  | none :: _ => by simp [Expr.cloneArguments, Finished]
  | some e :: args => (finished_clone e).bind fun _ => (finished_cloneArguments args).map _

end

mutual

theorem finished_substitute {g : Text → Run Expression} (hg : ∀ x, Finished (g x)) :
    ∀ e : Expression, Finished (e.substitute g)
  | .variableReference x => hg x
  | .doubleLiteral _ | .integerLiteral _ | .booleanLiteral _ | .stringLiteral _ => finished_ok _
  | .getAttribute v _ => (finished_substitute hg v).map _
  | .methodCall _ args => (finished_substituteArguments hg args).map _
  | .unaryOperation e _ => (finished_substitute hg e).map _
  | .binaryOperation l r _ | .comparison l r _ =>
    (finished_substitute hg l).bind fun _ => (finished_substitute hg r).map _

theorem finished_substituteArguments {g : Text → Run Expression} (hg : ∀ x, Finished (g x)) :
    ∀ args : List (Option Expression), Finished (Expr.substituteArguments g args)
  | [] => finished_ok _
  | none :: _ => by simp [Expr.substituteArguments, Finished]
  | some e :: args =>
    (finished_substitute hg e).bind fun _ => (finished_substituteArguments hg args).map _

end

section

variable {f : Expression → Run Expression} (hf : ∀ e, Finished (f e))

include hf

theorem finished_mapEntries : ∀ l : List (Text × Expression),
    Finished (StringExpressionMap.mapEntries f l)
  | [] => finished_ok _
  | (_, e) :: l => (hf e).bind fun _ => (finished_mapEntries l).map _

theorem finished_mapExpressions (a : AST) : Finished (a.mapExpressions f) := by
  induction a with
  | statements l ih =>
    have hl : Finished (AST.mapStatements f l) := by
      induction l with
      | nil => exact finished_ok _
      | cons s l ihl =>
        exact (ih s List.mem_cons_self).bind fun _ =>
          (ihl fun s' h' => ih s' (List.mem_cons_of_mem _ h')).map _
    exact hl.map _
  | rawBlock t => exact finished_ok _
  | printBlock e => exact (hf e).map _
  | includeBlock name scope M =>
    have hscope : Finished (scope.mapM f) := by
      cases scope with
      | none => exact finished_ok _
      | some s => exact (hf s).map some
    exact hscope.bind fun _ => ((finished_mapEntries hf M.entries).map _).map _
  | ifBlock c t e iht ihe =>
    cases e with
    | none => exact (hf c).bind fun _ => iht.map _
    | some e => exact (hf c).bind fun _ => iht.bind fun _ => (ihe e rfl).map _
  | forBlock k v i b e ihb ihe =>
    cases e with
    | none => exact (hf i).bind fun _ => ihb.map _
    | some e => exact (hf i).bind fun _ => ihb.bind fun _ => (ihe e rfl).map _

end

theorem IncludeContext.finished_insertion (ctx : IncludeContext) (b : IncludeBlock) (x : Text) :
    Finished (ctx.insertion b.includeName b.scope b.variableMapping x) := by
  unfold insertion
  cases b.scope with
  | some s => exact (finished_clone s).map _
  | none =>
    cases b.variableMapping.find x with
    | none => simp [Finished]
    | some e => exact finished_clone e

/-! ## Files that include each other -/

/-- A finite set of template files: opening any other path fails, and the parser ends. -/
structure TemplateFiles extends IncludeContext where
  paths : List Text
  finished_parse : ∀ f, Finished (parse f)
  parse_other : ∀ f, f ∉ paths → ∃ err, parse f = .error err

namespace TemplateFiles

variable (F : TemplateFiles)

/-- Parsing the file and running the pass on its tree returns a tree or an error. -/
def Ends (f : Text) : Prop :=
  ∀ a, F.parse f = .ok a → ∃ x, F.Outcome a x ∧ Finished x

/-- The walk of `f` gets as far as an include of `g`: those before it are resolved. -/
def Enters (f g : Text) : Prop :=
  ∃ a pre b post, F.parse f = .ok a ∧ a.includeBlocks = pre ++ b :: post ∧
    (∀ p ∈ pre, ∃ r, F.Outcome (.includeBlock p.includeName p.scope p.variableMapping) (.ok r)) ∧
    F.resolvePath b.includeName = g

/-- `f` includes `g`. -/
def Includes (f g : Text) : Prop :=
  ∃ a, F.parse f = .ok a ∧ ∃ b ∈ a.includeBlocks, F.resolvePath b.includeName = g

theorem Enters.includes {F : TemplateFiles} {f g : Text} (h : F.Enters f g) : F.Includes f g := by
  obtain ⟨a, pre, b, post, ha, hsplit, -, hg⟩ := h
  exact ⟨a, ha, b, by simp [hsplit], hg⟩

/-- The walk of an include block is the walk of its file and one call more. -/
theorem finished_resolveBlock {n : Nat} {b : IncludeBlock} {a : AST}
    (ha : F.parse (F.resolvePath b.includeName) = .ok a) :
    Finished (F.resolveBlock (n + 1) b) ↔ Finished (F.resolveIncludesPass.process n a) := by
  have hblock : F.resolveBlock (n + 1) b = F.resolveIncludesPass.process n a >>= fun a' =>
      a'.mapExpressions fun e =>
        e.substitute (F.insertion b.includeName b.scope b.variableMapping) := by
    rw [IncludeContext.resolveBlock, IncludeContext.process_includeBlock,
      IncludeContext.included, ha]
    rfl
  rw [hblock]
  constructor
  · intro h hout
    rw [hout] at h
    exact h rfl
  · exact fun h => h.bind fun a' => finished_mapExpressions
      (fun e => finished_substitute (F.finished_insertion b) e) a'

/-- A finished walk has entered its includes with a smaller bound. -/
theorem finished_of_enters {n : Nat} {f g : Text} {a a' : AST} (h : F.Enters f g)
    (ha : F.parse f = .ok a) (ha' : F.parse g = .ok a')
    (hfin : Finished (F.resolveIncludesPass.process n a)) :
    ∃ m < n, Finished (F.resolveIncludesPass.process m a') := by
  obtain ⟨_, pre, b, post, hparse, hsplit, hpre, rfl⟩ := h
  cases ha.symm.trans hparse
  have heq := F.process_settles n a n le_rfl hfin
  rw [← heq] at hfin
  have hall : Finished (resolveAll (F.resolveBlock n) a.includeBlocks) := by
    rw [← AST.done_mapIncludes]
    exact fun h => hfin (done_eq_error.1 h)
  have hb : Finished (F.resolveBlock n b) := by
    rw [hsplit] at hall
    refine resolveAll_reaches hall fun p hp hcut => ?_
    obtain ⟨r, N, hr⟩ := hpre p hp
    have heq := F.process_le (Nat.le_max_left n N) _ hcut
    exact ⟨r, heq.symm.trans (hr _ (Nat.le_max_right n N))⟩
  cases n with
  | zero => exact absurd rfl hb
  | succ n => exact ⟨n, Nat.lt_succ_self n, (F.finished_resolveBlock ha').1 hb⟩

/-- The walk of a file ends if the walks of the files it enters end. -/
theorem ends_of_enters {f : Text} (h : ∀ g, F.Enters f g → F.Ends g) : F.Ends f := by
  intro a ha
  choose g hg using F.exists_outcome
  let block : IncludeBlock → Run AST := fun b =>
    g (.includeBlock b.includeName b.scope b.variableMapping)
  have hout : F.Outcome a (a.mapIncludes (onBlock block)) :=
    F.outcome_mapIncludes (fun b => hg _) a
  refine ⟨_, hout, fun hcut => ?_⟩
  have hall := AST.done_mapIncludes block a
  rw [hcut] at hall
  obtain ⟨pre, b, post, hsplit, hpre, hb⟩ := resolveAll_eq_error.1 hall.symm
  have henters : F.Enters f (F.resolvePath b.includeName) :=
    ⟨a, pre, b, post, ha, hsplit, fun p hp => by
      obtain ⟨r, hr⟩ := hpre p hp
      exact ⟨r, by rw [← hr]; exact hg _⟩, rfl⟩
  have hblock : ∀ n, ¬Finished (F.resolveBlock n b) := fun n hn =>
    absurd hb ((hg _).finished_iff.2 ⟨n, hn⟩)
  cases hfile : F.parse (F.resolvePath b.includeName) with
  | error err =>
    refine hblock 1 ?_
    rw [IncludeContext.resolveBlock, IncludeContext.process_includeBlock,
      IncludeContext.included, hfile]
    have hparse := F.finished_parse (F.resolvePath b.includeName)
    rw [hfile] at hparse
    exact finished_error.1 hparse
  | ok a' =>
    obtain ⟨x, hx, hfin⟩ := h _ henters a' hfile
    obtain ⟨n, hn⟩ := hx.finished_iff.1 hfin
    exact hblock (n + 1) ((F.finished_resolveBlock hfile).2 hn)

/-- A file whose walk ends heads no infinite chain of files that enter the next one. -/
theorem acc_of_ends {f : Text} (h : F.Ends f) : Acc (fun g f => F.Enters f g) f := by
  have hacc : ∀ (n : Nat) (f : Text) (a : AST), F.parse f = .ok a →
      Finished (F.resolveIncludesPass.process n a) → Acc (fun g f => F.Enters f g) f := by
    intro n
    induction n using Nat.strongRecOn with
    | ind n ih =>
      intro f a ha hfin
      refine ⟨f, fun g hg => ?_⟩
      cases hfile : F.parse g with
      | error err =>
        refine ⟨g, fun g' hg' => ?_⟩
        obtain ⟨a', -, -, -, ha', -⟩ := hg'
        cases hfile.symm.trans ha'
      | ok a' =>
        obtain ⟨m, hm, hfin'⟩ := F.finished_of_enters hg ha hfile hfin
        exact ih m hm g a' hfile hfin'
  cases hfile : F.parse f with
  | error err =>
    refine ⟨f, fun g hg => ?_⟩
    obtain ⟨a, -, -, -, ha, -⟩ := hg
    cases hfile.symm.trans ha
  | ok a =>
    obtain ⟨x, hx, hfin⟩ := h a hfile
    obtain ⟨n, hn⟩ := hx.finished_iff.1 hfin
    exact hacc n f a hfile hn

theorem ends_iff_acc {f : Text} : F.Ends f ↔ Acc (fun g f => F.Enters f g) f := by
  refine ⟨F.acc_of_ends, fun h => ?_⟩
  induction h with
  | intro f _ ih => exact F.ends_of_enters ih

theorem finite_enters : {f | ∃ g, F.Enters f g}.Finite := by
  refine F.paths.finite_toSet.subset ?_
  rintro f ⟨g, a, -, -, -, ha, -⟩
  by_contra hf
  obtain ⟨err, herr⟩ := F.parse_other f hf
  cases herr.symm.trans ha

/-- Without a cycle of includes every walk ends. -/
theorem ends_of_acyclic {f : Text} (h : Acc (fun g f => F.Includes f g) f) : F.Ends f := by
  rw [ends_iff_acc]
  exact Subrelation.accessible (fun hfg => Enters.includes hfg) h

/-- One file, `/a`, that includes itself. -/
def includesItself : TemplateFiles where
  includeBasePath := []
  parse f := if f = "/a".toList then .ok (.includeBlock "/a".toList none .empty)
    else .error (.runtimeError
      ("Couldn't open '".toList ++ f ++ "': No such file or directory".toList))
  paths := ["/a".toList]
  finished_parse f := by
    split
    · exact finished_ok _
    · simp [Finished]
  parse_other f hf := ⟨_, if_neg (by simpa using hf)⟩

end TemplateFiles

end B2
