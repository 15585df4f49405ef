import B2.Passes.Pipeline
import B2.Php.Folding
import Mathlib.Data.List.TakeWhile

/-!
# Optimised functions

A template after the passes of `optimizeAST` and the template before them are
compiled to functions that leave the same bytes in the buffer. Each pass is a
step of this: folding replaces expressions by expressions of the same type and
value, a converted literal is the text that its print function appends, and a
merged raw block appends what its parts append.
-/

namespace B2

namespace AST

mutual

/-- The texts of the raw blocks of a tree, in order. -/
def texts : AST → List Text
  | .statements l => textsList l
  | .rawBlock t => [t]
  | .ifBlock _ t none => t.texts
  | .ifBlock _ t (some e) => t.texts ++ e.texts
  | .forBlock _ _ _ b none => b.texts
  | .forBlock _ _ _ b (some e) => b.texts ++ e.texts
  | .printBlock _ | .includeBlock .. => []

def textsList : List AST → List Text
  | [] => []
  | s :: l => s.texts ++ textsList l

end

theorem textsList_append {l l' : List AST} : textsList (l ++ l') = textsList l ++ textsList l' := by
  induction l with
  | nil => rfl
  | cons s l ih =>
    show s.texts ++ textsList (l ++ l') = s.texts ++ textsList l ++ textsList l'
    rw [ih, List.append_assoc]

theorem mem_textsList {t : Text} {l : List AST} :
    t ∈ textsList l ↔ ∃ s ∈ l, t ∈ s.texts := by
  induction l with
  | nil => simp [textsList]
  | cons s l ih => simp [textsList, ih]

theorem textsList_asStatements {a : AST} : textsList a.asStatements = a.texts := by
  cases a <;> first | rfl | exact List.append_nil _

theorem texts_fromStatementsArray {l : List AST} :
    (fromStatementsArray l).texts = textsList l := by
  cases l with
  | nil => rfl
  | cons s l =>
    cases l with
    | nil => exact (List.append_nil _).symm
    | cons s' l => rfl

/-! ## What a pass over the expressions leaves -/

/-- The same raw blocks, and every printed expression is `f` of one that was printed. -/
structure Prints (f : Expression → Run Expression) (texts texts' : List Text)
    (printed printed' : List Expression) : Prop where
  texts : texts' = texts
  printed : ∀ e' ∈ printed', ∃ e ∈ printed, f e = .ok e'

variable {f : Expression → Run Expression}

theorem Prints.append {texts₁ texts₁' texts₂ texts₂' : List Text}
    {printed₁ printed₁' printed₂ printed₂' : List Expression}
    (h₁ : Prints f texts₁ texts₁' printed₁ printed₁')
    (h₂ : Prints f texts₂ texts₂' printed₂ printed₂') :
    Prints f (texts₁ ++ texts₂) (texts₁' ++ texts₂') (printed₁ ++ printed₂)
      (printed₁' ++ printed₂') := by
  refine ⟨by rw [h₁.texts, h₂.texts], List.forall_mem_append.2 ⟨fun e' he' => ?_, fun e' he' => ?_⟩⟩
  · obtain ⟨e, he, hf⟩ := h₁.printed e' he'
    exact ⟨e, List.mem_append_left _ he, hf⟩
  · obtain ⟨e, he, hf⟩ := h₂.printed e' he'
    exact ⟨e, List.mem_append_right _ he, hf⟩

theorem prints_nil (texts : List Text) : Prints f texts texts [] [] :=
  ⟨rfl, List.forall_mem_nil _⟩

theorem prints_mapExpressions (a : AST) : ∀ {a' : AST}, a.mapExpressions f = .ok a' →
    Prints f a.texts a'.texts a.printed a'.printed := by
  induction a with
  | statements l ih =>
    intro a' h
    simp only [mapExpressions, bind_eq_ok, pure_eq_ok] at h
    obtain ⟨l', hl, rfl⟩ := h
    rw [texts_fromStatementsArray, printed_fromStatementsArray]
    show Prints f (textsList l) _ (printedList l) _
    induction l generalizing l' with
    | nil =>
      cases hl
      exact prints_nil _
    | cons s l ihl =>
      simp only [mapStatements, bind_eq_ok, pure_eq_ok] at hl
      obtain ⟨s', hs, l'', hl', rfl⟩ := hl
      rw [textsList_append, printedList_append, textsList_asStatements, printedList_asStatements]
      exact (ih s List.mem_cons_self hs).append
        (ihl (fun s h => ih s (List.mem_cons_of_mem _ h)) l'' hl')
  | rawBlock t =>
    intro a' h
    cases h
    exact prints_nil _
  | printBlock e =>
    intro a' h
    obtain ⟨e', he, h⟩ := bind_eq_ok.1 h
    cases h
    exact ⟨rfl, List.forall_mem_singleton.2 ⟨e, List.mem_singleton_self e, he⟩⟩
  | includeBlock name scope M =>
    intro a' h
    obtain ⟨scope', -, h⟩ := bind_eq_ok.1 h
    obtain ⟨M', -, h⟩ := bind_eq_ok.1 h
    cases h
    exact prints_nil _
  | ifBlock c t e iht ihe =>
    intro a' h
    cases e with
    | none =>
      obtain ⟨c', -, h⟩ := bind_eq_ok.1 h
      obtain ⟨t', ht, h⟩ := bind_eq_ok.1 h
      cases h
      have hthen := iht ht
      exact hthen
    | some e =>
      obtain ⟨c', -, h⟩ := bind_eq_ok.1 h
      obtain ⟨t', ht, h⟩ := bind_eq_ok.1 h
      obtain ⟨e', he, h⟩ := bind_eq_ok.1 h
      cases h
      exact (iht ht).append (ihe e rfl he)
  | forBlock k v i b e ihb ihe =>
    intro a' h
    cases e with
    | none =>
      obtain ⟨i', -, h⟩ := bind_eq_ok.1 h
      obtain ⟨b', hb, h⟩ := bind_eq_ok.1 h
      cases h
      have hbody := ihb hb
      exact hbody
    | some e =>
      obtain ⟨i', -, h⟩ := bind_eq_ok.1 h
      obtain ⟨b', hb, h⟩ := bind_eq_ok.1 h
      obtain ⟨e', he, h⟩ := bind_eq_ok.1 h
      cases h
      exact (ihb hb).append (ihe e rfl he)

/-- What holds of the raw blocks of a tree and of those that its literals become. -/
theorem texts_converted {X : Text → Prop} (a : AST) :
    (∀ e ∈ a.printed, ∀ t, convertLiteralPrintBlock e = .rawBlock t → X t) →
      (∀ t ∈ a.texts, X t) → ∀ t ∈ a.converted.texts, X t := by
  induction a with
  | statements l ih =>
    intro hp ht
    rw [converted, texts_fromStatementsArray]
    induction l with
    | nil =>
      intro t hmem
      cases hmem
    | cons s l ihl =>
      obtain ⟨hp, hps⟩ := List.forall_mem_append.1 hp
      obtain ⟨ht, hts⟩ := List.forall_mem_append.1 ht
      rw [convertedList, textsList_append, textsList_asStatements]
      exact List.forall_mem_append.2 ⟨ih s List.mem_cons_self hp ht,
        ihl (fun s h => ih s (List.mem_cons_of_mem _ h)) hps hts⟩
  | rawBlock _ | includeBlock _ _ _ => exact fun _ ht => ht
  | printBlock e =>
    intro hp _ t hmem
    have he := hp e (List.mem_singleton_self e)
    cases e with
    | doubleLiteral _ | integerLiteral _ | booleanLiteral _ | stringLiteral _ =>
      obtain rfl := List.mem_singleton.1 hmem
      exact he _ rfl
    | _ => cases hmem
  | ifBlock c t e iht ihe =>
    intro hp ht
    cases e with
    | none => exact iht hp ht
    | some e =>
      obtain ⟨hp, hpe⟩ := List.forall_mem_append.1 hp
      obtain ⟨ht, hte⟩ := List.forall_mem_append.1 ht
      exact List.forall_mem_append.2 ⟨iht hp ht, ihe e rfl hpe hte⟩
  | forBlock k v i b e ihb ihe =>
    intro hp ht
    cases e with
    | none => exact ihb hp ht
    | some e =>
      obtain ⟨hp, hpe⟩ := List.forall_mem_append.1 hp
      obtain ⟨ht, hte⟩ := List.forall_mem_append.1 ht
      exact List.forall_mem_append.2 ⟨ihb hp ht, ihe e rfl hpe hte⟩

/-! ## Trees that compile -/

variable {P Q : Expression → Prop} {I : Text → Option Expression → StringExpressionMap → Prop}

theorem compiles_mapExpressions
    (hf : ∀ e, P e → ∀ e', f e = .ok e' → e'.irType = e.irType ∧ (e.Generates → e'.Generates))
    (a : AST) : ∀ {a' : AST}, a.Everywhere P Q I → a.mapExpressions f = .ok a' → a.Compiles →
      a'.Compiles := by
  induction a with
  | statements l ih =>
    intro a' ha h hc
    simp only [mapExpressions, bind_eq_ok, pure_eq_ok] at h
    obtain ⟨l', hl, rfl⟩ := h
    rw [compiles_fromStatementsArray]
    induction l generalizing l' with
    | nil =>
      cases hl
      exact trivial
    | cons s l ihl =>
      simp only [mapStatements, bind_eq_ok, pure_eq_ok] at hl
      obtain ⟨s', hs, l'', hl', rfl⟩ := hl
      rw [compilesList_append, compilesList_asStatements]
      exact ⟨ih s List.mem_cons_self ha.1 hs hc.1,
        ihl (fun s h => ih s (List.mem_cons_of_mem _ h)) ha.2 hc.2 l'' hl'⟩
  | rawBlock t =>
    intro a' _ h hc
    cases h
    exact hc
  | printBlock e =>
    intro a' ha h hc
    obtain ⟨e', he, h⟩ := bind_eq_ok.1 h
    cases h
    exact (hf e ha e' he).2 hc
  | includeBlock name scope M =>
    intro a' _ h hc
    exact absurd hc id
  | ifBlock c t e iht ihe =>
    intro a' ha h hc
    cases e with
    | none =>
      obtain ⟨c', hcond, h⟩ := bind_eq_ok.1 h
      obtain ⟨t', ht, h⟩ := bind_eq_ok.1 h
      cases h
      obtain ⟨htype, hgen⟩ := hf c ha.1 c' hcond
      exact ⟨hgen hc.1, htype.trans hc.2.1, iht ha.2 ht hc.2.2⟩
    | some e =>
      obtain ⟨c', hcond, h⟩ := bind_eq_ok.1 h
      obtain ⟨t', ht, h⟩ := bind_eq_ok.1 h
      obtain ⟨e', he, h⟩ := bind_eq_ok.1 h
      cases h
      obtain ⟨htype, hgen⟩ := hf c ha.1 c' hcond
      exact ⟨hgen hc.1, htype.trans hc.2.1, iht ha.2.1 ht hc.2.2.1,
        ihe e rfl ha.2.2 he hc.2.2.2⟩
  | forBlock k v i b e ihb ihe =>
    intro a' ha h hc
    cases e with
    | none =>
      obtain ⟨i', hi, h⟩ := bind_eq_ok.1 h
      obtain ⟨b', hb, h⟩ := bind_eq_ok.1 h
      cases h
      obtain ⟨htype, hgen⟩ := hf i ha.1 i' hi
      exact ⟨hgen hc.1, htype.trans hc.2.1, ihb ha.2.2 hb hc.2.2⟩
    | some e =>
      obtain ⟨i', hi, h⟩ := bind_eq_ok.1 h
      obtain ⟨b', hb, h⟩ := bind_eq_ok.1 h
      obtain ⟨e', he, h⟩ := bind_eq_ok.1 h
      cases h
      obtain ⟨htype, hgen⟩ := hf i ha.1 i' hi
      exact ⟨hgen hc.1, htype.trans hc.2.1, ihb ha.2.2.1 hb hc.2.2.1,
        ihe e rfl ha.2.2.2 he hc.2.2.2⟩

theorem compilesList_coalesceRawBlocks (l : List AST) :
    CompilesList (coalesceRawBlocks l) ↔ CompilesList l := by
  induction l using rawRuns_induct with
  | nil => rw [coalesceRawBlocks]
  | other s l hs ih => rw [coalesceRawBlocks_other hs, CompilesList, CompilesList, ih]
  | raw t => rw [coalesceRawBlocks_raw_nil]
  | merge t u l ih =>
    rw [coalesceRawBlocks_raw_raw, ih]
    exact ⟨fun h => ⟨trivial, h⟩, fun h => h.2⟩
  | last t s l hs ih =>
    rw [coalesceRawBlocks_raw_other hs]
    simp only [CompilesList, ih]

theorem compiles_coalesced (a : AST) : a.coalesced.Compiles ↔ a.Compiles := by
  induction a with
  | statements l ih =>
    rw [coalesced, compiles_fromStatementsArray, compilesList_coalesceRawBlocks]
    show CompilesList (coalescedList l) ↔ CompilesList l
    induction l with
    | nil => rfl
    | cons s l ihl =>
      rw [coalescedList, CompilesList, CompilesList, ih s List.mem_cons_self,
        ihl fun s' hs' => ih s' (List.mem_cons_of_mem _ hs')]
  | rawBlock _ | printBlock _ | includeBlock _ _ _ => rfl
  | ifBlock c t e iht ihe =>
    cases e with
    | none => simp only [coalesced, Compiles, iht]
    | some e => simp only [coalesced, Compiles, iht, ihe e rfl]
  | forBlock k v i b e ihb ihe =>
    cases e with
    | none => simp only [coalesced, Compiles, ihb]
    | some e => simp only [coalesced, Compiles, ihb, ihe e rfl]

theorem includeFree_of_compiles (a : AST) : a.Compiles → a.IncludeFree := by
  induction a with
  | statements l ih =>
    intro h
    induction l with
    | nil => trivial
    | cons s l ihl =>
      exact ⟨ih s List.mem_cons_self h.1, ihl (fun s h => ih s (List.mem_cons_of_mem _ h)) h.2⟩
  | rawBlock _ | printBlock _ => exact fun _ => trivial
  | includeBlock _ _ _ => exact id
  | ifBlock c t e iht ihe =>
    cases e with
    | none => exact fun h => iht h.2.2
    | some e => exact fun h => ⟨iht h.2.2.1, ihe e rfl h.2.2.2⟩
  | forBlock k v i b e ihb ihe =>
    cases e with
    | none => exact fun h => ihb h.2.2
    | some e => exact fun h => ⟨ihb h.2.2.1, ihe e rfl h.2.2.2⟩

end AST

/-! ## Folded expressions -/

theorem Expr.generates_of_isLiteral {e : Expression} (h : isLiteralExpression e = true) :
    e.Generates := by
  cases e <;> trivial

namespace Php

variable {Z W : Type} {R : Runtime Z W} {S : ZendStrings Z}

theorem generatesArguments_fold {args args' : List (Option Expression)}
    (h : Expr.foldArguments args = .ok args')
    (hargs : ∀ e, some e ∈ args → e.Generates → ∀ e', e.fold = .ok e' → e'.Generates)
    (hgen : Expr.GeneratesArguments args) : Expr.GeneratesArguments args' := by
  induction args generalizing args' with
  | nil =>
    cases h
    exact trivial
  | cons arg args ih =>
    cases arg with
    | none => cases h
    | some e =>
      simp only [Expr.foldArguments, bind_eq_ok, pure_eq_ok] at h
      obtain ⟨e', he, args'', hrest, rfl⟩ := h
      exact ⟨hargs e List.mem_cons_self hgen.1 e' he,
        ih hrest (fun e h => hargs e (List.mem_cons_of_mem _ h)) hgen.2⟩

theorem Runtime.Arithmetic.generates_fold (hR : R.Arithmetic) (e : Expression) :
    e.OperandsFit → e.ExactlyFolded → e.Generates → ∀ e', e.fold = .ok e' → e'.Generates := by
  induction e using Expr.ind with
  | variableReference _ | doubleLiteral _ | integerLiteral _ | booleanLiteral _
  | stringLiteral _ =>
    intro _ _ _ e' h
    cases h
    exact trivial
  | getAttribute v a ih =>
    intro hfit hexact hgen e' h
    simp only [Expr.fold, bind_eq_ok, pure_eq_ok] at h
    obtain ⟨v', hv, rfl⟩ := h
    have htype := (hR.replaces_fold v hfit hexact v' hv).irType
    exact ⟨ih hfit hexact hgen.1 v' hv, htype.trans hgen.2⟩
  | methodCall m args ih =>
    intro hfit hexact hgen e' h
    simp only [Expr.fold, bind_eq_ok, pure_eq_ok] at h
    obtain ⟨args', hargs, rfl⟩ := h
    refine generatesArguments_fold hargs (fun e he => ?_) hgen
    exact ih e he (Expr.operandsFit_of_mem hfit he) (Expr.exactlyFolded_of_mem hexact he)
  | binaryOperation l r op ihl ihr =>
    rintro ⟨hfl, hfr, -⟩ ⟨hel, her, -⟩ ⟨hgl, hgr⟩ e' h
    simp only [Expr.fold, bind_eq_ok] at h
    obtain ⟨left, hl, right, hr, h⟩ := h
    rcases foldBinaryOperation_cases h with hlit | rfl
    · exact Expr.generates_of_isLiteral hlit
    · exact ⟨ihl hfl hel hgl left hl, ihr hfr her hgr right hr⟩
  | unaryOperation e op ih =>
    rintro ⟨hfe, -⟩ hexact hgen e' h
    simp only [Expr.fold, bind_eq_ok] at h
    obtain ⟨sub, hs, h⟩ := h
    rcases foldUnaryOperation_cases h with hlit | rfl
    · exact Expr.generates_of_isLiteral hlit
    · exact ih hfe hexact hgen sub hs
  | comparison l r op ihl ihr =>
    rintro ⟨hfl, hfr, -⟩ ⟨hel, her, -⟩ ⟨hgl, hgr⟩ e' h
    simp only [Expr.fold, bind_eq_ok] at h
    obtain ⟨left, hl, right, hr, h⟩ := h
    rcases foldComparison_cases h with ⟨v, rfl⟩ | rfl
    · exact trivial
    · exact ⟨ihl hfl hel hgl left hl, ihr hfr her hgr right hr⟩

/-! ## Merged raw blocks -/

theorem Rendering.Alike.trans {r r' r'' : Rendering Z W} (h : r.Alike S r') (h' : r'.Alike S r'') :
    r.Alike S r'' := ⟨h.output.trans h'.output, h.world.trans h'.world⟩

/-- Two raw blocks and the raw block of both texts append the same. -/
theorem alike_append {t u : Text} (ht : '\x00' ∉ t) (hu : '\x00' ∉ u)
    (ρ : Text → Option Z) (l : List AST) (w : W) :
    (R.renderList ρ (.rawBlock (t ++ u) :: l) w).Alike S
      (R.renderList ρ (.rawBlock t :: .rawBlock u :: l) w) := by
  have htu : '\x00' ∉ t ++ u := by
    rw [List.mem_append]
    exact not_or.2 ⟨ht, hu⟩
  refine ⟨?_, rfl⟩
  show cString (t ++ u) ++ appended S (R.renderList ρ l w).output =
    cString t ++ (cString u ++ appended S (R.renderList ρ l w).output)
  rw [cString_eq_self ht, cString_eq_self hu, cString_eq_self htu, List.append_assoc]

theorem renderList_coalesceRawBlocks (ρ : Text → Option Z) (l : List AST) :
    (∀ t, AST.rawBlock t ∈ l → '\x00' ∉ t) → ∀ w,
      (R.renderList ρ (coalesceRawBlocks l) w).Alike S (R.renderList ρ l w) := by
  induction l using rawRuns_induct with
  | nil =>
    intro _ w
    rw [coalesceRawBlocks]
    exact .refl _
  | other s l hs ih =>
    intro h w
    rw [coalesceRawBlocks_other hs]
    exact (Rendering.Alike.refl _).andThen (ih fun t ht => h t (List.mem_cons_of_mem _ ht))
  | raw t =>
    intro _ w
    rw [coalesceRawBlocks_raw_nil]
    exact .refl _
  | merge t u l ih =>
    intro h w
    obtain ⟨ht, h⟩ : '\x00' ∉ t ∧ ∀ t', AST.rawBlock t' ∈ .rawBlock u :: l → '\x00' ∉ t' :=
      ⟨h t List.mem_cons_self, fun t' ht' => h t' (List.mem_cons_of_mem _ ht')⟩
    have hu := h u List.mem_cons_self
    rw [coalesceRawBlocks_raw_raw]
    refine (ih ?_ w).trans (alike_append ht hu ρ l w)
    intro t' ht'
    rcases List.mem_cons.1 ht' with heq | hmem
    · cases heq
      rw [List.mem_append]
      exact not_or.2 ⟨ht, hu⟩
    · exact h t' (List.mem_cons_of_mem _ hmem)
  | last t s l hs ih =>
    intro h w
    rw [coalesceRawBlocks_raw_other hs]
    refine (Rendering.Alike.refl _).andThen fun w => (Rendering.Alike.refl _).andThen ?_
    exact ih fun t' ht' => h t' (List.mem_cons_of_mem _ (List.mem_cons_of_mem _ ht'))

theorem renderList_map {g : AST → AST} (ρ : Text → Option Z) {l : List AST}
    (h : ∀ s ∈ l, ∀ w, (R.render ρ (g s) w).Alike S (R.render ρ s w)) : ∀ w,
      (R.renderList ρ (l.map g) w).Alike S (R.renderList ρ l w) := by
  induction l with
  | nil => exact fun w => .refl _
  | cons s l ih =>
    intro w
    exact (h s List.mem_cons_self w).andThen (ih fun s h' => h s (List.mem_cons_of_mem _ h'))

/-- A template renders alike when its raw blocks are merged. -/
theorem render_coalesced (a : AST) : a.Normal → (∀ t ∈ a.texts, '\x00' ∉ t) → ∀ ρ w,
    (R.render ρ a.coalesced w).Alike S (R.render ρ a w) := by
  induction a with
  | statements l ih =>
    intro hnormal htexts ρ w
    rw [AST.coalesced_statements hnormal.2, R.render_fromStatementsArray]
    refine (renderList_map ρ ?_ w).trans (renderList_coalesceRawBlocks ρ l ?_ w)
    · intro s hs w
      rcases mem_coalesceRawBlocks l hs with hs | ⟨t, rfl⟩
      · refine ih s hs (AST.normalList_iff.1 hnormal.2 s hs).2 (fun t ht => ?_) ρ w
        exact htexts t (AST.mem_textsList.2 ⟨s, hs, ht⟩)
      · exact .refl _
    · intro t ht
      exact htexts t (AST.mem_textsList.2 ⟨_, ht, List.mem_singleton_self t⟩)
  | rawBlock _ | printBlock _ | includeBlock _ _ _ => exact fun _ _ ρ w => .refl _
  | ifBlock c t e iht ihe =>
    intro hnormal htexts ρ w
    cases e with
    | none =>
      refine Rendering.alike_after fun d w => ?_
      split_ifs
      · exact iht hnormal htexts ρ w
      · exact .refl _
    | some e =>
      obtain ⟨ht, he⟩ := List.forall_mem_append.1 htexts
      refine Rendering.alike_after fun d w => ?_
      split_ifs
      · exact iht hnormal.1 ht ρ w
      · exact ihe e rfl hnormal.2 he ρ w
  | forBlock k v i b e ihb ihe =>
    intro hnormal htexts ρ w
    cases e with
    | none =>
      refine Rendering.alike_after fun d w => ?_
      exact renderLoop_alike (fun element w => ihb hnormal htexts _ w) _ w
    | some e =>
      obtain ⟨hb, he⟩ := List.forall_mem_append.1 htexts
      refine Rendering.alike_after fun d w => ?_
      show Rendering.Alike S (if _ then _ else _) (if _ then _ else _)
      split_ifs
      · exact ihe e rfl hnormal.2 he ρ w
      · exact renderLoop_alike (fun element w => ihb hnormal.1 hb _ w) _ w

/-! ## Optimised templates -/

/-- What the passes may rely on: instructions with operands that fit and exact results for those
that are folded, no printed boolean or double after folding, and no NUL in a text. -/
structure Optimisable (a : AST) : Prop where
  folds : a.Everywhere (fun e => e.OperandsFit ∧ e.ExactlyFolded) (fun _ => True) fun _ _ _ => False
  prints : ∀ e ∈ a.printed, ∀ e', e.fold = .ok e' →
    (∀ v, e' ≠ .booleanLiteral v) ∧ (∀ v, e' ≠ .doubleLiteral v) ∧
      ∀ t, e' = .stringLiteral t → '\x00' ∉ t
  texts : ∀ t ∈ a.texts, '\x00' ∉ t

/-- The first tree compiles if the second does, and they print the same. -/
structure Stands (R : Runtime Z W) (S : ZendStrings Z) (r a : AST) : Prop where
  compiles : a.Compiles → r.Compiles
  render : ∀ ρ w, (R.render ρ r w).Alike S (R.render ρ a w)

theorem Stands.refl (a : AST) : Stands R S a a := ⟨id, fun _ _ => .refl _⟩

theorem Stands.trans {r a a' : AST} (h : Stands R S r a) (h' : Stands R S a a') :
    Stands R S r a' :=
  ⟨fun hc => h.compiles (h'.compiles hc), fun ρ w => (h.render ρ w).trans (h'.render ρ w)⟩

/-- The functions of two such trees leave the same bytes in the buffer. -/
theorem Stands.executes {r a : AST} (h : Stands R S r a) (ha : a.Compiles) {B : IRBuilder}
    {s : Codegen} (hB : B.Sound R) (hs : s.Clean) :
    (LLVMVisitor.visit B r s).result = .ok () ∧ ∀ m : State Z W, ∃ m₁ m₂,
      LLVMVisitor.Executes R (LLVMVisitor.visit B a s).log m m₁ ∧
      LLVMVisitor.Executes R (LLVMVisitor.visit B r s).log m m₂ ∧
      appended S m₂.output = appended S m₁.output := by
  have hreturns := (LLVMVisitor.visit_returns_iff (B := B) a hs).2 ha
  have hreturns' := (LLVMVisitor.visit_returns_iff (B := B) r hs).2 (h.compiles ha)
  refine ⟨hreturns', fun m => ?_⟩
  obtain ⟨m₁, hm₁, ho₁⟩ := (LLVMVisitor.correct_of_returns hB hs hreturns).executes m
  obtain ⟨m₂, hm₂, ho₂⟩ := (LLVMVisitor.correct_of_returns hB hs hreturns').executes m
  refine ⟨m₁, m₂, hm₁, hm₂, ?_⟩
  have halike := (h.render (fun _ => none) m.world).output
  rw [ho₁, ho₂]
  unfold appended at halike ⊢
  rw [List.flatMap_append, List.flatMap_append, halike]

section

variable {n : Nat} {a r : AST}

theorem Optimisable.stands_folded (ho : Optimisable a) (hR : R.Arithmetic)
    (h : (expressionPassWrapper foldConstantExpressions).process n a = .ok r) :
    Stands R S r a := by
  rw [ASTPass.process_eq_mapExpressions _ _ _
    (ASTPass.depth_le_of_process (fun _ _ _ => depth_wrapper) h)] at h
  have hreplaces : ∀ e : Expression, e.OperandsFit ∧ e.ExactlyFolded → ∀ e',
      foldConstantExpressions e = .ok e' → R.Replaces e' e := by
    rintro e ⟨hfit, hexact⟩ e' he
    rw [foldConstantExpressions_eq_fold] at he
    exact hR.replaces_fold e hfit hexact e' he
  refine ⟨AST.compiles_mapExpressions (fun e he e' hfold => ?_) a ho.folds h, fun ρ w => ?_⟩
  · refine ⟨(hreplaces e he e' hfold).irType, fun hgen => ?_⟩
    rw [foldConstantExpressions_eq_fold] at hfold
    exact hR.generates_fold e he.1 he.2 hgen e' hfold
  · rw [R.render_mapExpressions hreplaces a r ρ w ho.folds h]
    exact .refl _

/-- What is printed after folding is such a literal or none. -/
def PrintsKept (a : AST) : Prop :=
  ∀ e ∈ a.printed, (∀ v, e ≠ .booleanLiteral v) ∧ (∀ v, e ≠ .doubleLiteral v) ∧
    ∀ t, e = .stringLiteral t → '\x00' ∉ t

theorem Optimisable.printsKept (ho : Optimisable a) : PrintsKept a := by
  intro e he
  have hprints := ho.prints e he
  refine ⟨?_, ?_, ?_⟩
  · rintro v rfl
    exact (hprints _ rfl).1 v rfl
  · rintro v rfl
    exact (hprints _ rfl).2.1 v rfl
  · rintro t rfl
    exact (hprints _ rfl).2.2 t rfl

theorem Optimisable.printsKept_folded (ho : Optimisable a)
    (h : (expressionPassWrapper foldConstantExpressions).process n a = .ok r) :
    PrintsKept r ∧ r.texts = a.texts := by
  rw [ASTPass.process_eq_mapExpressions _ _ _
    (ASTPass.depth_le_of_process (fun _ _ _ => depth_wrapper) h)] at h
  obtain ⟨htexts, hprinted⟩ := a.prints_mapExpressions h
  refine ⟨fun e' he' => ?_, htexts⟩
  obtain ⟨e, he, hfold⟩ := hprinted e' he'
  rw [foldConstantExpressions_eq_fold] at hfold
  exact ho.prints e he e' hfold

theorem PrintsKept.texts_converted (hp : PrintsKept a) (ht : ∀ t ∈ a.texts, '\x00' ∉ t) :
    ∀ t ∈ a.converted.texts, '\x00' ∉ t := by
  refine a.texts_converted (X := fun t => '\x00' ∉ t) (fun e he t hconvert => ?_) ht
  obtain ⟨hbool, hdouble, hstring⟩ := hp e he
  cases e with
  | booleanLiteral v => exact absurd rfl (hbool v)
  | doubleLiteral v => exact absurd rfl (hdouble v)
  | stringLiteral v =>
    cases hconvert
    exact hstring t rfl
  | integerLiteral v =>
    cases hconvert
    intro hmem
    have hnul := List.mem_takeWhile_imp hmem
    simp at hnul
  | _ => cases hconvert

theorem PrintsKept.stands_converted (hp : PrintsKept a) : Stands R S a.converted a := by
  refine ⟨a.compiles_converted.2, render_converted a fun e he => ?_⟩
  obtain ⟨hbool, hdouble, -⟩ := hp e he
  exact (keepsText_iff.2 hbool).convertsAlike hdouble

theorem stands_coalesced (hn : a.Normal) (ht : ∀ t ∈ a.texts, '\x00' ∉ t) :
    Stands R S a.coalesced a :=
  ⟨a.compiles_coalesced.2, render_coalesced a hn ht⟩

/-- Whichever passes are enabled, the function of a template after `optimizeAST` and the function
of the template before it leave the same bytes in the buffer. -/
theorem executes_optimizeAST {ctx : IncludeContext} {flags : PassFlags} (hR : R.Arithmetic)
    (ho : Optimisable a) (hnormal : a.Normal) (ha : a.Compiles)
    (h : optimizeAST ctx flags n a = .ok r) {B : IRBuilder} {s : Codegen} (hB : B.Sound R)
    (hs : s.Clean) :
    (LLVMVisitor.visit B r s).result = .ok () ∧ ∀ m : State Z W, ∃ m₁ m₂,
      LLVMVisitor.Executes R (LLVMVisitor.visit B a s).log m m₁ ∧
      LLVMVisitor.Executes R (LLVMVisitor.visit B r s).log m m₂ ∧
      appended S m₂.output = appended S m₁.output := by
  refine Stands.executes ?_ ha hB hs
  obtain ⟨a₁, a₂, a₃, h₁, h₂, h₃, h₄⟩ := optimizeAST_runs h
  have hresolved : a₁ = a :=
    h₁.keeps (X := fun r => r = a) (fun h _ =>
      eq_of_process_includeFree (a.includeFree_of_compiles ha) hnormal h) rfl
  subst hresolved
  have hfolded : Stands R S a₂ a₁ ∧ PrintsKept a₂ ∧ a₂.texts = a₁.texts ∧ a₂.Normal := by
    unfold RunsIf at h₂
    split_ifs at h₂
    · obtain ⟨hprints, htexts⟩ := ho.printsKept_folded h₂
      exact ⟨ho.stands_folded hR h₂, hprints, htexts,
        (keepsNormal_wrapper _).process n a₁ a₂ h₂ hnormal⟩
    · rw [h₂]
      exact ⟨.refl _, ho.printsKept, rfl, hnormal⟩
  obtain ⟨hstands, hprints, htexts, hnormal₂⟩ := hfolded
  have hclean : ∀ t ∈ a₂.texts, '\x00' ∉ t := by
    rw [htexts]
    exact ho.texts
  have hconverted : Stands R S a₃ a₂ ∧ (∀ t ∈ a₃.texts, '\x00' ∉ t) ∧ a₃.Normal := by
    unfold RunsIf at h₃
    split_ifs at h₃
    · rw [converted_of_process h₃]
      refine ⟨hprints.stands_converted, hprints.texts_converted hclean, ?_⟩
      exact keepsNormal_convertLiteral.process a₂.depth a₂ _ a₂.run_convertLiteral hnormal₂
    · rw [h₃]
      exact ⟨.refl _, hclean, hnormal₂⟩
  obtain ⟨hstands₃, hclean₃, hnormal₃⟩ := hconverted
  have hcoalesced : Stands R S r a₃ := by
    unfold RunsIf at h₄
    split_ifs at h₄
    · rw [coalesced_of_process hnormal₃ h₄]
      exact stands_coalesced hnormal₃ hclean₃
    · rw [h₄]
      exact .refl _
  exact hcoalesced.trans (hstands₃.trans hstands)

end

/-! ## A runtime and a builder with the arithmetic of LLVM -/

/-- An integer of some width or a double. -/
inductive Number where
  | integer (width : Nat) (value : Int)
  | double (value : Double)

namespace Number

/-- One bit is 0 or 1, other integers are signed. -/
def ofBits {width : Nat} (x : BitVec width) : Number :=
  .integer width (if width = 1 then x.toNat else x.toInt)

def ofBool (b : Bool) : Number := .integer 1 (if b then 1 else 0)

def type : Number → IRType
  | .integer w _ => .integer w
  | .double _ => .double

def data : Number → Data Z
  | .integer w z => .integer w z
  | .double x => .double x

def constant : Number → Constant
  | .integer w z => .integer w z
  | .double x => .double x

def ofData : Data Z → Option Number
  | .integer w z => some (.integer w z)
  | .double x => some (.double x)
  | _ => none

def ofValue : Value → Option Number
  | .constant (.integer w z) => some (.integer w z)
  | .constant (.double x) => some (.double x)
  | _ => none

end Number

/-- The instructions that two numbers or one have a result of, `fRem` left out. -/
def perform (op : Operation) (operands : List Number) : Option Number :=
  match op, operands with
  | .add, [.integer w a, .integer _ b] => some (.ofBits (BitVec.ofInt w a + BitVec.ofInt w b))
  | .sub, [.integer w a, .integer _ b] => some (.ofBits (BitVec.ofInt w a - BitVec.ofInt w b))
  | .mul, [.integer w a, .integer _ b] => some (.ofBits (BitVec.ofInt w a * BitVec.ofInt w b))
  | .exactSDiv, [.integer w a, .integer _ b] =>
    some (.ofBits ((BitVec.ofInt w a).sdiv (BitVec.ofInt w b)))
  | .sRem, [.integer w a, .integer _ b] =>
    some (.ofBits ((BitVec.ofInt w a).srem (BitVec.ofInt w b)))
  | .and, [.integer w a, .integer _ b] => some (.ofBits (BitVec.ofInt w a &&& BitVec.ofInt w b))
  | .or, [.integer w a, .integer _ b] => some (.ofBits (BitVec.ofInt w a ||| BitVec.ofInt w b))
  | .neg, [.integer w a] => some (.ofBits (-BitVec.ofInt w a))
  | .not, [.integer w a] => some (.ofBits (~~~BitVec.ofInt w a))
  | .iCmp p, [.integer w a, .integer _ b] =>
    some (.ofBool (p.ofIntegers (BitVec.ofInt w a).toInt (BitVec.ofInt w b).toInt))
  | .siToFP, [.integer w a] => some (.double (.ofLong (.ofInt (BitVec.ofInt w a).toInt)))
  | .fAdd, [.double x, .double y] => some (.double (x.add y))
  | .fSub, [.double x, .double y] => some (.double (x.sub y))
  | .fMul, [.double x, .double y] => some (.double (x.mul y))
  | .fDiv, [.double x, .double y] => some (.double (x.div y))
  | .fCmp p, [.double x, .double y] => some (.ofBool (p.ofDoubles x y))
  | _, _ => none

theorem type_perform {op : Operation} {operands : List Number} {n : Number}
    (h : perform op operands = some n) : n.type = op.resultType (operands.map Number.type) := by
  unfold perform at h
  split at h <;> cases h <;> rfl

/-- The runtime with these instructions. -/
def Runtime.performing (R : Runtime Z W) : Runtime Z W where
  __ := R
  operation op operands :=
    match (operands.mapM Number.ofData).bind (perform op) with
    | some n => n.data
    | none => .pointer false

theorem Number.ofData_data (n : Number) : ofData (n.data : Data Z) = some n := by cases n <;> rfl

theorem Number.mapM_ofData (numbers : List Number) :
    (numbers.map (Number.data (Z := Z))).mapM ofData = some numbers := by
  induction numbers with
  | nil => rfl
  | cons n numbers ih => simp [ofData_data, ih]

theorem Runtime.performing_numbers {R : Runtime Z W} {op : Operation} {numbers : List Number}
    {n : Number} (h : perform op numbers = some n) :
    R.performing.operation op (numbers.map Number.data) = n.data := by
  simp only [performing, Number.mapM_ofData, Option.bind_some, h]

@[simp] theorem ofInt_toInt (v : Int64) : BitVec.ofInt 64 v.toInt = v.toBitVec :=
  BitVec.ofInt_toInt

/-- An instruction on 64 bits whose result is that of `long`. -/
theorem Runtime.performing_longs {R : Runtime Z W} {op : Operation} {a b v : Int64}
    (h : perform op [.integer 64 a.toInt, .integer 64 b.toInt] = some (.ofBits v.toBitVec)) :
    R.performing.operation op [.ofLong a, .ofLong b] = .ofLong v :=
  performing_numbers h

theorem Runtime.arithmetic_performing (R : Runtime Z W) : R.performing.Arithmetic where
  add a b := performing_longs (by simp [perform])
  sub a b := performing_longs (by simp [perform])
  mul a b := performing_longs (by simp [perform])
  exactSDiv {a b} _ _ _ := performing_longs (v := a / b) (by simp [perform])
  sRem {a b} _ _ := performing_longs (v := a % b) (by simp [perform])
  neg a :=
    have h : perform .neg [.integer 64 a.toInt] = some (.ofBits (-a).toBitVec) := by simp [perform]
    performing_numbers h
  not a := by cases a <;> rfl
  and a b := by cases a <;> cases b <;> rfl
  or a b := by cases a <;> cases b <;> rfl
  iCmp p a b :=
    have h : perform (.iCmp p) [.integer 64 a.toInt, .integer 64 b.toInt] =
        some (.ofBool (p.ofIntegers a.toInt b.toInt)) := by
      simp only [perform, ofInt_toInt]
      rfl
    performing_numbers h
  iCmpBits p a b := by cases a <;> cases b <;> rfl
  siToFP a :=
    have h : perform .siToFP [.integer 64 a.toInt] = some (.double (.ofLong a)) := by
      simp [perform]
    performing_numbers h
  siToFPBit a := by cases a <;> rfl
  fAdd x y := rfl
  fSub x y := rfl
  fMul x y := rfl
  fDiv x y := rfl
  fCmp p x y := rfl

theorem Number.of_ofValue {v : Value} {n : Number} (h : ofValue v = some n) :
    v = .constant n.constant := by
  unfold ofValue at h
  split at h <;> cases h <;> rfl

theorem Number.of_mapM {operands : List Value} {numbers : List Number}
    (h : operands.mapM ofValue = some numbers) :
    operands = numbers.map fun n => .constant n.constant := by
  induction operands generalizing numbers with
  | nil =>
    cases h
    rfl
  | cons v operands ih =>
    simp only [List.mapM_cons, Option.bind_eq_bind, Option.bind_eq_some_iff] at h
    obtain ⟨n, hn, ns, hns, h⟩ := h
    cases h
    rw [of_ofValue hn, ih hns]
    rfl

theorem Number.type_constant (n : Number) : (Value.constant n.constant).type = n.type := by
  cases n <;> rfl

theorem Runtime.valueOf_number (R : Runtime Z W) (m : State Z W) (n : Number) :
    R.valueOf m (.constant n.constant) = n.data := by
  cases n <;> rfl

/-- Folds the instructions on constants, as the `ConstantFolder` of the builder does. -/
def foldingBuilder : IRBuilder where
  simplify op operands :=
    ((operands.mapM Number.ofValue).bind (perform op)).map fun n => .constant n.constant
  simplify_mem h := by
    obtain ⟨n, -, rfl⟩ := Option.map_eq_some_iff.1 h
    exact .inr ⟨_, rfl⟩
  type_simplify h := by
    obtain ⟨n, hn, rfl⟩ := Option.map_eq_some_iff.1 h
    obtain ⟨numbers, hnumbers, hn⟩ := Option.bind_eq_some_iff.1 hn
    rw [Number.type_constant, type_perform hn, Number.of_mapM hnumbers, List.map_map]
    exact congrArg _ (List.map_congr_left fun n _ => n.type_constant.symm)

theorem sound_foldingBuilder (R : Runtime Z W) : foldingBuilder.Sound R.performing := by
  intro op operands v h m
  obtain ⟨n, hn, rfl⟩ := Option.map_eq_some_iff.1 h
  obtain ⟨numbers, hnumbers, hn⟩ := Option.bind_eq_some_iff.1 hn
  have hoperate : R.performing.operate op (numbers.map Number.data) =
      R.performing.operation op (numbers.map Number.data) := by
    cases op with
    | isNotNull | trunc => simp [perform] at hn
    | _ => rfl
  have hvalues : operands.map (R.performing.valueOf m) = numbers.map Number.data := by
    rw [Number.of_mapM hnumbers, List.map_map]
    exact List.map_congr_left fun n _ => R.performing.valueOf_number m n
  rw [R.performing.valueOf_number, hvalues, hoperate, Runtime.performing_numbers hn]

/-- `a{{ 1 + 2 }}{{ x }}` -/
def sumTemplate : AST :=
  .statements [.rawBlock ['a'],
    .printBlock (.binaryOperation (.integerLiteral 1) (.integerLiteral 2) .addition),
    .printBlock (.variableReference ['x'])]

theorem optimisable_sumTemplate : Optimisable sumTemplate where
  folds := by
    refine ⟨trivial, ⟨⟨trivial, trivial, .inr (.inr ⟨_, rfl⟩)⟩, trivial, trivial, ?_⟩,
      ⟨trivial, trivial⟩, trivial⟩
    rintro _ _ ⟨⟩ ⟨⟩ ⟨⟩
  prints := by
    intro e he e' hfold
    rcases List.mem_cons.1 he with rfl | he
    · cases hfold
      simp
    · obtain rfl := List.mem_singleton.1 he
      cases hfold
      simp
  texts := by simp [sumTemplate, AST.texts, AST.textsList]

theorem optimizeAST_sumTemplate : optimizeAST noFiles {} 5 sumTemplate =
    .ok (.statements [.rawBlock ['a', '3'], .printBlock (.variableReference ['x'])]) := by
  have hfold : (expressionPassWrapper foldConstantExpressions).process 5 sumTemplate =
      .ok (.statements [.rawBlock ['a'], .printBlock (.integerLiteral 3),
        .printBlock (.variableReference ['x'])]) := by
    rw [ASTPass.process_eq_mapExpressions _ _ _ (by decide)]
    rfl
  have hmerge : coalesceRawBlocks
      [.rawBlock ['a'], .rawBlock ['3'], .printBlock (.variableReference ['x'])] =
        [.rawBlock ['a', '3'], .printBlock (.variableReference ['x'])] := by
    rw [coalesceRawBlocks_raw_raw, coalesceRawBlocks_raw_other rfl, coalesceRawBlocks]
    rfl
  have hcoalesce : coalesceRawBlocksPass.process 5 (.statements
      [.rawBlock ['a'], .rawBlock ['3'], .printBlock (.variableReference ['x'])]) =
        .ok (.statements [.rawBlock ['a', '3'], .printBlock (.variableReference ['x'])]) := by
    show (pure (AST.statements (coalesceRawBlocks _)) >>= _ : Run AST) = _
    rw [hmerge]
    rfl
  have hconvert : convertLiteralPrintBlockToRawBlockPass.process 5 (.statements
      [.rawBlock ['a'], .printBlock (.integerLiteral 3), .printBlock (.variableReference ['x'])]) =
        .ok (.statements
          [.rawBlock ['a'], .rawBlock ['3'], .printBlock (.variableReference ['x'])]) := rfl
  show ((expressionPassWrapper foldConstantExpressions).process 5 sumTemplate >>=
    fun a => convertLiteralPrintBlockToRawBlockPass.process 5 a >>=
      fun a => coalesceRawBlocksPass.process 5 a >>= pure) = _
  exact bind_eq_ok.2 ⟨_, hfold, bind_eq_ok.2 ⟨_, hconvert, bind_eq_ok.2 ⟨_, hcoalesce, rfl⟩⟩⟩

/-- Nothing is printed yet. -/
def startState : State Nat Unit :=
  ⟨fun _ => .pointer false, fun _ _ => .pointer false, fun _ => [], (), []⟩

theorem executes_sumTemplate : ∃ m₁ m₂,
    LLVMVisitor.Executes LLVMVisitor.countingRuntime.performing
      (LLVMVisitor.visit foldingBuilder sumTemplate .fresh).log startState m₁ ∧
    LLVMVisitor.Executes LLVMVisitor.countingRuntime.performing
      (LLVMVisitor.visit foldingBuilder
        (.statements [.rawBlock ['a', '3'], .printBlock (.variableReference ['x'])]) .fresh).log
      startState m₂ ∧
    appended ⟨fun _ => [], decimal⟩ m₂.output = appended ⟨fun _ => [], decimal⟩ m₁.output := by
  have hnormal : sumTemplate.Normal :=
    ⟨by decide, ⟨rfl, trivial, rfl, trivial, rfl, trivial, trivial⟩⟩
  have hcompiles : sumTemplate.Compiles := ⟨trivial, ⟨trivial, trivial⟩, trivial, trivial⟩
  exact (executes_optimizeAST (Runtime.arithmetic_performing _) optimisable_sumTemplate hnormal
    hcompiles optimizeAST_sumTemplate (sound_foldingBuilder _) Codegen.clean_fresh).2
    startState

end Php

end B2
