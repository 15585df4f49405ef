import B2.Llvm.Functions
import B2.Passes.RawBlocks

/-!
# Literals that are printed

What the print functions append to the buffer of a template, and what
`ConvertLiteralPrintBlockToRawBlockPass` prints in its place. The pass is the
structural `AST.converted`; a template renders alike after it if each of its
print blocks does.
-/

namespace B2

namespace Php

variable {Z W : Type}

/-! ## The buffer -/

/-- Zend's conversions of a double and of a variant to a string. -/
structure ZendStrings (Z : Type) where
  ofDouble : Double → Text
  ofVariant : Z → Text

/-- What a print function appends to the buffer. -/
def Print.appended (S : ZendStrings Z) (p : Print Z) : Text :=
  match p.printMethod, p.value with
  | .printDouble, .double v => S.ofDouble v
  | .printInteger, .integer _ v => decimalInt v
  | .printBoolean, .integer _ v => if v ≠ 0 then ['1'] else []
  | .printString, .string v => cString v
  | .printVariant, .variant v => S.ofVariant v
  | _, _ => []

/-- What some calls append. -/
def appended (S : ZendStrings Z) (prints : List (Print Z)) : Text := prints.flatMap (·.appended S)

/-- Two renderings append the same bytes and end in the same world. -/
structure Rendering.Alike (S : ZendStrings Z) (r r' : Rendering Z W) : Prop where
  output : appended S r.output = appended S r'.output
  world : r.world = r'.world

namespace Rendering

variable {S : ZendStrings Z} {r r' : Rendering Z W} {k k' k'' : W → Rendering Z W}

theorem Alike.refl (r : Rendering Z W) : r.Alike S r := ⟨rfl, rfl⟩

theorem Alike.andThen (h : r.Alike S r') (hk : ∀ w, (k w).Alike S (k' w)) :
    (r.andThen k).Alike S (r'.andThen k') := by
  unfold Rendering.andThen
  rw [← h.world]
  cases r.world with
  | none => exact h
  | some w =>
    refine ⟨?_, (hk w).world⟩
    have houtput := h.output
    have hrest := (hk w).output
    unfold appended at *
    rw [List.flatMap_append, List.flatMap_append, houtput, hrest]

theorem alike_after {α : Type} {o : Option (α × W)} {k k' : α → W → Rendering Z W}
    (hk : ∀ a w, (k a w).Alike S (k' a w)) : (after o k).Alike S (after o k') := by
  cases o with
  | none => exact .refl _
  | some p => exact hk p.1 p.2

theorem andThen_assoc : (r.andThen k).andThen k' = r.andThen fun w => (k w).andThen k' := by
  cases h : r.world with
  | none => rw [andThen_of_none h, andThen_of_none h, andThen_of_none h]
  | some w =>
    rw [andThen_of_some h, andThen_of_some h]
    cases h' : (k w).world with
    | none =>
      rw [andThen_of_none h', h']
      rfl
    | some w' => rw [andThen_of_some rfl, andThen_of_some h', List.append_assoc]

theorem andThen_nil : r.andThen (fun w => ⟨[], some w⟩) = r := by
  cases h : r.world with
  | none => exact andThen_of_none h
  | some w =>
    rw [andThen_of_some h, List.append_nil]
    cases r
    cases h
    rfl

end Rendering

theorem renderLoop_alike {S : ZendStrings Z} {body body' : Z × Z → W → Rendering Z W}
    (h : ∀ element w, (body element w).Alike S (body' element w)) :
    ∀ (elements : List (Z × Z)) (w : W),
      (renderLoop body elements w).Alike S (renderLoop body' elements w)
  | [], _ => .refl _
  | element :: elements, w => (h element w).andThen (renderLoop_alike h elements)

namespace Runtime

variable {R : Runtime Z W} {ρ : Text → Option Z} {w : W}

theorem renderList_append {l l' : List AST} :
    R.renderList ρ (l ++ l') w = (R.renderList ρ l w).andThen (R.renderList ρ l') := by
  induction l generalizing w with
  | nil => rfl
  | cons s l ih =>
    show (R.render ρ s w).andThen (R.renderList ρ (l ++ l')) = _
    rw [show R.renderList ρ (l ++ l') = _ from funext fun w => ih, ← Rendering.andThen_assoc]
    rfl

theorem renderList_asStatements {a : AST} : R.renderList ρ a.asStatements w = R.render ρ a w := by
  cases a <;> first | rfl | exact Rendering.andThen_nil

theorem render_fromStatementsArray {l : List AST} :
    R.render ρ (.fromStatementsArray l) w = R.renderList ρ l w := by
  match l with
  | [] => rfl
  | [s] => exact Rendering.andThen_nil.symm
  | s :: s' :: l => rfl

end Runtime

end Php

/-! ## The pass -/

namespace AST

mutual

/-- The tree after `ConvertLiteralPrintBlockToRawBlockPass`. -/
def converted : AST → AST
  | .statements l => .fromStatementsArray (convertedList l)
  | .rawBlock t => .rawBlock t
  | .printBlock e => convertLiteralPrintBlock e
  | .ifBlock c t none => .ifBlock c t.converted none
  | .ifBlock c t (some e) => .ifBlock c t.converted (some e.converted)
  | .forBlock k v i b none => .forBlock k v i b.converted none
  | .forBlock k v i b (some e) => .forBlock k v i b.converted (some e.converted)
  | .includeBlock name scope M => .includeBlock name scope M

def convertedList : List AST → List AST
  | [] => []
  | s :: l => s.converted.asStatements ++ convertedList l

end

mutual

/-- The expressions of the print blocks of a tree, wherever they stand. -/
def printed : AST → List Expression
  | .statements l => printedList l
  | .printBlock e => [e]
  | .ifBlock _ t none => t.printed
  | .ifBlock _ t (some e) => t.printed ++ e.printed
  | .forBlock _ _ _ b none => b.printed
  | .forBlock _ _ _ b (some e) => b.printed ++ e.printed
  | .rawBlock _ | .includeBlock .. => []

def printedList : List AST → List Expression
  | [] => []
  | s :: l => s.printed ++ printedList l

end

/-! ### The result of the walker -/

theorem spliceStatements_converted {f : AST → Run AST} : ∀ {l : List AST},
    (∀ s ∈ l, f s = .ok s.converted) → spliceStatements f l = .ok (convertedList l)
  | [], _ => rfl
  | s :: l, h => by
    have hs := h s List.mem_cons_self
    have hl := spliceStatements_converted fun s' hs' => h s' (List.mem_cons_of_mem _ hs')
    rw [spliceStatements, hs, hl]
    rfl

/-- From the height of the tree on, the walker of the pass gives the converted tree. -/
theorem process_convertLiteral (a : AST) : ∀ n, a.depth ≤ n →
    convertLiteralPrintBlockToRawBlockPass.process n a = .ok a.converted := by
  induction a with
  | statements l ih =>
    rintro (_ | n) h
    · simp [depth] at h
    · have hl := spliceStatements_converted
        fun s hs => ih s hs n ((depth_le_listDepth hs).trans (by simpa [depth] using h))
      show (do return .fromStatementsArray (← spliceStatements _ l) : Run AST) = _
      rw [hl]
      rfl
  | rawBlock _ | printBlock _ | includeBlock _ _ _ =>
    rintro (_ | n) h
    · simp [depth] at h
    · rfl
  | ifBlock c t e iht ihe =>
    rintro (_ | n) h
    · cases e <;> simp [depth] at h
    · cases e with
      | none =>
        have ht := iht n (by simpa [depth] using h)
        simp only [ASTPass.process, convertLiteralPrintBlockToRawBlockPass, pure_bind] at ht ⊢
        rw [ht]
        rfl
      | some e =>
        simp only [depth, Nat.add_le_add_iff_right, max_le_iff] at h
        have ht := iht n h.1
        have he := ihe e rfl n h.2
        simp only [ASTPass.process, convertLiteralPrintBlockToRawBlockPass, pure_bind,
          mapM_some_bind] at ht he ⊢
        rw [ht, he]
        rfl
  | forBlock k v i b e ihb ihe =>
    rintro (_ | n) h
    · cases e <;> simp [depth] at h
    · cases e with
      | none =>
        have hb := ihb n (by simpa [depth] using h)
        simp only [ASTPass.process, convertLiteralPrintBlockToRawBlockPass, pure_bind] at hb ⊢
        rw [hb]
        rfl
      | some e =>
        simp only [depth, Nat.add_le_add_iff_right, max_le_iff] at h
        have hb := ihb n h.1
        have he := ihe e rfl n h.2
        simp only [ASTPass.process, convertLiteralPrintBlockToRawBlockPass, pure_bind,
          mapM_some_bind] at hb he ⊢
        rw [hb, he]
        rfl

theorem run_convertLiteral (a : AST) :
    convertLiteralPrintBlockToRawBlockPass.run a = .ok a.converted :=
  process_convertLiteral a _ le_rfl

/-! ### What the visitor makes of it -/

theorem compilesList_append {l l' : List AST} :
    CompilesList (l ++ l') ↔ CompilesList l ∧ CompilesList l' := by
  induction l with
  | nil => simp [CompilesList]
  | cons s l ih => simp [CompilesList, ih, and_assoc]

theorem compilesList_asStatements {a : AST} : CompilesList a.asStatements ↔ a.Compiles := by
  cases a <;> simp [asStatements, CompilesList, Compiles]

theorem compiles_fromStatementsArray {l : List AST} :
    (fromStatementsArray l).Compiles ↔ CompilesList l := by
  match l with
  | [] => rfl
  | [s] => simp [fromStatementsArray, CompilesList]
  | s :: s' :: l => rfl

theorem compiles_convertLiteral {e : Expression} :
    (convertLiteralPrintBlock e).Compiles ↔ (printBlock e).Compiles := by
  cases e <;> simp [convertLiteralPrintBlock, createFormattedRawBlock, Compiles, Expr.Generates]

/-- The visitor makes a function of the converted tree if it makes one of the tree. -/
theorem compiles_converted (a : AST) : a.converted.Compiles ↔ a.Compiles := by
  induction a with
  | statements l ih =>
    unfold converted
    rw [compiles_fromStatementsArray]
    show CompilesList (convertedList l) ↔ CompilesList l
    induction l with
    | nil => rfl
    | cons s l ihl =>
      have hl := ihl fun s' hs' => ih s' (List.mem_cons_of_mem _ hs')
      have hs := ih s List.mem_cons_self
      rw [convertedList, compilesList_append, compilesList_asStatements, hs, hl]
      rfl
  | rawBlock t => rfl
  | printBlock e => exact compiles_convertLiteral
  | ifBlock c t e iht ihe =>
    cases e with
    | none => simp only [converted, Compiles, iht]
    | some e => simp only [converted, Compiles, iht, ihe e rfl]
  | forBlock k v i b e ihb ihe =>
    cases e with
    | none => simp only [converted, Compiles, ihb]
    | some e => simp only [converted, Compiles, ihb, ihe e rfl]
  | includeBlock name scope M => rfl

end AST

namespace Php

variable {Z W : Type} {R : Runtime Z W} {S : ZendStrings Z}

/-- The print block and what the pass makes of it append the same bytes. -/
def ConvertsAlike (R : Runtime Z W) (S : ZendStrings Z) (e : Expression) : Prop :=
  ∀ ρ w, (R.render ρ (convertLiteralPrintBlock e) w).Alike S (R.render ρ (.printBlock e) w)

/-- A template renders alike if its print blocks do, at every place of the tree. -/
theorem render_converted (a : AST) : (∀ e ∈ a.printed, ConvertsAlike R S e) →
    ∀ ρ w, (R.render ρ a.converted w).Alike S (R.render ρ a w) := by
  induction a with
  | statements l ih =>
    intro h ρ
    show ∀ w, (R.render ρ (.fromStatementsArray (AST.convertedList l)) w).Alike S
      (R.renderList ρ l w)
    simp only [R.render_fromStatementsArray]
    induction l with
    | nil => exact fun w => .refl _
    | cons s l ihl =>
      intro w
      have hs := ih s List.mem_cons_self (fun e he => h e (List.mem_append_left _ he)) ρ
      have hl := ihl (fun s' hs' => ih s' (List.mem_cons_of_mem _ hs'))
        fun e he => h e (List.mem_append_right _ he)
      unfold AST.convertedList
      rw [R.renderList_append, R.renderList_asStatements]
      exact (hs w).andThen hl
  | rawBlock t => exact fun _ ρ w => .refl _
  | printBlock e => exact fun h => h e (List.mem_singleton_self e)
  | ifBlock c t e iht ihe =>
    intro h ρ w
    cases e with
    | none =>
      refine Rendering.alike_after fun d w => ?_
      split_ifs
      · exact iht h ρ w
      · exact .refl _
    | some e =>
      refine Rendering.alike_after fun d w => ?_
      split_ifs
      · exact iht (fun e he => h e (List.mem_append_left _ he)) ρ w
      · exact ihe e rfl (fun e he => h e (List.mem_append_right _ he)) ρ w
  | forBlock k v i b e ihb ihe =>
    intro h ρ w
    cases e with
    | none =>
      exact Rendering.alike_after fun d w => renderLoop_alike (fun element w => ihb h _ w) _ w
    | some e =>
      refine Rendering.alike_after fun d w => ?_
      show Rendering.Alike S (if _ then _ else _) (if _ then _ else _)
      split_ifs
      · exact ihe e rfl (fun e he => h e (List.mem_append_right _ he)) ρ w
      · exact renderLoop_alike
          (fun element w => ihb (fun e he => h e (List.mem_append_left _ he)) _ w) _ w
  | includeBlock name scope M => exact fun _ ρ w => .refl _

/-! ## Alike for every literal -/

/-- The call that prints a literal, double literals left out. -/
def literalPrint (Z : Type) : Expression → Option (Print Z)
  | .integerLiteral v => some ⟨.printInteger, .integer 64 v.toInt⟩
  | .booleanLiteral v => some ⟨.printBoolean, .ofBool v⟩
  | .stringLiteral v => some ⟨.printString, .string v⟩
  | _ => none

/-- The raw text that the pass makes of a literal is what its print function appends. -/
def KeepsText (e : Expression) : Prop :=
  ∀ (Z : Type) (S : ZendStrings Z) (p : Print Z), literalPrint Z e = some p →
    ∃ t, convertLiteralPrintBlock e = .rawBlock t ∧ cString t = p.appended S

/-- The function of the tree and the function of the tree after the pass leave the same bytes in
the buffer, and all literals keep their text. -/
structure PrintsAlike (a : AST) : Prop where
  texts : ∀ e ∈ a.printed, KeepsText e
  output : ∃ b, convertLiteralPrintBlockToRawBlockPass.run a = .ok b ∧
    ∀ (Z W : Type) (R : Runtime Z W) (S : ZendStrings Z) (B : IRBuilder) (s : Codegen),
      B.Sound R → s.Clean → (LLVMVisitor.visit B a s).result = .ok () →
        (LLVMVisitor.visit B b s).result = .ok () ∧ ∀ m : State Z W, ∃ m₁ m₂,
          LLVMVisitor.Executes R (LLVMVisitor.visit B a s).log m m₁ ∧
          LLVMVisitor.Executes R (LLVMVisitor.visit B b s).log m m₂ ∧
          appended S m₁.output = appended S m₂.output

theorem cString_decimalInt (z : Int) : cString (decimalInt z) = decimalInt z := by
  have hdigits : ∀ n : Nat, '\x00' ∉ decimal n := fun n h =>
    absurd (isDigit_of_mem_decimal h) (by decide)
  refine cString_eq_self ?_
  unfold decimalInt
  split
  · intro h
    rcases List.mem_cons.1 h with h | h
    · exact absurd h (by decide)
    · exact hdigits _ h
  · exact hdigits _

theorem render_literal {e : Expression} {p : Print Z} (h : literalPrint Z e = some p)
    (ρ : Text → Option Z) (w : W) : R.render ρ (.printBlock e) w = ⟨[p], some w⟩ := by
  cases e with
  | integerLiteral | booleanLiteral | stringLiteral =>
    cases h
    rfl
  | _ => cases h

theorem keepsText_iff {e : Expression} : KeepsText e ↔ ∀ v, e ≠ .booleanLiteral v := by
  constructor
  · rintro h v rfl
    obtain ⟨t, ht, htext⟩ := h Unit ⟨fun _ => [], fun _ => []⟩ _ rfl
    cases v with
    | false =>
      cases ht
      revert htext
      decide
    | true =>
      cases ht
      revert htext
      decide
  · intro h Z S p hp
    cases e with
    | booleanLiteral v => exact absurd rfl (h v)
    | integerLiteral v =>
      cases hp
      refine ⟨_, rfl, ?_⟩
      rw [cString_decimalInt, cString_decimalInt]
      rfl
    | stringLiteral v =>
      cases hp
      exact ⟨v, rfl, rfl⟩
    | _ => cases hp

theorem KeepsText.convertsAlike {e : Expression} (h : KeepsText e)
    (hdouble : ∀ v, e ≠ .doubleLiteral v) : ConvertsAlike R S e := by
  intro ρ w
  cases hp : literalPrint Z e with
  | some p =>
    obtain ⟨t, ht, htext⟩ := h Z S p hp
    rw [ht, render_literal hp]
    refine ⟨?_, rfl⟩
    show cString t ++ [] = p.appended S ++ []
    rw [htext]
  | none =>
    cases e with
    | doubleLiteral v => exact absurd rfl (hdouble v)
    | integerLiteral | booleanLiteral | stringLiteral => cases hp
    | _ => exact .refl _

/-- Without double literals a template prints the same bytes before and after the pass exactly if
it prints no boolean literal. -/
theorem printsAlike_iff {a : AST} (h : ∀ e ∈ a.printed, ∀ v, e ≠ .doubleLiteral v) :
    PrintsAlike a ↔ ∀ e ∈ a.printed, ∀ v, e ≠ .booleanLiteral v := by
  constructor
  · exact fun halike e he => keepsText_iff.1 (halike.texts e he)
  · intro hbool
    have htexts : ∀ e ∈ a.printed, KeepsText e := fun e he => keepsText_iff.2 (hbool e he)
    refine ⟨htexts, a.converted, a.run_convertLiteral, fun Z W R S B s hB hs hreturns => ?_⟩
    have hcompiles := (LLVMVisitor.visit_returns_iff a hs).1 hreturns
    have hreturns' := (LLVMVisitor.visit_returns_iff (B := B) a.converted hs).2
      (a.compiles_converted.2 hcompiles)
    refine ⟨hreturns', fun m => ?_⟩
    obtain ⟨m₁, hm₁, ho₁⟩ := (LLVMVisitor.correct_of_returns hB hs hreturns).executes m
    obtain ⟨m₂, hm₂, ho₂⟩ := (LLVMVisitor.correct_of_returns hB hs hreturns').executes m
    have halike := (render_converted (R := R) (S := S) a
      (fun e he => (htexts e he).convertsAlike (h e he)) (fun _ => none) m.world).output
    refine ⟨m₁, m₂, hm₁, hm₂, ?_⟩
    rw [ho₁, ho₂]
    unfold appended at halike ⊢
    rw [List.flatMap_append, List.flatMap_append, halike]

/-- `{{ true }}` prints `1` before the pass and `true` after it. -/
theorem not_printsAlike_true : ¬PrintsAlike (.printBlock (.booleanLiteral true)) := by
  intro h
  have hsound := IRBuilder.sound_noFolding LLVMVisitor.countingRuntime
  obtain ⟨b, hb, h⟩ := h.output
  obtain rfl := Except.ok.inj hb
  obtain ⟨-, h⟩ := h Nat Unit LLVMVisitor.countingRuntime ⟨fun _ => [], fun _ => []⟩ .noFolding
    .fresh hsound Codegen.clean_fresh rfl
  obtain ⟨m₁, m₂, hm₁, hm₂, heq⟩ :=
    h ⟨fun _ => .pointer false, fun _ _ => .pointer false, fun _ => [], (), []⟩
  obtain ⟨m₁', hm₁', ho₁⟩ := (LLVMVisitor.correct_of_returns hsound Codegen.clean_fresh
    (a := .printBlock (.booleanLiteral true)) rfl).executes _
  obtain ⟨m₂', hm₂', ho₂⟩ := (LLVMVisitor.correct_of_returns hsound Codegen.clean_fresh
    (a := .rawBlock "true".toList) rfl).executes _
  rw [Cfg.Halts.unique hm₁ hm₁', Cfg.Halts.unique hm₂ hm₂', ho₁, ho₂] at heq
  revert heq
  decide

/-- `{% for x in xs %}{{ -1 }}{{ "a" }}{{ x }}{% endfor %}`, its minus folded -/
theorem printsAlike_loop : PrintsAlike (.forBlock none (some ['x']) (.variableReference ['x', 's'])
    (.statements [.printBlock (.integerLiteral (-1)), .printBlock (.stringLiteral ['a']),
      .printBlock (.variableReference ['x'])]) none) := by
  refine (printsAlike_iff ?_).2 ?_ <;> simp [AST.printed, AST.printedList]

end Php

end B2
