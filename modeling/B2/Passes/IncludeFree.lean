import B2.Javascript.Occurrences
import B2.Llvm.Exceptions
import B2.Passes.Keeps

/-!
# Trees without include blocks

What `ResolveIncludesPass` returns holds no include block: `mapIncludes` puts
trees without one in their place, by induction on the nesting of includes. The
passes after it make none, so neither visitor meets one.
-/

namespace B2

namespace AST

/-- A tree without include blocks, as a property of its include blocks. -/
theorem includeFree_iff_everywhere (a : AST) :
    a.IncludeFree ↔ a.Everywhere (fun _ => True) (fun _ => True) fun _ _ _ => False := by
  induction a with
  | statements l ih =>
    rw [IncludeFree, Everywhere]
    induction l with
    | nil => rfl
    | cons s l ihl =>
      rw [IncludeFreeList, EverywhereList, ih s List.mem_cons_self,
        ihl fun s hs => ih s (List.mem_cons_of_mem _ hs)]
  | rawBlock _ | printBlock _ => exact Iff.rfl
  | includeBlock n s M => exact Iff.rfl
  | ifBlock c t e iht ihe =>
    cases e with
    | none => simp [IncludeFree, Everywhere, iht]
    | some e => simp [IncludeFree, Everywhere, iht, ihe e rfl]
  | forBlock k v i b e ihb ihe =>
    cases e with
    | none => simp [IncludeFree, Everywhere, ihb]
    | some e => simp [IncludeFree, Everywhere, ihb, ihe e rfl]

theorem everywhere_true (a : AST) :
    a.Everywhere (fun _ => True) (fun _ => True) fun _ _ _ => True := by
  induction a with
  | statements l ih => exact everywhereList_iff.2 ih
  | rawBlock _ | printBlock _ | includeBlock _ _ _ => trivial
  | ifBlock c t e iht ihe => exact everywhere_ifBlock.2 ⟨trivial, iht, ihe⟩
  | forBlock k v i b e ihb ihe => exact everywhere_forBlock.2 ⟨trivial, trivial, ihb, ihe⟩

/-- Trees without include blocks in the place of the include blocks leave none. -/
theorem mapIncludes_includeFree {f : Text → Option Expression → StringExpressionMap → Run AST}
    (hf : ∀ name scope M r, f name scope M = .ok r → r.IncludeFree) {a r : AST}
    (h : a.mapIncludes f = .ok r) : r.IncludeFree := by
  rw [includeFree_iff_everywhere]
  refine (mapIncludes_everywhere (fun name scope M r hr => ?_) a r h).2 (everywhere_true a)
  exact iff_of_true ((includeFree_iff_everywhere r).1 (hf name scope M r hr)) trivial

theorem mapExpressions_includeFree {f : Expression → Run Expression} {a r : AST}
    (h : a.mapExpressions f = .ok r) (ha : a.IncludeFree) : r.IncludeFree := by
  rw [includeFree_iff_everywhere] at ha ⊢
  exact (mapExpressions_everywhere (fun _ _ _ => Iff.rfl) (fun _ _ _ => Iff.rfl)
    (fun _ _ _ _ _ _ _ => Iff.rfl) a r h).2 ha

/-- An expanded tree holds no include block, whatever the nesting of includes. -/
theorem expand_includeFree (ctx : IncludeContext) :
    ∀ (n : Nat) (a r : AST), a.expand ctx n = .ok r → r.IncludeFree
  | 0, a, r, h => mapIncludes_includeFree (fun _ _ _ _ h => by cases h) h
  | n + 1, a, r, h => by
    refine mapIncludes_includeFree (fun name scope M r h => ?_) h
    simp only [IncludeContext.included, bind_eq_ok] at h
    obtain ⟨a, -, a', ha', h⟩ := h
    exact mapExpressions_includeFree h (expand_includeFree ctx n a a' ha')

end AST

/-- The last passes make no include block. -/
theorem includeFree_lastPasses {passes : List ASTPass} (hpasses : passes.Sublist lastPasses)
    {n : Nat} {a r : AST} (ha : a.IncludeFree)
    (h : runPasses (passes.map (ASTPass.process · n)) a = .ok r) : r.IncludeFree := by
  rw [AST.includeFree_iff_everywhere] at ha ⊢
  refine runPasses_everywhere (fun p hp => ?_) ha h
  have hlast := hpasses.subset hp
  simp only [lastPasses, List.mem_cons, List.not_mem_nil, or_false] at hlast
  rcases hlast with rfl | rfl | rfl
  · exact keeps_wrapper (fun _ _ _ => id) (fun _ _ _ => id) fun _ _ _ => id
  · exact keeps_convertLiteral
  · exact keeps_coalesce

/-- The tree has no include block, and neither visitor throws the exception for one. -/
structure Resolved (a : AST) : Prop where
  includeFree : a.IncludeFree
  javascript : ∀ undefinedCheck, ∃ lines, JavascriptVisitor.visit undefinedCheck a = .ok lines
  llvm : ∀ (B : IRBuilder) (s : Codegen),
    (LLVMVisitor.visit B a s).result ≠ .error LLVMVisitor.includeUnsupported

theorem resolved_of_includeFree {a : AST} (h : a.IncludeFree) : Resolved a where
  includeFree := h
  javascript undefinedCheck := by
    have hvisit : ∃ lines, JavascriptVisitor.visit undefinedCheck a = .ok lines ∧ _ :=
      JavascriptVisitor.visit_occurrences h
    exact hvisit.imp fun _ hlines => hlines.1
  llvm B s hthrows := by
    have := (LLVMVisitor.ordinary_visit B h).result hthrows
    unfold Exceptional at this
    revert this
    decide

/-- Whatever `ResolveIncludesPass` returns is free of include blocks, and stays so through the
passes that run after it. -/
theorem resolveIncludes_resolved {ctx : IncludeContext} {n : Nat} {a r : AST}
    (h : ctx.resolveIncludesPass.process n a = .ok r) {passes : List ASTPass}
    (hpasses : passes.Sublist lastPasses) {m : Nat} {r' : AST}
    (hr : runPasses (passes.map (ASTPass.process · m)) r = .ok r') : Resolved r ∧ Resolved r' := by
  have hfree := AST.expand_includeFree ctx n a r (ctx.process_eq_expand n a r h)
  exact ⟨resolved_of_includeFree hfree,
    resolved_of_includeFree (includeFree_lastPasses hpasses hfree hr)⟩

/-- The file `/a` includes `/b` in a loop, and every other file is the text `b`. -/
def nestedFiles : IncludeContext where
  includeBasePath := []
  parse file :=
    if file = "/a".toList then
      .ok (.forBlock none (some "x".toList) (.variableReference "y".toList)
        (.includeBlock "/b".toList none .empty) none)
    else .ok (.rawBlock ['b'])

/-- `{% include "/a" using z %}`. -/
theorem nestedFiles_resolved :
    Resolved (.forBlock none (some "x".toList)
      (.getAttribute (.variableReference "z".toList) "y".toList) (.rawBlock ['b']) none) :=
  (@resolveIncludes_resolved nestedFiles 4
    (.includeBlock "/a".toList (some (.variableReference "z".toList)) .empty) _ rfl []
    (List.nil_sublist _) 1 _ rfl).1

end B2
