import B2.Passes.NormalForm

/-!
# Coalescing raw blocks

`CoalesceRawBlocksPass` on a normal tree is the structural `AST.coalesced`: runs
of raw blocks become one, then the children are processed, and no list is
spliced on the way. What the pass may change is only how text is cut into raw
blocks: `SameBody` compares two bodies by the text between their other
statements (`gaps`) and these statements one by one.
-/

namespace B2

/-! ## One list -/

def isRaw (s : AST) : Bool := (rawText? s).isSome

/-- The statements of a list that are no raw blocks. -/
def others (l : List AST) : List AST := l.filter fun s => !isRaw s

/-- The text before, between and after them. -/
def gaps : List AST → List Text
  | [] => [[]]
  | .rawBlock t :: l =>
    match gaps l with
    | [] => [t]
    | gap :: rest => (t ++ gap) :: rest
  | _ :: l => [] :: gaps l

/-- Two statements that are not both raw blocks. -/
def Apart (s s' : AST) : Prop := ¬(isRaw s = true ∧ isRaw s' = true)

section

variable {s : AST} {l : List AST} {t u : Text}

theorem eq_rawBlock_of_isRaw (h : isRaw s = true) : ∃ t, s = .rawBlock t := by
  cases s <;> simp [isRaw, rawText?] at h
  exact ⟨_, rfl⟩

theorem coalesceRawBlocks_other (h : isRaw s = false) :
    coalesceRawBlocks (s :: l) = s :: coalesceRawBlocks l := by
  cases s with
  | rawBlock t => simp [isRaw, rawText?] at h
  | _ =>
    rw [coalesceRawBlocks]
    rintro _ ⟨⟩

theorem coalesceRawBlocks_raw_raw :
    coalesceRawBlocks (.rawBlock t :: .rawBlock u :: l) =
      coalesceRawBlocks (.rawBlock (t ++ u) :: l) := by
  rw [coalesceRawBlocks, coalesceRawBlocks]
  simp [rawText?]

theorem coalesceRawBlocks_raw_other (h : isRaw s = false) :
    coalesceRawBlocks (.rawBlock t :: s :: l) = .rawBlock t :: s :: coalesceRawBlocks l := by
  have hs : (rawText? s).isSome = false := h
  rw [coalesceRawBlocks, ← coalesceRawBlocks_other h]
  simp [hs]

theorem coalesceRawBlocks_raw_nil : coalesceRawBlocks [.rawBlock t] = [.rawBlock t] := by
  rw [coalesceRawBlocks]
  simp [coalesceRawBlocks]

/-- Induction over the runs of raw blocks in a list. -/
theorem rawRuns_induct {motive : List AST → Prop} (nil : motive [])
    (other : ∀ s l, isRaw s = false → motive l → motive (s :: l))
    (raw : ∀ t, motive [.rawBlock t])
    (merge : ∀ t u l, motive (.rawBlock (t ++ u) :: l) →
      motive (.rawBlock t :: .rawBlock u :: l))
    (last : ∀ t s l, isRaw s = false → motive l → motive (.rawBlock t :: s :: l)) :
    ∀ l, motive l := by
  intro l
  induction hn : l.length using Nat.strong_induction_on generalizing l with
  | _ n ih =>
    subst hn
    match l with
    | [] => exact nil
    | s :: l =>
      cases hs : isRaw s with
      | false => exact other s l hs (ih l.length (by simp) l rfl)
      | true =>
        obtain ⟨t, rfl⟩ := eq_rawBlock_of_isRaw hs
        match l with
        | [] => exact raw t
        | s :: l =>
          cases hs : isRaw s with
          | false => exact last t s l hs (ih l.length (by simp) l rfl)
          | true =>
            obtain ⟨u, rfl⟩ := eq_rawBlock_of_isRaw hs
            exact merge t u l (ih _ (by simp) _ rfl)

theorem gaps_other (h : isRaw s = false) : gaps (s :: l) = [] :: gaps l := by
  cases s <;> first | rfl | simp [isRaw, rawText?] at h

theorem gaps_raw_raw : gaps (.rawBlock t :: .rawBlock u :: l) = gaps (.rawBlock (t ++ u) :: l) := by
  simp only [gaps]
  cases gaps l with
  | nil => rfl
  | cons gap rest => simp

theorem others_other (h : isRaw s = false) : others (s :: l) = s :: others l := by
  simp [others, h]

theorem others_raw : others (.rawBlock t :: l) = others l := rfl

/-- The loop keeps the text between the other statements, and these statements. -/
theorem coalesceRawBlocks_keeps (l : List AST) :
    gaps (coalesceRawBlocks l) = gaps l ∧ others (coalesceRawBlocks l) = others l := by
  induction l using rawRuns_induct with
  | nil => simp [coalesceRawBlocks]
  | other s l hs ih =>
    rw [coalesceRawBlocks_other hs, gaps_other hs, gaps_other hs, others_other hs, others_other hs,
      ih.1, ih.2]
    exact ⟨rfl, rfl⟩
  | raw t => simp [coalesceRawBlocks_raw_nil]
  | merge t u l ih =>
    rw [coalesceRawBlocks_raw_raw, gaps_raw_raw]
    exact ih
  | last t s l hs ih =>
    rw [coalesceRawBlocks_raw_other hs]
    simp [gaps, gaps_other hs, others_raw, others_other hs, ih]

/-- It leaves no two raw blocks next to each other. -/
theorem coalesceRawBlocks_isChain (l : List AST) : (coalesceRawBlocks l).IsChain Apart := by
  have hcons : ∀ {s l}, isRaw s = false → (coalesceRawBlocks l).IsChain Apart →
      (s :: coalesceRawBlocks l).IsChain Apart := by
    intro s l hs hl
    refine List.isChain_cons.2 ⟨fun s' _ h => ?_, hl⟩
    simp [hs] at h
  induction l using rawRuns_induct with
  | nil => simp [coalesceRawBlocks]
  | other s l hs ih =>
    rw [coalesceRawBlocks_other hs]
    exact hcons hs ih
  | raw t => simp [coalesceRawBlocks_raw_nil]
  | merge t u l ih =>
    rw [coalesceRawBlocks_raw_raw]
    exact ih
  | last t s l hs ih =>
    rw [coalesceRawBlocks_raw_other hs]
    refine List.isChain_cons_cons.2 ⟨fun h => ?_, hcons hs ih⟩
    simp [hs] at h

/-- A list without neighbouring raw blocks is left as it is. -/
theorem coalesceRawBlocks_of_isChain (h : l.IsChain Apart) : coalesceRawBlocks l = l := by
  induction l using rawRuns_induct with
  | nil => simp [coalesceRawBlocks]
  | other s l hs ih => rw [coalesceRawBlocks_other hs, ih h.tail]
  | raw t => exact coalesceRawBlocks_raw_nil
  | merge t u l => exact absurd ⟨rfl, rfl⟩ (List.isChain_cons_cons.1 h).1
  | last t s l hs ih => rw [coalesceRawBlocks_raw_other hs, ih h.tail.tail]

/-- Rewriting the other statements does not change what is merged. -/
theorem coalesceRawBlocks_map {f : AST → AST} (hraw : ∀ t, f (.rawBlock t) = .rawBlock t)
    (l : List AST) (hf : ∀ s ∈ l, isRaw s = false → isRaw (f s) = false) :
    coalesceRawBlocks (l.map f) = (coalesceRawBlocks l).map f := by
  induction l using rawRuns_induct with
  | nil => simp [coalesceRawBlocks]
  | other s l hs ih =>
    rw [List.map_cons, coalesceRawBlocks_other (hf s List.mem_cons_self hs),
      coalesceRawBlocks_other hs, ih fun s h => hf s (List.mem_cons_of_mem _ h), List.map_cons]
  | raw t => simp [hraw, coalesceRawBlocks_raw_nil]
  | merge t u l ih =>
    rw [coalesceRawBlocks_raw_raw, List.map_cons, List.map_cons, hraw, hraw,
      coalesceRawBlocks_raw_raw, ← ih ?_, List.map_cons, hraw]
    intro s hs
    rcases List.mem_cons.1 hs with rfl | hs
    · simp [isRaw, rawText?]
    · exact hf s (List.mem_cons_of_mem _ (List.mem_cons_of_mem _ hs))
  | last t s l hs ih =>
    have hfs := hf s (List.mem_cons_of_mem _ List.mem_cons_self) hs
    rw [coalesceRawBlocks_raw_other hs, List.map_cons, List.map_cons, hraw,
      coalesceRawBlocks_raw_other hfs, List.map_cons, List.map_cons, hraw,
      ih fun s h => hf s (List.mem_cons_of_mem _ (List.mem_cons_of_mem _ h))]

end

/-! ## Whole trees -/

namespace AST

mutual

/-- No list of statements in the tree has two raw blocks next to each other. -/
def Coalesced : AST → Prop
  | .statements l => l.IsChain Apart ∧ CoalescedList l
  | .rawBlock _ | .printBlock _ | .includeBlock .. => True
  | .ifBlock _ t none => t.Coalesced
  | .ifBlock _ t (some e) => t.Coalesced ∧ e.Coalesced
  | .forBlock _ _ _ b none => b.Coalesced
  | .forBlock _ _ _ b (some e) => b.Coalesced ∧ e.Coalesced

def CoalescedList : List AST → Prop
  | [] => True
  | s :: l => s.Coalesced ∧ CoalescedList l

end

mutual

/-- Two bodies with the same text around the same other statements, nested alike. -/
inductive SameBody : AST → AST → Prop
  | mk {a a'} (text : gaps a.asStatements = gaps a'.asStatements)
      (rest : SameStatements (others a.asStatements) (others a'.asStatements)) : SameBody a a'

inductive SameStatements : List AST → List AST → Prop
  | nil : SameStatements [] []
  | cons {s s' l l'} (head : SameStatement s s') (tail : SameStatements l l') :
      SameStatements (s :: l) (s' :: l')

inductive SameStatement : AST → AST → Prop
  | printBlock {e} : SameStatement (.printBlock e) (.printBlock e)
  | ifBlock {c t t' e e'} (thenBody : SameBody t t') (elseBody : SameElse e e') :
      SameStatement (.ifBlock c t e) (.ifBlock c t' e')
  | forBlock {k v i b b' e e'} (body : SameBody b b') (elseBody : SameElse e e') :
      SameStatement (.forBlock k v i b e) (.forBlock k v i b' e')
  | includeBlock {n s M} : SameStatement (.includeBlock n s M) (.includeBlock n s M)

inductive SameElse : Option AST → Option AST → Prop
  | none : SameElse none none
  | some {e e'} (body : SameBody e e') : SameElse (some e) (some e')

end

mutual

/-- The raw blocks of every list merged. -/
def coalesced : AST → AST
  | .statements l => .fromStatementsArray (coalesceRawBlocks (coalescedList l))
  | .rawBlock t => .rawBlock t
  | .printBlock e => .printBlock e
  | .ifBlock c t none => .ifBlock c t.coalesced none
  | .ifBlock c t (some e) => .ifBlock c t.coalesced (some e.coalesced)
  | .forBlock k v i b none => .forBlock k v i b.coalesced none
  | .forBlock k v i b (some e) => .forBlock k v i b.coalesced (some e.coalesced)
  | .includeBlock n s M => .includeBlock n s M

def coalescedList : List AST → List AST
  | [] => []
  | s :: l => s.coalesced :: coalescedList l

end

theorem coalescedList_eq_map : ∀ l : List AST, coalescedList l = l.map coalesced
  | [] => rfl
  | s :: l => by rw [coalescedList, coalescedList_eq_map l, List.map_cons]

theorem coalescedList_iff {l : List AST} : CoalescedList l ↔ ∀ s ∈ l, s.Coalesced := by
  induction l with
  | nil => simp [CoalescedList]
  | cons s l ih => simp [CoalescedList, ih]

/-- A statement stays one of its class. -/
theorem coalesced_class {a : AST} (h : a.isStatements = false) :
    a.coalesced.isStatements = false ∧ isRaw a.coalesced = isRaw a := by
  cases a with
  | statements l => cases h
  | rawBlock _ | printBlock _ | includeBlock _ _ _ => exact ⟨rfl, rfl⟩
  | ifBlock c t e => cases e <;> exact ⟨rfl, rfl⟩
  | forBlock k v i b e => cases e <;> exact ⟨rfl, rfl⟩

theorem coalesced_statements {l : List AST} (h : NormalList l) :
    (statements l).coalesced = .fromStatementsArray ((coalesceRawBlocks l).map coalesced) := by
  rw [coalesced, coalescedList_eq_map, coalesceRawBlocks_map (fun _ => rfl)]
  intro s hs hraw
  rw [(coalesced_class (normalList_iff.1 h s hs).1).2, hraw]

/-- What comes out of the loop over the raw blocks of a normal list is normal too. -/
theorem normalList_coalesceRawBlocks {l : List AST} (h : NormalList l) :
    NormalList (coalesceRawBlocks l) := by
  refine normalList_iff.2 fun s hs => ?_
  rcases mem_coalesceRawBlocks l hs with hs | ⟨t, rfl⟩
  · exact normalList_iff.1 h s hs
  · exact ⟨rfl, trivial⟩

theorem depth_pos (a : AST) : 0 < a.depth := by
  cases a with
  | ifBlock c t e => cases e <;> simp [depth]
  | forBlock k v i b e => cases e <;> simp [depth]
  | _ => simp [depth]

theorem asStatements_fromStatementsArray {l : List AST} (h : ∀ s ∈ l, s.isStatements = false) :
    (fromStatementsArray l).asStatements = l := by
  match l, h with
  | [], _ => rfl
  | [s], h =>
    have hs := h s List.mem_cons_self
    cases s <;> first | rfl | cases hs
  | s :: s' :: l, _ => rfl

end AST

/-! ## The pass -/

theorem spliceStatements_coalesced {f : AST → Run AST} : ∀ {l : List AST},
    (∀ s ∈ l, f s = .ok s.coalesced) → (∀ s ∈ l, s.isStatements = false) →
      spliceStatements f l = .ok (l.map AST.coalesced)
  | [], _, _ => rfl
  | s :: l, hf, hl => by
    have hs := (AST.coalesced_class (hl s List.mem_cons_self)).1
    have hone : s.coalesced.asStatements = [s.coalesced] := by
      cases hc : s.coalesced <;> first | rfl | (rw [hc] at hs; cases hs)
    rw [spliceStatements, hf s List.mem_cons_self,
      spliceStatements_coalesced (fun s h => hf s (List.mem_cons_of_mem _ h))
        fun s h => hl s (List.mem_cons_of_mem _ h)]
    simp only [bind, Except.bind, pure, Except.pure, hone]
    rfl

/-- On a normal tree the walker of the pass merges the raw blocks of every list. -/
theorem process_coalesce (a : AST) : ∀ n, a.Normal → a.depth ≤ n →
    coalesceRawBlocksPass.process n a = .ok a.coalesced := by
  induction a with
  | statements l ih =>
    rintro (_ | n) hnormal h
    · simp [AST.depth] at h
    · rw [AST.depth, Nat.add_le_add_iff_right] at h
      have hl := hnormal.2
      have hmem : ∀ s ∈ coalesceRawBlocks l,
          coalesceRawBlocksPass.process n s = .ok s.coalesced := by
        intro s hs
        rcases mem_coalesceRawBlocks l hs with hs | ⟨t, rfl⟩
        · exact ih s hs n (AST.normalList_iff.1 hl s hs).2 ((AST.depth_le_listDepth hs).trans h)
        · have hpos : 0 < n := by
            cases l with
            | nil => simp [coalesceRawBlocks] at hs
            | cons s l =>
              have := s.depth_pos
              have := AST.depth_le_listDepth (List.mem_cons_self (a := s) (l := l))
              omega
          obtain ⟨n, rfl⟩ := Nat.exists_eq_succ_of_ne_zero hpos.ne'
          rfl
      have hsplice := spliceStatements_coalesced hmem fun s hs =>
        (AST.normalList_iff.1 (AST.normalList_coalesceRawBlocks hl) s hs).1
      rw [AST.coalesced_statements hl]
      simp only [ASTPass.process, coalesceRawBlocksPass, pure_bind] at hsplice ⊢
      rw [hsplice]
      rfl
  | rawBlock _ | printBlock _ | includeBlock _ _ _ =>
    rintro (_ | n) _ h
    · simp [AST.depth] at h
    · rfl
  | ifBlock c t e iht ihe =>
    rintro (_ | n) hnormal h
    · cases e <;> simp [AST.depth] at h
    · cases e with
      | none =>
        have ht := iht n hnormal (by simpa [AST.depth] using h)
        simp only [ASTPass.process, coalesceRawBlocksPass, pure_bind] at ht ⊢
        rw [ht]
        rfl
      | some e =>
        simp only [AST.depth, Nat.add_le_add_iff_right, max_le_iff] at h
        have ht := iht n hnormal.1 h.1
        have he := ihe e rfl n hnormal.2 h.2
        simp only [ASTPass.process, coalesceRawBlocksPass, pure_bind, mapM_some_bind] at ht he ⊢
        rw [ht, he]
        rfl
  | forBlock k v i b e ihb ihe =>
    rintro (_ | n) hnormal h
    · cases e <;> simp [AST.depth] at h
    · cases e with
      | none =>
        have hb := ihb n hnormal (by simpa [AST.depth] using h)
        simp only [ASTPass.process, coalesceRawBlocksPass, pure_bind] at hb ⊢
        rw [hb]
        rfl
      | some e =>
        simp only [AST.depth, Nat.add_le_add_iff_right, max_le_iff] at h
        have hb := ihb n hnormal.1 h.1
        have he := ihe e rfl n hnormal.2 h.2
        simp only [ASTPass.process, coalesceRawBlocksPass, pure_bind, mapM_some_bind] at hb he ⊢
        rw [hb, he]
        rfl

namespace AST

/-! ## What the pass makes of a tree -/

theorem coalesced_fromStatementsArray {l : List AST} (hchain : l.IsChain Apart)
    (hl : ∀ s ∈ l, s.Coalesced) : (fromStatementsArray l).Coalesced := by
  match l with
  | [] => exact ⟨hchain, trivial⟩
  | [s] => exact hl s List.mem_cons_self
  | s :: s' :: l => exact ⟨hchain, coalescedList_iff.2 hl⟩

/-- A merged tree is merged everywhere. -/
theorem coalesced_coalesced (a : AST) (h : a.Normal) : a.coalesced.Coalesced := by
  induction a with
  | statements l ih =>
    rw [coalesced]
    refine coalesced_fromStatementsArray (coalesceRawBlocks_isChain _) fun s hs => ?_
    rcases mem_coalesceRawBlocks _ hs with hs | ⟨t, rfl⟩
    · rw [coalescedList_eq_map] at hs
      obtain ⟨b, hb, rfl⟩ := List.mem_map.1 hs
      exact ih b hb (normalList_iff.1 h.2 b hb).2
    · trivial
  | rawBlock _ | printBlock _ | includeBlock _ _ _ => trivial
  | ifBlock c t e iht ihe =>
    cases e with
    | none => exact iht h
    | some e => exact ⟨iht h.1, ihe e rfl h.2⟩
  | forBlock k v i b e ihb ihe =>
    cases e with
    | none => exact ihb h
    | some e => exact ⟨ihb h.1, ihe e rfl h.2⟩

/-- A merged tree is merged already. -/
theorem coalesced_of_coalesced (a : AST) (h : a.Normal) (hc : a.Coalesced) : a.coalesced = a := by
  induction a with
  | statements l ih =>
    have hmap : l.map coalesced = l := by
      refine (List.map_congr_left fun s hs => ?_).trans (List.map_id l)
      exact ih s hs (normalList_iff.1 h.2 s hs).2 (coalescedList_iff.1 hc.2 s hs)
    rw [coalesced, coalescedList_eq_map, hmap, coalesceRawBlocks_of_isChain hc.1]
    match l, h.1 with
    | [], _ => rfl
    | s :: s' :: l, _ => rfl
  | rawBlock _ | printBlock _ | includeBlock _ _ _ => rfl
  | ifBlock c t e iht ihe =>
    cases e with
    | none => rw [coalesced, iht h hc]
    | some e => rw [coalesced, iht h.1 hc.1, ihe e rfl h.2 hc.2]
  | forBlock k v i b e ihb ihe =>
    cases e with
    | none => rw [coalesced, ihb h hc]
    | some e => rw [coalesced, ihb h.1 hc.1, ihe e rfl h.2 hc.2]

theorem coalesced_normal (a : AST) (h : a.Normal) : a.coalesced.Normal :=
  (keepsNormal_coalesce.process a.depth a a.coalesced (process_coalesce a _ h le_rfl) h)

theorem gaps_map_coalesced {l : List AST} (h : NormalList l) :
    gaps (l.map coalesced) = gaps l ∧ others (l.map coalesced) = (others l).map coalesced := by
  induction l with
  | nil => exact ⟨rfl, rfl⟩
  | cons s l ih =>
    have ih := ih h.2.2
    have hclass := (coalesced_class h.1).2
    rw [List.map_cons]
    cases hs : isRaw s with
    | false =>
      have hs' := hclass.trans hs
      rw [gaps_other hs', gaps_other hs, others_other hs', others_other hs, ih.1, ih.2]
      exact ⟨rfl, rfl⟩
    | true =>
      obtain ⟨t, rfl⟩ := eq_rawBlock_of_isRaw hs
      simp only [coalesced, gaps, others_raw, ih.1, ih.2, and_self]

theorem sameStatements_map {f : AST → AST} {l : List AST} (h : ∀ s ∈ l, SameStatement s (f s)) :
    SameStatements l (l.map f) := by
  induction l with
  | nil => exact .nil
  | cons s l ih =>
    exact .cons (h s List.mem_cons_self) (ih fun s hs => h s (List.mem_cons_of_mem _ hs))

theorem mem_others {s : AST} {l : List AST} : s ∈ others l ↔ s ∈ l ∧ isRaw s = false := by
  simp [others]

/-- A statement that is no list, as a body of its own. -/
theorem sameBody_of_sameStatement {a : AST} (h : a.isStatements = false)
    (hsame : isRaw a = false → SameStatement a a.coalesced) : SameBody a a.coalesced := by
  have hone : ∀ {b : AST}, b.isStatements = false → b.asStatements = [b] := by
    intro b hb
    cases b <;> first | rfl | cases hb
  obtain ⟨hstmt, hraw⟩ := coalesced_class h
  refine .mk ?_ ?_
  · rw [hone h, hone hstmt]
    cases hs : isRaw a with
    | false => rw [gaps_other hs, gaps_other (hraw.trans hs)]
    | true =>
      obtain ⟨t, rfl⟩ := eq_rawBlock_of_isRaw hs
      rfl
  · rw [hone h, hone hstmt]
    cases hs : isRaw a with
    | false =>
      rw [others_other hs, others_other (hraw.trans hs)]
      exact .cons (hsame hs) .nil
    | true =>
      obtain ⟨t, rfl⟩ := eq_rawBlock_of_isRaw hs
      exact .nil

/-- Merging changes nothing but the cuts in the text. -/
theorem sameBody_coalesced (a : AST) : a.Normal →
    SameBody a a.coalesced ∧
      (a.isStatements = false → isRaw a = false → SameStatement a a.coalesced) := by
  have hleaf : ∀ a : AST, a.isStatements = false →
      (isRaw a = false → SameStatement a a.coalesced) →
      SameBody a a.coalesced ∧
        (a.isStatements = false → isRaw a = false → SameStatement a a.coalesced) :=
    fun a h hsame => ⟨sameBody_of_sameStatement h hsame, fun _ => hsame⟩
  have helse : ∀ {e : Option AST}, (∀ b, e = some b → SameBody b b.coalesced) →
      SameElse e (e.map coalesced) := by
    intro e h
    cases e with
    | none => exact .none
    | some b => exact .some (h b rfl)
  induction a with
  | statements l ih =>
    intro h
    refine ⟨?_, nofun⟩
    have hout := normalList_coalesceRawBlocks h.2
    have hstmts : ∀ s ∈ (coalesceRawBlocks l).map coalesced, s.isStatements = false := by
      intro s hs
      obtain ⟨b, hb, rfl⟩ := List.mem_map.1 hs
      exact (coalesced_class (normalList_iff.1 hout b hb).1).1
    obtain ⟨hgaps, hothers⟩ := gaps_map_coalesced hout
    obtain ⟨hgaps', hothers'⟩ := coalesceRawBlocks_keeps l
    rw [coalesced_statements h.2]
    refine .mk ?_ ?_
    · rw [asStatements_fromStatementsArray hstmts, hgaps, hgaps']
      rfl
    · rw [asStatements_fromStatementsArray hstmts, hothers, hothers']
      refine sameStatements_map fun s hs => ?_
      obtain ⟨hs, hraw⟩ := mem_others.1 hs
      obtain ⟨hstmt, hnormal⟩ := normalList_iff.1 h.2 s hs
      exact (ih s hs hnormal).2 hstmt hraw
  | rawBlock t => exact fun _ => hleaf _ rfl nofun
  | printBlock e => exact fun _ => hleaf _ rfl fun _ => .printBlock
  | includeBlock n s M => exact fun _ => hleaf _ rfl fun _ => .includeBlock
  | ifBlock c t e iht ihe =>
    intro h
    refine hleaf _ rfl fun _ => ?_
    cases e with
    | none => exact .ifBlock (iht h).1 .none
    | some e => exact .ifBlock (iht h.1).1 (.some (ihe e rfl h.2).1)
  | forBlock k v i b e ihb ihe =>
    intro h
    refine hleaf _ rfl fun _ => ?_
    cases e with
    | none => exact .forBlock (ihb h).1 .none
    | some e => exact .forBlock (ihb h.1).1 (.some (ihe e rfl h.2).1)

end AST

/-- On a normal tree the pass merges every run of raw blocks, keeps everything else, and has
nothing left to do. -/
theorem coalesceRawBlocks_lossless {a : AST} (h : a.Normal) :
    ∃ r, (∀ n, a.depth ≤ n → coalesceRawBlocksPass.process n a = .ok r) ∧ r.Coalesced ∧
      a.SameBody r ∧ ∀ n, r.depth ≤ n → coalesceRawBlocksPass.process n r = .ok r := by
  have hc := a.coalesced_coalesced h
  have hn := a.coalesced_normal h
  refine ⟨a.coalesced, fun n hn => process_coalesce a n h hn, hc, (a.sameBody_coalesced h).1, ?_⟩
  intro n hdepth
  rw [process_coalesce _ n hn hdepth, AST.coalesced_of_coalesced _ hn hc]

/-- `a`, `b` and a loop over `c` and `d`. -/
theorem coalesceRawBlocks_lossless_loop :
    let loop (body : AST) : AST := .forBlock none none (.variableReference ['x']) body none
    let a : AST := .statements [.rawBlock ['a'], .rawBlock ['b'],
      loop (.statements [.rawBlock ['c'], .rawBlock ['d']])]
    ∃ r, (∀ n, a.depth ≤ n → coalesceRawBlocksPass.process n a = .ok r) ∧ r.Coalesced ∧
      a.SameBody r ∧ ∀ n, r.depth ≤ n → coalesceRawBlocksPass.process n r = .ok r := by
  intro loop a
  have ha : a.Normal := by
    simp [a, loop, AST.Normal, AST.NormalList, AST.isStatements]
  exact coalesceRawBlocks_lossless ha

end B2
