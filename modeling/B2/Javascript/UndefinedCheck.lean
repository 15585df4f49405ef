import B2.Ecma.Evaluation
import B2.Javascript.Grouping
import B2.Javascript.Program

/-!
# The undefined check

The functions written with and without the check are run by one engine, their
expressions evaluated as they are read. The check makes `e || ''` of what is printed,
which is the empty string not only where `e` is undefined: the two outputs agree but
for undefined values exactly if no print comes to null, false, a zero or not a number.
-/

namespace B2

open Ecma (Engine Parses Segment Stmt munch)

/-! ## Reading expressions -/

/-- A numeral less its sign, which is an operator. -/
def unsigned (t : Text) : Text := if t.head? = some '-' then t.tail else t

/-- `std::to_string` writes a double that is not finite as a name, which nothing declares. -/
def JsWord.meaning {N O S : Type} (E : Engine N O S) : JsWord → Ecma.Word N O
  | .data => .name "data".toList
  | .helpers => .name "helpers".toList
  | .identifier x => .name x
  | .key t | .string t => .literal (.string t)
  | .boolean b => .literal (.boolean b)
  | .integer v => .literal (.number (E.numeral (unsigned (decimalInt v.toInt))))
  | .double (.finite s m e h) =>
    .literal (.number (E.numeral (unsigned (Double.finite s m e h).toText)))
  | .double _ => .unbound

/-- `e || ''` -/
def writtenOrEmpty (e : Expr JsVar) : List (Ecma.Piece JsWord) :=
  e.written ++ pieces [' ', '|', '|', ' '] ++ [.word (.string [])]

/-- The trees that the expressions of the statements are read as. -/
def JsExpression.Reads : JsExpression → Ecma.Tree JsWord → Prop
  | .value e, t => Parses (.expression 1) (munch [] e.written) t []
  | .orEmpty e, t => Parses (.expression 1) (munch [] (writtenOrEmpty e)) t []
  | .text s, t => t = .word (.string s)
  | .boolean b, t => t = .word (.boolean b)
  | .identifier x, t => t = .word (.identifier x)
  | .notOwn object key, t =>
    t = .unary ['!'] (.call (.element (.word (.identifier object))
      (.word (.key "hasOwnProperty".toList))) [.word (.identifier key)])
  | .element object key, t =>
    t = .element (.word (.identifier object)) (.word (.identifier key))

theorem JsExpression.Reads.unique {x : JsExpression} {t t' : Ecma.Tree JsWord} (h : x.Reads t)
    (h' : x.Reads t') : t = t' := by
  cases x with
  | value e | orEmpty e => exact (Parses.unique h h').1
  | _ => exact h.trans h'.symm

theorem reads_orEmpty {e : Expr JsVar} {t : Ecma.Tree JsWord}
    (h : (JsExpression.value e).Reads t) :
    (JsExpression.orEmpty e).Reads (.binary ['|', '|'] t (.word (.string []))) := by
  have htokens : munch [] (writtenOrEmpty e) =
      munch [] e.written ++ [.punctuator ['|', '|'], .word (.string [])] := by
    rw [writtenOrEmpty, List.append_assoc]
    exact Ecma.munch_append_blank e.written _ []
  show Parses (.expression 1) (munch [] (writtenOrEmpty e)) _ []
  rw [htokens]
  exact Parses.or_word _ h

namespace JavascriptVisitor

section

variable {N O S : Type} (E : Engine N O S)

open Classical in
/-- An expression is evaluated as the tree that it is read as. -/
noncomputable def evaluate (x : JsExpression) : Ecma.Effect S (Ecma.Value N O) :=
  if h : ∃ t, x.Reads t then E.eval (JsWord.meaning E) h.choose else fun _ => none

variable {E} in
theorem evaluate_eq {x : JsExpression} {t : Ecma.Tree JsWord} (h : x.Reads t) :
    evaluate E x = E.eval (JsWord.meaning E) t := by
  have hex : ∃ t, x.Reads t := ⟨t, h⟩
  rw [evaluate, dif_pos hex, hex.choose_spec.unique h]

/-- The function is read, and returns what `segments` add up to. -/
def Returns (undefinedCheck : Bool) (a : AST) (s : S) (segments : List (Segment N O)) : Prop :=
  ∃ lines body stmts, visit undefinedCheck a = .ok lines ∧ bodyLines lines = some body ∧
    Ecma.parse body = some stmts ∧
    (∀ x ∈ Stmt.appendsList stmts ++ Stmt.othersList stmts, ∃ t, x.Reads t) ∧
    ∃ s' c, E.execList (evaluate E) stmts s = some (s', segments, c)

/-- What is returned. -/
def output (segments : List (Segment N O)) : Text := segments.flatMap Prod.snd

/-- What is returned with the empty string for every undefined value. -/
def withoutUndefined (segments : List (Segment N O)) : Text :=
  segments.flatMap fun p =>
    match p.1 with
    | .undefined => []
    | _ => p.2

/-- The check replaces undefined values and no others. -/
def UndefinedOnly (a : AST) (s : S) : Prop :=
  ∀ segments, Returns E false a s segments →
    ∃ segments', Returns E true a s segments' ∧ output segments' = withoutUndefined segments

/-- The values other than undefined and the empty string that count as false. -/
def OtherFalse : Ecma.Value N O → Prop
  | .null | .boolean false | .number .nan | .number (.zero _) => True
  | _ => False

end

/-! ## The statements with the check -/

/-- What the check makes of an appended expression. -/
def check : JsExpression → JsExpression
  | .value e => .orEmpty e
  | x => x

theorem compile_check (a : AST) : ∀ n shadowValues,
    compile true n shadowValues a =
      Stmt.mapAppendsList check (compile false n shadowValues a) := by
  induction a with
  | statements l ih =>
    intro n shadowValues
    simp only [compile]
    induction l generalizing n with
    | nil => rfl
    | cons s l ihl =>
      simp only [compileList, Stmt.mapAppendsList_append, ih s List.mem_cons_self,
        ihl fun s hs => ih s (List.mem_cons_of_mem _ hs)]
  | rawBlock t | printBlock e | includeBlock name scope M => exact fun _ _ => rfl
  | ifBlock c t e iht ihe =>
    intro n shadowValues
    cases e with
    | none => simp only [compile, iht, Stmt.mapAppendsList, Stmt.mapAppends]
    | some e => simp only [compile, iht, ihe e rfl, Stmt.mapAppendsList, Stmt.mapAppends]
  | forBlock k v i b e ihb ihe =>
    intro n shadowValues
    have hbody : ∀ n flag (body : List (Stmt JsExpression)),
        Stmt.mapAppendsList check (loopBody n v flag body) =
          loopBody n v flag (Stmt.mapAppendsList check body) := by
      intro n flag body
      cases v <;> cases flag <;>
        simp [loopBody, Stmt.mapAppendsList, Stmt.mapAppends, Stmt.mapAppendsList_append]
    cases e with
    | none => simp only [compile, ihb, Stmt.mapAppendsList, Stmt.mapAppends, hbody]
    | some e =>
      simp only [compile, ihb, ihe e rfl, Stmt.mapAppendsList, Stmt.mapAppends, hbody]

/-- Printed expressions and raw text are appended, and nothing else. -/
def Appended (x : JsExpression) : Prop := (∃ e, x = .value e) ∨ ∃ t, x = .text t

theorem appendsList_append {ε : Type} (l l' : List (Stmt ε)) :
    Stmt.appendsList (l ++ l') = Stmt.appendsList l ++ Stmt.appendsList l' := by
  induction l with
  | nil => rfl
  | cons s l ih => simp [Stmt.appendsList, ih]

theorem appended_compile (a : AST) : ∀ n shadowValues,
    ∀ x ∈ Stmt.appendsList (compile false n shadowValues a), Appended x := by
  induction a with
  | statements l ih =>
    intro n shadowValues
    simp only [compile]
    induction l generalizing n with
    | nil => rintro _ ⟨⟩
    | cons s l ihl =>
      simp only [compileList, appendsList_append]
      exact List.forall_mem_append.2 ⟨ih s List.mem_cons_self n shadowValues,
        ihl (fun s hs => ih s (List.mem_cons_of_mem _ hs)) _⟩
  | rawBlock t => exact fun _ _ => List.forall_mem_singleton.2 (.inr ⟨t, rfl⟩)
  | printBlock e => exact fun _ _ => List.forall_mem_singleton.2 (.inl ⟨_, rfl⟩)
  | includeBlock name scope M => rintro _ _ _ ⟨⟩
  | ifBlock c t e iht ihe =>
    intro n shadowValues
    cases e with
    | none => simpa [compile, Stmt.appendsList, Stmt.appends] using iht n shadowValues
    | some e =>
      simp only [compile, Stmt.appendsList, Stmt.appends, List.append_nil]
      exact List.forall_mem_append.2 ⟨iht n shadowValues, ihe e rfl _ shadowValues⟩
  | forBlock k v i b e ihb ihe =>
    intro n shadowValues
    have hbody : ∀ n flag (body : List (Stmt JsExpression)),
        Stmt.appendsList (loopBody n v flag body) = Stmt.appendsList body := by
      intro n flag body
      cases v <;> cases flag <;> simp [loopBody, Stmt.appendsList, Stmt.appends, appendsList_append]
    cases e with
    | none => simpa [compile, Stmt.appendsList, Stmt.appends, hbody] using ihb _ _
    | some e =>
      simp only [compile, Stmt.appendsList, Stmt.appends, hbody, List.append_nil, List.nil_append]
      exact List.forall_mem_append.2 ⟨ihb _ _, ihe e rfl _ shadowValues⟩

/-! ## The two functions -/

section

variable {N O S : Type} {E : Engine N O S} {a : AST} {s : S}

/-- What is added with the check in the place of a segment. -/
def checked (p : Segment N O) : Segment N O := if p.1.isTrue then p else (.string [], [])

theorem replaces_check {x : JsExpression} (h : Appended x) (hread : ∃ t, x.Reads t) :
    E.Replaces (evaluate E) check checked x := by
  intro s v s' t hv ht
  rcases h with ⟨e, rfl⟩ | ⟨u, rfl⟩
  · obtain ⟨tree, htree⟩ := hread
    have heval : evaluate E (.orEmpty e) s = some (if v.isTrue then v else .string [], s') := by
      rw [evaluate_eq htree] at hv
      have hword : JsWord.meaning E (.string []) = .literal (.string []) := rfl
      rw [evaluate_eq (reads_orEmpty htree), Engine.eval_or E _ hword, hv]
      rfl
    show evaluate E (.orEmpty e) s = _ ∧ _
    rw [heval, checked]
    by_cases hv : v.isTrue = true
    · simp only [hv, if_true]
      exact ⟨trivial, ht⟩
    · simp only [hv]
      exact ⟨rfl, rfl⟩
  · -- raw text is the empty string where it counts as false
    have heval : evaluate E (.text u) s = some (.string u, s) := by
      have hread : (JsExpression.text u).Reads (.word (.string u)) := rfl
      rw [evaluate_eq hread]
      rfl
    rw [heval] at hv
    cases hv
    have htext : u = t := Option.some.inj ht
    subst htext
    have hsame : checked ((.string u, u) : Segment N O) = (.string u, u) := by
      by_cases hu : u = []
      · subst hu
        rfl
      · have htrue : (Ecma.Value.string u : Ecma.Value N O).isTrue = true := decide_eq_true hu
        rw [checked, if_pos htrue]
    rw [hsame]
    exact ⟨heval, rfl⟩

theorem reads_check {x : JsExpression} (h : Appended x) (hread : ∃ t, x.Reads t) :
    ∃ t, (check x).Reads t := by
  rcases h with ⟨e, rfl⟩ | ⟨u, rfl⟩
  · obtain ⟨t, ht⟩ := hread
    exact ⟨_, reads_orEmpty ht⟩
  · exact hread

/-- With the check a template runs as without it, and adds what is checked. -/
theorem Returns.check {segments : List (Segment N O)} (ha : a.IncludeFree)
    (h : Returns E false a s segments) : Returns E true a s (segments.map checked) := by
  obtain ⟨lines, body, stmts, hvisit, hbody, hparse, hreads, s', c, hexec⟩ := h
  obtain ⟨lines₁, body₁, hvisit₁, hbody₁, hparse₁, -⟩ := visit_compile false ha
  obtain rfl : lines = lines₁ := Except.ok.inj (hvisit.symm.trans hvisit₁)
  obtain rfl : body = body₁ := Option.some.inj (hbody.symm.trans hbody₁)
  obtain rfl : stmts = compile false 0 (fun _ => none) a :=
    Option.some.inj (hparse.symm.trans hparse₁)
  obtain ⟨lines₂, body₂, hvisit₂, hbody₂, hparse₂, -⟩ := visit_compile true ha
  rw [compile_check] at hparse₂
  obtain ⟨happends, hothers⟩ := List.forall_mem_append.1 hreads
  have happended := appended_compile a 0 fun _ => none
  refine ⟨lines₂, body₂, _, hvisit₂, hbody₂, hparse₂, ?_, s', c, ?_⟩
  · rw [Stmt.appendsList_mapAppends, Stmt.othersList_mapAppends]
    refine List.forall_mem_append.2 ⟨List.forall_mem_map.2 fun x hx => ?_, hothers⟩
    exact reads_check (happended x hx) (happends x hx)
  · exact Engine.execList_mapAppends _
      (fun x hx => replaces_check (happended x hx) (happends x hx)) _ _ _ _ hexec

theorem Returns.unique {undefinedCheck : Bool} {segments segments' : List (Segment N O)}
    (h : Returns E undefinedCheck a s segments) (h' : Returns E undefinedCheck a s segments') :
    segments = segments' := by
  obtain ⟨lines, body, stmts, hvisit, hbody, hparse, -, s₁, c₁, hexec⟩ := h
  obtain ⟨lines', body', stmts', hvisit', hbody', hparse', -, s₂, c₂, hexec'⟩ := h'
  obtain rfl : lines = lines' := Except.ok.inj (hvisit.symm.trans hvisit')
  obtain rfl : body = body' := Option.some.inj (hbody.symm.trans hbody')
  obtain rfl : stmts = stmts' := Option.some.inj (hparse.symm.trans hparse')
  rw [hexec] at hexec'
  cases hexec'
  rfl

/-- What is added is the text of a value. -/
theorem Returns.text {undefinedCheck : Bool} {segments : List (Segment N O)}
    (h : Returns E undefinedCheck a s segments) : ∀ p ∈ segments, ∃ s, E.text p.1 s = some p.2 := by
  obtain ⟨-, -, stmts, -, -, -, -, s', c, hexec⟩ := h
  exact Engine.execList_forall (P := fun p => ∃ s, E.text p.1 s = some p.2)
    (fun v s t ht => ⟨s, ht⟩) stmts _ _ _ _ hexec

theorem OtherFalse.text_ne_nil {v : Ecma.Value N O} {t : Text} {s : S} (h : OtherFalse v)
    (ht : E.text v s = some t) : v.isTrue = false ∧ t ≠ [] := by
  cases v with
  | null =>
    obtain rfl := Option.some.inj ht
    exact ⟨rfl, by decide⟩
  | boolean b =>
    cases b with
    | true => cases h
    | false =>
      obtain rfl := Option.some.inj ht
      exact ⟨rfl, by decide⟩
  | number n =>
    cases n with
    | nan | zero =>
      obtain rfl := Option.some.inj ht
      exact ⟨rfl, by decide⟩
    | other n => cases h
  | undefined | string | object => cases h

/-- The check takes something away exactly where a value other than undefined and the empty string
counts as false. -/
theorem checked_text {p : Segment N O} {s : S} (h : E.text p.1 s = some p.2) :
    (¬OtherFalse p.1 → (checked p).2 = withoutUndefined [p]) ∧
      (OtherFalse p.1 → (checked p).2.length < (withoutUndefined [p]).length) := by
  obtain ⟨v, t⟩ := p
  constructor
  · intro hv
    cases v with
    | undefined => rfl
    | null => exact absurd trivial hv
    | boolean b =>
      cases b with
      | false => exact absurd trivial hv
      | true => exact (List.append_nil t).symm
    | number n =>
      cases n with
      | nan | zero => exact absurd trivial hv
      | other n => exact (List.append_nil t).symm
    | string u =>
      obtain rfl := Option.some.inj h
      by_cases hu : u = []
      · subst hu
        rfl
      · simp [checked, Ecma.Value.isTrue, withoutUndefined, hu]
    | object o => exact (List.append_nil t).symm
  · intro hv
    obtain ⟨hfalse, hne⟩ := hv.text_ne_nil h
    have hchecked : checked (v, t) = (.string [], []) := by simp [checked, hfalse]
    have hkept : withoutUndefined [(v, t)] = t := by
      cases v with
      | undefined => cases hv
      | _ => exact List.append_nil t
    rw [hchecked, hkept]
    exact List.length_pos_iff.2 hne

theorem withoutUndefined_cons {p : Segment N O} {l : List (Segment N O)} :
    withoutUndefined (p :: l) = withoutUndefined [p] ++ withoutUndefined l := by
  simp [withoutUndefined]

theorem output_checked {l : List (Segment N O)} (htext : ∀ p ∈ l, ∃ s, E.text p.1 s = some p.2) :
    (output (l.map checked)).length ≤ (withoutUndefined l).length ∧
      (output (l.map checked) = withoutUndefined l ↔ ∀ p ∈ l, ¬OtherFalse p.1) := by
  induction l with
  | nil => exact ⟨le_rfl, iff_of_true rfl nofun⟩
  | cons p l ih =>
    obtain ⟨⟨s, hs⟩, htext⟩ := List.forall_mem_cons.1 htext
    obtain ⟨hle, hiff⟩ := ih htext
    obtain ⟨hsame, hless⟩ := checked_text hs
    have hcons : output ((p :: l).map checked) = (checked p).2 ++ output (l.map checked) := rfl
    rw [hcons, withoutUndefined_cons, List.forall_mem_cons, List.length_append, List.length_append]
    by_cases hp : OtherFalse p.1
    · have hlt := hless hp
      refine ⟨by omega, iff_of_false (fun heq => ?_) fun h => h.1 hp⟩
      have hlength := congrArg List.length heq
      rw [List.length_append, List.length_append] at hlength
      omega
    · rw [hsame hp, List.append_cancel_left_eq, hiff]
      exact ⟨by omega, (and_iff_right hp).symm⟩

end

/-- The check replaces undefined values only, exactly if without it no value is added that is null,
false, a zero or not a number. -/
theorem undefinedOnly_iff {N O S : Type} (E : Engine N O S) {a : AST} (h : a.IncludeFree) (s : S) :
    UndefinedOnly E a s ↔
      ∀ segments, Returns E false a s segments → ∀ p ∈ segments, ¬OtherFalse p.1 := by
  constructor
  · intro honly segments hreturns
    obtain ⟨segments', hreturns', houtput⟩ := honly segments hreturns
    rw [← (hreturns.check h).unique hreturns'] at houtput
    exact (output_checked hreturns.text).2.1 houtput
  · intro hall segments hreturns
    exact ⟨_, hreturns.check h, (output_checked hreturns.text).2.2 (hall segments hreturns)⟩

/-- `{{ foo }}` -/
def printFoo : AST := .printBlock (.variableReference "foo".toList)

/-- Data of which every property is `v`, and nothing else that does not throw. -/
def oneValue (v : Ecma.Value Empty Unit) : Engine Empty Unit Unit where
  lookup x _ := if x = "data".toList then .object () else .undefined
  assign _ _ s := s
  element object _ s :=
    match object with
    | .object () => some (v, s)
    | _ => none
  call _ _ _ _ := none
  unary _ _ _ := none
  binary _ _ _ _ := none
  updateElement _ _ _ _ _ := none
  updateName _ _ _ _ := none
  numeral _ := .nan
  numberText := nofun
  objectText _ _ := some "[object Object]".toList
  keys _ _ := []

theorem returns_printFoo {v : Ecma.Value Empty Unit} {t : Text} (h : (oneValue v).text v () = some t) :
    Returns (oneValue v) false printFoo () [(v, t)] := by
  have hread : (JsExpression.value (.variableReference (.data "foo".toList))).Reads
      (.element (.word .data) (.word (.key "foo".toList))) := by
    let e : Expr JsVar := .variableReference (.data "foo".toList)
    have hreads : e.ReadsBack := (Expr.readsBack_iff_grouped (e := e) trivial).2 trivial
    exact (hreads _).2 rfl
  refine ⟨_, _, _, rfl, rfl, rfl, List.forall_mem_singleton.2 ⟨_, hread⟩, (), .normal, ?_⟩
  have heval : evaluate (oneValue v) (.value (.variableReference (.data "foo".toList))) () =
      some (v, ()) := by
    rw [evaluate_eq hread]
    rfl
  show (Engine.execList (oneValue v) (evaluate (oneValue v))
    [.append (.value (.variableReference (.data "foo".toList)))] ()) = _
  simp only [Engine.execList, Engine.exec, heval, h, Option.bind_eq_bind, Option.bind_some,
    Option.pure_def, List.append_nil]

theorem undefinedOnly_undefined : UndefinedOnly (oneValue .undefined) printFoo () := by
  refine (undefinedOnly_iff (oneValue .undefined) (a := printFoo) trivial ()).2 ?_
  intro segments hreturns
  rw [hreturns.unique (returns_printFoo (t := "undefined".toList) rfl)]
  exact List.forall_mem_singleton.2 id

/-- `{{ foo }}` with 0. -/
theorem not_undefinedOnly_zero : ¬UndefinedOnly (oneValue (.number (.zero false))) printFoo () := by
  intro honly
  have hreturns := returns_printFoo (v := .number (.zero false)) (t := "0".toList) rfl
  obtain ⟨segments', hreturns', houtput⟩ := honly _ hreturns
  rw [← (hreturns.check (a := printFoo) trivial).unique hreturns'] at houtput
  exact absurd houtput (by decide)

end JavascriptVisitor

end B2
