import Mathlib.Tactic

/-!
# A structured statement language

The part of ECMAScript a code generator with one output buffer writes: lines
with block braces, the statements they read as, and the execution of
statements over function-scoped variables. Expressions are a parameter.

Lines are read by a machine that keeps the open blocks on a stack, so a program
is read in pieces (`List.foldlM_append`), and only a program whose braces
balance is read to the end (`bracesBalance_of_parse`). `Ends` says what running
statements adds to the output and how it leaves the variables, with one rule a
statement.
-/

namespace Ecma

abbrev Name := List Char

/-- A line of a program. -/
inductive Line (ε : Type) where
  | blank
  /-- `buffer += e;` -/
  | append (e : ε)
  /-- `var x = e;` -/
  | declare (x : Name) (e : ε)
  /-- `x = e;` -/
  | assign (x : Name) (e : ε)
  /-- `if (c) continue;` -/
  | continueIf (c : ε)
  /-- `for (var x in object) {` -/
  | openFor (x object : Name)
  /-- `if (c) {` -/
  | openIf (c : ε)
  /-- `} else if (c) {` -/
  | elseIf (c : ε)
  /-- `} else {` -/
  | openElse
  /-- `}` -/
  | close

inductive Stmt (ε : Type) where
  | append (e : ε)
  | assign (x : Name) (e : ε)
  | continueIf (c : ε)
  | forIn (x object : Name) (body : List (Stmt ε))
  | ifElse (c : ε) (thenBranch elseBranch : List (Stmt ε))

/-! ## Reading lines -/

section

variable {ε : Type}

/-- An open block, with the statements before it. -/
inductive Frame (ε : Type) where
  | loop (x object : Name) (before : List (Stmt ε))
  | thenBranch (c : ε) (before : List (Stmt ε))
  | elseBranch (c : ε) (thenBranch before : List (Stmt ε))
  /-- the else branch that an `else if` is; it has no brace of its own -/
  | elseIf (c : ε) (thenBranch before : List (Stmt ε))

/-- After an `if` statement has ended, the `else if`s it is the last branch of end. -/
def unwind : List (Frame ε) → List (Stmt ε) → List (Frame ε) × List (Stmt ε)
  | .elseIf c t before :: frames, stmts => unwind frames (before ++ [.ifElse c t stmts])
  | frames, stmts => (frames, stmts)

/-- One line, read with the open blocks and the statements of the innermost one so far. -/
def readLine : List (Frame ε) × List (Stmt ε) → Line ε →
    Option (List (Frame ε) × List (Stmt ε))
  | s, .blank => some s
  | (frames, stmts), .append e => some (frames, stmts ++ [.append e])
  | (frames, stmts), .declare x e | (frames, stmts), .assign x e =>
    some (frames, stmts ++ [.assign x e])
  | (frames, stmts), .continueIf c => some (frames, stmts ++ [.continueIf c])
  | (frames, stmts), .openFor x object => some (.loop x object stmts :: frames, [])
  | (frames, stmts), .openIf c => some (.thenBranch c stmts :: frames, [])
  | (.thenBranch c before :: frames, stmts), .elseIf c' =>
    some (.thenBranch c' [] :: .elseIf c stmts before :: frames, [])
  | (.thenBranch c before :: frames, stmts), .openElse =>
    some (.elseBranch c stmts before :: frames, [])
  | (.loop x object before :: frames, stmts), .close =>
    some (frames, before ++ [.forIn x object stmts])
  | (.thenBranch c before :: frames, stmts), .close =>
    some (unwind frames (before ++ [.ifElse c stmts []]))
  | (.elseBranch c t before :: frames, stmts), .close =>
    some (unwind frames (before ++ [.ifElse c t stmts]))
  | _, .elseIf _ | _, .openElse | _, .close => none

/-- The statements a program reads as, if it does. -/
def parse (lines : List (Line ε)) : Option (List (Stmt ε)) :=
  match lines.foldlM readLine ([], []) with
  | some ([], stmts) => some stmts
  | _ => none

/-- Lines that are whole statements read as `stmts` in any block. -/
def Reads (lines : List (Line ε)) (stmts : List (Stmt ε)) : Prop :=
  ∀ frames before, unwind frames = Prod.mk frames →
    lines.foldlM readLine (frames, before) = some (frames, before ++ stmts)

/-- Lines that go on after the then branch of an `if` read as its else branch `stmts`. -/
def ReadsElse (lines : List (Line ε)) (stmts : List (Stmt ε)) : Prop :=
  ∀ c before thenBranch frames,
    lines.foldlM readLine (.thenBranch c before :: frames, thenBranch) =
      some (unwind frames (before ++ [.ifElse c thenBranch stmts]))

theorem Reads.parse {lines : List (Line ε)} {stmts : List (Stmt ε)} (h : Reads lines stmts) :
    Ecma.parse lines = some stmts := by
  rw [Ecma.parse, h [] [] rfl]
  rfl

theorem Reads.nil : Reads ([] : List (Line ε)) [] := fun frames before _ => by simp

theorem Reads.append {l₁ l₂ : List (Line ε)} {s₁ s₂ : List (Stmt ε)} (h₁ : Reads l₁ s₁)
    (h₂ : Reads l₂ s₂) : Reads (l₁ ++ l₂) (s₁ ++ s₂) := by
  intro frames before hf
  rw [List.foldlM_append, h₁ frames before hf, Option.bind_eq_bind, Option.bind_some,
    h₂ frames _ hf, List.append_assoc]

theorem Reads.blank : Reads [(.blank : Line ε)] [] := fun frames before _ => by simp [readLine]

/-- A line that is a statement of its own. -/
theorem Reads.line {l : Line ε} {s : Stmt ε}
    (h : ∀ frames before, readLine (frames, before) l = some (frames, before ++ [s])) :
    Reads [l] [s] := fun frames before _ => by simp [h]

theorem Reads.forIn {lines : List (Line ε)} {body : List (Stmt ε)} (x object : Name)
    (h : Reads lines body) :
    Reads (.openFor x object :: lines ++ [.close]) [.forIn x object body] := by
  intro frames before _
  rw [List.cons_append, List.foldlM_cons, readLine, Option.bind_eq_bind, Option.bind_some,
    List.foldlM_append, h _ _ rfl]
  rfl

/-- An `if` with what follows its then branch. -/
theorem Reads.ifElse {lines rest : List (Line ε)} {t e : List (Stmt ε)} (c : ε)
    (h : Reads lines t) (hrest : ReadsElse rest e) :
    Reads (.openIf c :: lines ++ rest) [.ifElse c t e] := by
  intro frames before hf
  rw [List.cons_append, List.foldlM_cons, readLine, Option.bind_eq_bind, Option.bind_some,
    List.foldlM_append, h _ _ rfl, Option.bind_eq_bind, Option.bind_some, List.nil_append,
    hrest, hf]

theorem ReadsElse.elseIf {lines rest : List (Line ε)} {t e : List (Stmt ε)} (c : ε)
    (h : Reads lines t) (hrest : ReadsElse rest e) :
    ReadsElse (.elseIf c :: lines ++ rest) [.ifElse c t e] := by
  intro c' before t' frames
  rw [List.cons_append, List.foldlM_cons, readLine, Option.bind_eq_bind, Option.bind_some,
    List.foldlM_append, h _ _ rfl, Option.bind_eq_bind, Option.bind_some, List.nil_append,
    hrest, unwind, List.nil_append]

theorem ReadsElse.close : ReadsElse [(.close : Line ε)] [] := fun _ _ _ _ => by
  simp [readLine]

theorem ReadsElse.openElse {lines : List (Line ε)} {e : List (Stmt ε)} (h : Reads lines e) :
    ReadsElse (.openElse :: lines ++ [.close]) e := by
  intro c before t frames
  rw [List.cons_append, List.foldlM_cons, readLine, Option.bind_eq_bind, Option.bind_some,
    List.foldlM_append, h _ _ rfl]
  simp [readLine]

theorem ReadsElse.blank {lines : List (Line ε)} {e : List (Stmt ε)} (h : ReadsElse lines e) :
    ReadsElse (lines ++ [.blank]) e := by
  intro c before t frames
  rw [List.foldlM_append, h]
  simp [readLine]

/-! ## Braces -/

/-- The number of open braces after a line; a line that closes more than is open has none. -/
def braces : Nat → Line ε → Option Nat
  | n, .openFor .. | n, .openIf _ => some (n + 1)
  | 0, .elseIf _ | 0, .openElse | 0, .close => none
  | n + 1, .elseIf _ | n + 1, .openElse => some (n + 1)
  | n + 1, .close => some n
  | n, .blank | n, .append _ | n, .declare .. | n, .assign .. | n, .continueIf _ => some n

/-- Every closing brace has an opening one before it, and every opening one is closed. -/
def BracesBalance (lines : List (Line ε)) : Prop := lines.foldlM braces 0 = some 0

/-- The blocks that have a brace of their own. -/
def openBraces : List (Frame ε) → Nat
  | [] => 0
  | .elseIf .. :: frames => openBraces frames
  | _ :: frames => openBraces frames + 1

theorem openBraces_unwind : ∀ (frames : List (Frame ε)) (stmts : List (Stmt ε)),
    openBraces (unwind frames stmts).1 = openBraces frames
  | [], _ => rfl
  | .elseIf _ _ _ :: frames, _ => openBraces_unwind frames _
  | .loop .. :: _, _ | .thenBranch .. :: _, _ | .elseBranch .. :: _, _ => rfl

theorem braces_of_readLine {s s' : List (Frame ε) × List (Stmt ε)} {l : Line ε}
    (h : readLine s l = some s') : braces (openBraces s.1) l = some (openBraces s'.1) := by
  obtain ⟨frames, stmts⟩ := s
  cases l <;> rcases frames with _ | ⟨_ | _ | _ | _, frames⟩ <;>
    simp only [readLine, Option.some.injEq, reduceCtorEq] at h <;> subst h <;>
    simp [braces, openBraces, openBraces_unwind]

theorem foldlM_braces : ∀ {lines : List (Line ε)} {s s' : List (Frame ε) × List (Stmt ε)},
    lines.foldlM readLine s = some s' →
      lines.foldlM braces (openBraces s.1) = some (openBraces s'.1)
  | [], s, s', h => by
    cases h
    rfl
  | l :: lines, s, s', h => by
    rw [List.foldlM_cons, Option.bind_eq_bind, Option.bind_eq_some_iff] at h
    obtain ⟨s₁, h₁, h⟩ := h
    rw [List.foldlM_cons, braces_of_readLine h₁]
    exact foldlM_braces h

theorem bracesBalance_of_parse {lines : List (Line ε)} {stmts : List (Stmt ε)}
    (h : parse lines = some stmts) : BracesBalance lines := by
  rw [parse] at h
  split at h
  · rename_i s hs
    exact foldlM_braces hs
  · cases h

end

/-! ## Execution -/

/-- What expressions and values do. -/
structure Semantics (ε V : Type) where
  eval : (Name → V) → ε → Option V
  text : V → Option (List Char)
  isTrue : V → Bool
  keys : V → List Name
  ofKey : Name → V

/-- The variables of the function and its output. -/
structure State (V : Type) where
  vars : Name → V
  buffer : List Char

/-- How a statement ends when it does not throw. -/
inductive Completion where
  | normal
  | continued

section

variable {ε V : Type} (D : Semantics ε V)

mutual

def exec : Stmt ε → State V → Option (State V × Completion)
  | .append e, s => do
    let v ← D.eval s.vars e
    let t ← D.text v
    return ({ s with buffer := s.buffer ++ t }, .normal)
  | .assign x e, s => do
    let v ← D.eval s.vars e
    return ({ s with vars := Function.update s.vars x v }, .normal)
  | .continueIf c, s => do
    let v ← D.eval s.vars c
    return (s, if D.isTrue v then .continued else .normal)
  | .ifElse c t e, s => do
    let v ← D.eval s.vars c
    if D.isTrue v then execList t s else execList e s
  | .forIn x object body, s => do
    let s' ← (D.keys (s.vars object)).foldlM (fun s key => do
      let r ← execList body { s with vars := Function.update s.vars x (D.ofKey key) }
      return r.1) s
    return (s', .normal)

def execList : List (Stmt ε) → State V → Option (State V × Completion)
  | [], s => some (s, .normal)
  | stmt :: stmts, s => do
    let r ← exec stmt s
    match r.2 with
    | .normal => execList stmts r.1
    | .continued => some (r.1, .continued)

end

theorem execList_append (l₁ l₂ : List (Stmt ε)) (s : State V) :
    execList D (l₁ ++ l₂) s = (execList D l₁ s).bind fun r =>
      match r.2 with
      | .normal => execList D l₂ r.1
      | .continued => some (r.1, .continued) := by
  induction l₁ generalizing s with
  | nil => rfl
  | cons stmt l₁ ih =>
    simp only [List.cons_append, execList]
    cases exec D stmt s with
    | none => rfl
    | some r =>
      obtain ⟨s', c⟩ := r
      cases c with
      | normal => exact ih s'
      | continued => rfl

theorem execList_singleton (stmt : Stmt ε) (s : State V) :
    execList D [stmt] s = exec D stmt s := by
  rw [execList]
  cases exec D stmt s with
  | none => rfl
  | some r =>
    obtain ⟨s', c⟩ := r
    cases c <;> rfl

end

/-! ## Rules for runs -/

section

variable {ε V : Type} {D : Semantics ε V} {P Q : (Name → V) → Prop}

/-- Running the statements throws where there is no output, and otherwise adds the output
and ends with `P`. -/
def Ends (D : Semantics ε V) (stmts : List (Stmt ε)) (s : State V)
    (out : Option (List Char)) (P : Completion → (Name → V) → Prop) : Prop :=
  match out with
  | none => execList D stmts s = none
  | some out => ∃ σ c, execList D stmts s = some (⟨σ, s.buffer ++ out⟩, c) ∧ P c σ

/-- The statements end, and no `continue` was met. -/
def Runs (D : Semantics ε V) (stmts : List (Stmt ε)) (s : State V)
    (out : Option (List Char)) (P : (Name → V) → Prop) : Prop :=
  Ends D stmts s out fun c σ => c = .normal ∧ P σ

theorem Runs.nil {s : State V} (h : P s.vars) : Runs D [] s (some []) P :=
  ⟨s.vars, .normal, by simp [execList], rfl, h⟩

theorem Ends.mono {stmts : List (Stmt ε)} {s : State V} {out : Option (List Char)}
    {P Q : Completion → (Name → V) → Prop} (h : Ends D stmts s out P)
    (hPQ : ∀ c σ, P c σ → Q c σ) : Ends D stmts s out Q := by
  cases out with
  | none => exact h
  | some out =>
    obtain ⟨σ, c, hexec, hP⟩ := h
    exact ⟨σ, c, hexec, hPQ c σ hP⟩

theorem Runs.mono {stmts : List (Stmt ε)} {s : State V} {out : Option (List Char)}
    (h : Runs D stmts s out P) (hPQ : ∀ σ, P σ → Q σ) : Runs D stmts s out Q :=
  Ends.mono h fun _ σ hc => ⟨hc.1, hPQ σ hc.2⟩

/-- Statements one after the other. -/
theorem Runs.append {l m : List (Stmt ε)} {s : State V} {out₁ out₂ : Option (List Char)}
    {Q : Completion → (Name → V) → Prop} (h₁ : Runs D l s out₁ P)
    (h₂ : ∀ σ buffer, P σ → Ends D m ⟨σ, buffer⟩ out₂ Q) :
    Ends D (l ++ m) s (out₁.bind fun a => out₂.map (a ++ ·)) Q := by
  cases out₁ with
  | none =>
    have h : execList D l s = none := h₁
    simp only [Option.bind_none, Ends, execList_append, h]
  | some a =>
    obtain ⟨σ, c, hexec, rfl, hP⟩ := h₁
    have h := h₂ σ (s.buffer ++ a) hP
    cases out₂ with
    | none =>
      simp only [Ends] at h
      simp only [Option.bind_some, Option.map_none, Ends, execList_append, hexec, h]
    | some b =>
      obtain ⟨σ', c', hexec', hQ⟩ := h
      refine ⟨σ', c', ?_, hQ⟩
      rw [execList_append, hexec]
      simp only [Option.bind_some, hexec', List.append_assoc]

/-- Statements without output before others. -/
theorem Runs.before {l m : List (Stmt ε)} {s : State V} {out : Option (List Char)}
    {Q : Completion → (Name → V) → Prop} (h₁ : Runs D l s (some []) P)
    (h₂ : ∀ σ buffer, P σ → Ends D m ⟨σ, buffer⟩ out Q) : Ends D (l ++ m) s out Q := by
  simpa using h₁.append h₂

/-- Statements without output after others. -/
theorem Runs.after {l₁ l₂ : List (Stmt ε)} {s : State V} {out : Option (List Char)}
    {Q : Completion → (Name → V) → Prop} (h₁ : Runs D l₁ s out P)
    (h₂ : ∀ σ buffer, P σ → Ends D l₂ ⟨σ, buffer⟩ (some []) Q) : Ends D (l₁ ++ l₂) s out Q := by
  simpa using h₁.append h₂

theorem Runs.assign {x : Name} {e : ε} {s : State V} {v : V} (he : D.eval s.vars e = some v)
    (h : P (Function.update s.vars x v)) : Runs D [.assign x e] s (some []) P :=
  ⟨_, .normal, by rw [execList_singleton]; simp [exec, he], rfl, h⟩

/-- An expression that throws ends the run. -/
theorem Ends.assign_none {x : Name} {e : ε} {l : List (Stmt ε)} {s : State V}
    {Q : Completion → (Name → V) → Prop} (he : D.eval s.vars e = none) :
    Ends D (.assign x e :: l) s none Q := by
  simp [Ends, execList, exec, he]

theorem Runs.appendStmt {e : ε} {s : State V} (h : P s.vars) :
    Runs D [.append e] s ((D.eval s.vars e).bind D.text) P := by
  unfold Runs Ends
  rw [execList_singleton]
  cases hv : D.eval s.vars e with
  | none => simp [exec, hv]
  | some v =>
    rw [Option.bind_some]
    cases ht : D.text v with
    | none => simp [exec, hv, ht]
    | some t => exact ⟨s.vars, .normal, by simp [exec, hv, ht], rfl, h⟩

theorem Runs.ifElse {c : ε} {t e : List (Stmt ε)} {s : State V} {out₁ out₂ : Option (List Char)}
    (ht : Runs D t s out₁ P) (he : Runs D e s out₂ P) :
    Runs D [.ifElse c t e] s
      ((D.eval s.vars c).bind fun v => if D.isTrue v then out₁ else out₂) P := by
  unfold Runs Ends at *
  rw [execList_singleton]
  cases hv : D.eval s.vars c with
  | none => simp [exec, hv]
  | some v =>
    cases hb : D.isTrue v <;> simp only [exec, hv, hb, Option.bind_eq_bind, Option.bind_some,
      Bool.false_eq_true, if_true, if_false] <;> assumption

/-- A guard: the rest of a loop body is left out where the condition holds. -/
theorem Ends.continueIf {c : ε} {l : List (Stmt ε)} {s : State V} {v : V}
    {out : Option (List Char)} (hv : D.eval s.vars c = some v)
    (htrue : D.isTrue v = true → out = some [] ∧ P s.vars)
    (hfalse : D.isTrue v = false → Runs D l s out P) :
    Ends D (.continueIf c :: l) s out fun _ => P := by
  cases hb : D.isTrue v with
  | true =>
    obtain ⟨rfl, hP⟩ := htrue hb
    exact ⟨s.vars, .continued, by simp [execList, exec, hv, hb], hP⟩
  | false =>
    have := hfalse hb
    unfold Runs Ends at *
    simp only [execList, exec, hv, hb, Option.bind_eq_bind, Option.bind_some, Option.pure_def,
      Bool.false_eq_true, if_false]
    cases out with
    | none => exact this
    | some out =>
      obtain ⟨σ, c, hexec, -, hP⟩ := this
      exact ⟨σ, c, hexec, hP⟩

theorem Ends.continueIf_none {c : ε} {l : List (Stmt ε)} {s : State V}
    {Q : Completion → (Name → V) → Prop} (hv : D.eval s.vars c = none) :
    Ends D (.continueIf c :: l) s none Q := by
  simp [Ends, execList, exec, hv]

/-- A loop: `I` holds of the keys done so far and the variables, and the outputs of the
iterations come one after the other. -/
theorem Runs.forIn {x object : Name} {body : List (Stmt ε)} {s : State V}
    {out : Name → Option (List Char)} {I : List Name → (Name → V) → Prop}
    (hstep : ∀ done key σ buffer, I done σ →
      Ends D body ⟨Function.update σ x (D.ofKey key), buffer⟩ (out key)
        fun _ => I (done ++ [key]))
    (hinit : I [] s.vars) :
    Runs D [.forIn x object body] s
      (((D.keys (s.vars object)).mapM out).map List.flatten) (I (D.keys (s.vars object))) := by
  have hloop : ∀ (keys done : List Name) (s : State V), I done s.vars →
      match keys.mapM out with
      | none => keys.foldlM (fun s key => do
          let r ← execList D body { s with vars := Function.update s.vars x (D.ofKey key) }
          return r.1) s = none
      | some outs => ∃ σ, keys.foldlM (fun s key => do
          let r ← execList D body { s with vars := Function.update s.vars x (D.ofKey key) }
          return r.1) s = some ⟨σ, s.buffer ++ outs.flatten⟩ ∧ I (done ++ keys) σ := by
    intro keys
    induction keys with
    | nil => exact fun done s h => ⟨s.vars, by simp, by simpa using h⟩
    | cons key keys ih =>
      intro done s h
      have hkey := hstep done key s.vars s.buffer h
      rw [List.mapM_cons]
      cases hout : out key with
      | none =>
        rw [hout] at hkey
        simp only [Ends] at hkey
        simp [List.foldlM_cons, hkey]
      | some o =>
        rw [hout] at hkey
        obtain ⟨σ, c, hexec, hI⟩ := hkey
        have := ih (done ++ [key]) ⟨σ, s.buffer ++ o⟩ hI
        simp only [List.foldlM_cons, hexec, Option.bind_eq_bind, Option.bind_some,
          Option.pure_def]
        cases hrest : keys.mapM out with
        | none =>
          rw [hrest] at this
          exact this
        | some outs =>
          rw [hrest] at this
          simpa using this
  unfold Runs Ends
  rw [execList_singleton]
  have := hloop (D.keys (s.vars object)) [] s hinit
  cases hout : (D.keys (s.vars object)).mapM out with
  | none =>
    rw [hout] at this
    simp only [exec, Option.map_none]
    rw [this]
    rfl
  | some outs =>
    rw [hout] at this
    obtain ⟨σ, hfold, hI⟩ := this
    refine ⟨σ, .normal, ?_, rfl, hI⟩
    simp only [exec]
    rw [hfold]
    rfl

end

end Ecma
