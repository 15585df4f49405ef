import Mathlib.Data.List.Infix
import Mathlib.Logic.Function.Basic
import Mathlib.Logic.Relation

/-!
# Control-flow graphs

A graph of basic blocks as a builder makes it: blocks are created, attached to
the function, and filled with instructions at an insertion point that moves from
block to block (`Item`, `Graph.add`). A graph runs on any machine that says what
an instruction does and which way a branch goes (`Machine`).
-/

namespace Cfg

/-- An instruction of a block; `op` is one that is no terminator. -/
inductive Instr (L I C : Type) where
  | op (i : I)
  | condBr (c : C) (ifTrue ifFalse : L)
  | br (l : L)
  | ret

/-- A call of the builder. -/
inductive Item (L I C : Type) where
  | create (l : L) (attached : Bool)
  | attach (l : L)
  /-- move the insertion point -/
  | place (l : L)
  | emit (i : Instr L I C)

structure Graph (L I C : Type) where
  created : List L
  attached : List L
  current : Option L
  code : L → List (Instr L I C)

variable {L I C M : Type}

/-- Instructions that end in no terminator yet. -/
def Unterminated (is : List (Instr L I C)) : Prop := ∀ i ∈ is, ∃ x, i = .op x

/-- Instructions with one terminator, at their end. -/
def Terminated (is : List (Instr L I C)) : Prop :=
  ∃ is' t, is = is' ++ [t] ∧ Unterminated is' ∧ ∀ x, t ≠ .op x

theorem unterminated_nil : Unterminated ([] : List (Instr L I C)) := by simp [Unterminated]

theorem Unterminated.concat {is : List (Instr L I C)} (h : Unterminated is) (x : I) :
    Unterminated (is ++ [.op x]) := by
  simpa [Unterminated, or_imp, forall_and] using h

theorem Unterminated.terminate {is : List (Instr L I C)} {t : Instr L I C} (h : Unterminated is)
    (ht : ∀ x, t ≠ .op x) : Terminated (is ++ [t]) := ⟨is, t, rfl, h, ht⟩

/-- The block a call creates. -/
def Item.created : Item L I C → List L
  | .create l _ => [l]
  | _ => []

/-- The block a call attaches. -/
def Item.attached : Item L I C → List L
  | .create l true | .attach l => [l]
  | _ => []

namespace Graph

def empty : Graph L I C := ⟨[], [], none, fun _ => []⟩

/-- Blocks only get longer. -/
def Le (g g' : Graph L I C) : Prop := ∀ l, g.code l <+: g'.code l

theorem Le.refl (g : Graph L I C) : g.Le g := fun _ => List.prefix_rfl

theorem Le.trans {g g' g'' : Graph L I C} (h : g.Le g') (h' : g'.Le g'') : g.Le g'' :=
  fun l => (h l).trans (h' l)

section

variable [DecidableEq L]

def add (g : Graph L I C) : Item L I C → Graph L I C
  | .create l attached =>
    { g with created := g.created ++ [l], attached := if attached then g.attached ++ [l]
                                                     else g.attached }
  | .attach l => { g with attached := g.attached ++ [l] }
  | .place l => { g with current := some l }
  | .emit i => match g.current with
    | some l => { g with code := Function.update g.code l (g.code l ++ [i]) }
    | none => g

/-- The graph after some calls of the builder. -/
def addAll (g : Graph L I C) (items : List (Item L I C)) : Graph L I C := items.foldl add g

/-- The graph that calls of the builder make. -/
def build (items : List (Item L I C)) : Graph L I C := empty.addAll items

@[simp] theorem addAll_nil (g : Graph L I C) : g.addAll [] = g := rfl

@[simp] theorem addAll_cons (g : Graph L I C) (x : Item L I C) (items : List (Item L I C)) :
    g.addAll (x :: items) = (g.add x).addAll items := rfl

theorem addAll_append (g : Graph L I C) (items items' : List (Item L I C)) :
    g.addAll (items ++ items') = (g.addAll items).addAll items' := List.foldl_append

theorem le_add (g : Graph L I C) (x : Item L I C) : g.Le (g.add x) := by
  intro l
  cases x with
  | create l' b => exact List.prefix_rfl
  | attach l' => exact List.prefix_rfl
  | place l' => exact List.prefix_rfl
  | emit i =>
    unfold add
    cases g.current with
    | none => exact List.prefix_rfl
    | some l' =>
      simp only [Function.update_apply]
      split_ifs with h
      · rw [h]
        exact List.prefix_append _ _
      · exact List.prefix_rfl

theorem le_addAll (g : Graph L I C) (items : List (Item L I C)) : g.Le (g.addAll items) := by
  induction items generalizing g with
  | nil => exact .refl g
  | cons x items ih => exact (g.le_add x).trans (ih _)

theorem created_addAll (g : Graph L I C) (items : List (Item L I C)) :
    (g.addAll items).created = g.created ++ items.flatMap Item.created := by
  induction items generalizing g with
  | nil => simp
  | cons x items ih =>
    have hx : (g.add x).created = g.created ++ x.created := by
      cases x with
      | emit i => cases h : g.current <;> simp [add, h, Item.created]
      | _ => simp [add, Item.created]
    rw [addAll_cons, ih, hx, List.append_assoc, List.flatMap_cons]

theorem attached_addAll (g : Graph L I C) (items : List (Item L I C)) :
    (g.addAll items).attached = g.attached ++ items.flatMap Item.attached := by
  induction items generalizing g with
  | nil => simp
  | cons x items ih =>
    have hx : (g.add x).attached = g.attached ++ x.attached := by
      cases x with
      | emit i => cases h : g.current <;> simp [add, h, Item.attached]
      | create l attached => cases attached <;> simp [add, Item.attached]
      | _ => simp [add, Item.attached]
    rw [addAll_cons, ih, hx, List.append_assoc, List.flatMap_cons]

end

/-- Every block is attached once and has one terminator, at its end. -/
structure Complete (g : Graph L I C) : Prop where
  nodup : g.created.Nodup
  attached : g.attached.Perm g.created
  terminated : ∀ l ∈ g.created, Terminated (g.code l)

end Graph

/-! ## Runs -/

/-- What instructions do to the state of a machine, and which way branches go. -/
structure Machine (I C M : Type) where
  exec : I → M → M
  branch : C → M → Bool

/-- A point of a run: the block, what is left of it, and the state. -/
structure Config (L I C M : Type) where
  block : L
  rest : List (Instr L I C)
  state : M

/-- One step; none after a return and at the end of a block without terminator. -/
def Graph.step (G : Graph L I C) (σ : Machine I C M) : Config L I C M → Option (Config L I C M)
  | ⟨l, .op i :: is, m⟩ => some ⟨l, is, σ.exec i m⟩
  | ⟨_, .condBr c t f :: _, m⟩ =>
    let l := if σ.branch c m then t else f
    some ⟨l, G.code l, m⟩
  | ⟨_, .br l :: _, m⟩ => some ⟨l, G.code l, m⟩
  | ⟨_, .ret :: _, _⟩ | ⟨_, [], _⟩ => none

/-- Some steps lead from one point to another. -/
def Reaches (G : Graph L I C) (σ : Machine I C M) : Config L I C M → Config L I C M → Prop :=
  Relation.ReflTransGen fun c c' => G.step σ c = some c'

/-- The run comes to a return instruction in the state `m`. -/
def Halts (G : Graph L I C) (σ : Machine I C M) (c : Config L I C M) (m : M) : Prop :=
  ∃ l is, Reaches G σ c ⟨l, .ret :: is, m⟩

variable {G : Graph L I C} {σ : Machine I C M} {c c' : Config L I C M} {m m' : M}

theorem Reaches.step (h : G.step σ c = some c') : Reaches G σ c c' := .single h

theorem Reaches.halts (h : Reaches G σ c c') (h' : Halts G σ c' m) : Halts G σ c m := by
  obtain ⟨l, is, h'⟩ := h'
  exact ⟨l, is, h.trans h'⟩

/-- A machine has one run, which returns in one state. -/
theorem Halts.unique (h : Halts G σ c m) (h' : Halts G σ c m') : m = m' := by
  obtain ⟨l, is, h⟩ := h
  obtain ⟨l', is', h'⟩ := h'
  have hfun : ∀ {c c₁ c₂ : Config L I C M}, G.step σ c = some c₁ → G.step σ c = some c₂ →
      c₁ = c₂ := fun h₁ h₂ => Option.some.inj (h₁.symm.trans h₂)
  induction h using Relation.ReflTransGen.head_induction_on with
  | refl =>
    rcases h'.cases_head with heq | ⟨c', hs, -⟩
    · exact (Config.mk.inj heq).2.2
    · cases hs
  | head hs _ ih =>
    rcases h'.cases_head with heq | ⟨c', hs', h'⟩
    · subst heq
      cases hs
    · rw [← hfun hs hs'] at h'
      exact ih h'

/-- The point of a run that the insertion point of `g` in the block `l` becomes. -/
def Graph.point (G g : Graph L I C) (l : L) (m : M) : Config L I C M :=
  ⟨l, (G.code l).drop (g.code l).length, m⟩

theorem Graph.point_of_code_eq_nil {g : Graph L I C} {l : L} (h : g.code l = []) :
    G.point g l m = ⟨l, G.code l, m⟩ := by
  unfold point
  rw [h]
  rfl

/-- An instruction at the insertion point is the next one of the run. -/
theorem Graph.point_emit [DecidableEq L] {g : Graph L I C} {l : L} {i : Instr L I C}
    (hl : g.current = some l) (h : (g.add (.emit i)).Le G) :
    G.point g l m = ⟨l, i :: (G.point (g.add (.emit i)) l m).rest, m⟩ := by
  have hcode : (g.add (.emit i)).code l = g.code l ++ [i] := by
    simp [add, hl]
  obtain ⟨is, his⟩ := h l
  unfold point
  rw [hcode] at his ⊢
  rw [← his]
  simp

end Cfg
