/-!
# Runs that write a log

`Traced ω σ ε α` is a computation that appends to a log, changes a state and
returns a value or throws; the log and the state are kept when it throws.
`Sat m s Q E` says what holds after `m` from `s`: `Q` of the log, the state and
the value, or `E` of the log, the state and the exception. A computation is
taken apart with `Sat.bind`.
-/

namespace Effect

/-- What a run leaves behind. -/
structure Outcome (ω σ ε α : Type) where
  log : List ω
  state : σ
  result : Except ε α

def Traced (ω σ ε α : Type) : Type := σ → Outcome ω σ ε α

namespace Traced

variable {ω σ ε α β γ : Type}

def pure (a : α) : Traced ω σ ε α := fun s => ⟨[], s, .ok a⟩

/-- What `f` does after a run that returned. -/
def andThen (o : Outcome ω σ ε α) (f : α → Traced ω σ ε β) : Outcome ω σ ε β :=
  match o.result with
  | .ok a => ⟨o.log ++ (f a o.state).log, (f a o.state).state, (f a o.state).result⟩
  | .error err => ⟨o.log, o.state, .error err⟩

def bind (m : Traced ω σ ε α) (f : α → Traced ω σ ε β) : Traced ω σ ε β :=
  fun s => andThen (m s) f

instance : Monad (Traced ω σ ε) where
  pure := Traced.pure
  bind := Traced.bind

/-- Append to the log. -/
def tell (w : ω) : Traced ω σ ε Unit := fun s => ⟨[w], s, .ok ()⟩

def get : Traced ω σ ε σ := fun s => ⟨[], s, .ok s⟩

def modify (f : σ → σ) : Traced ω σ ε Unit := fun s => ⟨[], f s, .ok ()⟩

def throw (err : ε) : Traced ω σ ε α := fun s => ⟨[], s, .error err⟩

/-- `Q` holds after a run that returns, `E` after one that throws. -/
def Sat (m : Traced ω σ ε α) (s : σ) (Q : List ω → σ → α → Prop) (E : List ω → σ → ε → Prop) :
    Prop :=
  match (m s).result with
  | .ok a => Q (m s).log (m s).state a
  | .error err => E (m s).log (m s).state err

section

variable {m : Traced ω σ ε α} {s : σ} {Q : List ω → σ → α → Prop} {E : List ω → σ → ε → Prop}

theorem sat_pure {a : α} : Sat (Pure.pure a : Traced ω σ ε α) s Q E ↔ Q [] s a := Iff.rfl

theorem sat_tell {w : ω} {Q : List ω → σ → Unit → Prop} :
    Sat (tell w) s Q E ↔ Q [w] s () := Iff.rfl

theorem sat_get {Q : List ω → σ → σ → Prop} : Sat get s Q E ↔ Q [] s s := Iff.rfl

theorem sat_modify {f : σ → σ} {Q : List ω → σ → Unit → Prop} :
    Sat (modify f) s Q E ↔ Q [] (f s) () := Iff.rfl

theorem sat_throw {err : ε} : Sat (throw err : Traced ω σ ε α) s Q E ↔ E [] s err := Iff.rfl

/-- The run of a sequence, from the run of its first part. -/
theorem sat_bind {f : α → Traced ω σ ε β} {Q : List ω → σ → β → Prop} :
    Sat (m >>= f) s Q E ↔
      Sat m s (fun l s' a => Sat (f a) s' (fun l' => Q (l ++ l')) fun l' => E (l ++ l')) E := by
  show Sat (Traced.bind m f) s Q E ↔ _
  unfold Sat Traced.bind Traced.andThen
  cases (m s).result with
  | ok a => rfl
  | error err => rfl

theorem Sat.mono {Q' : List ω → σ → α → Prop} {E' : List ω → σ → ε → Prop} (h : Sat m s Q E)
    (hQ : ∀ l s' a, Q l s' a → Q' l s' a) (hE : ∀ l s' err, E l s' err → E' l s' err) :
    Sat m s Q' E' := by
  unfold Sat at h ⊢
  cases hm : (m s).result with
  | ok a =>
    rw [hm] at h
    exact hQ _ _ _ h
  | error err =>
    rw [hm] at h
    exact hE _ _ _ h

theorem Sat.bind {f : α → Traced ω σ ε β} {Q' : List ω → σ → β → Prop}
    {E' : List ω → σ → ε → Prop} (h : Sat m s Q E)
    (hok : ∀ l s' a, Q l s' a → Sat (f a) s' (fun l' => Q' (l ++ l')) fun l' => E' (l ++ l'))
    (herr : ∀ l s' err, E l s' err → E' l s' err) : Sat (m >>= f) s Q' E' :=
  sat_bind.2 (h.mono hok herr)

/-- What holds of a run and what follows from it separately hold together. -/
theorem Sat.and {Q' : List ω → σ → α → Prop} {E' : List ω → σ → ε → Prop} (h : Sat m s Q E)
    (h' : Sat m s Q' E') :
    Sat m s (fun l s' a => Q l s' a ∧ Q' l s' a) fun l s' err => E l s' err ∧ E' l s' err := by
  unfold Sat at h h' ⊢
  cases hm : (m s).result with
  | ok a =>
    rw [hm] at h h'
    exact ⟨h, h'⟩
  | error err =>
    rw [hm] at h h'
    exact ⟨h, h'⟩

/-- `m` returns `a` from `s`. -/
def Returns (m : Traced ω σ ε α) (s : σ) (l : List ω) (s' : σ) (a : α) : Prop :=
  m s = ⟨l, s', .ok a⟩

def Throws (m : Traced ω σ ε α) (s : σ) (l : List ω) (s' : σ) : Prop :=
  ∃ err, m s = ⟨l, s', .error err⟩

theorem Sat.self : Sat m s (Returns m s) (fun l s' _ => Throws m s l s') := by
  unfold Sat Returns Throws
  cases hm : m s with
  | mk l s' r =>
    cases r with
    | ok a => rfl
    | error err => exact ⟨err, rfl⟩

theorem Returns.sat {l : List ω} {s' : σ} {a : α} (h : Returns m s l s' a) (hm : Sat m s Q E) :
    Q l s' a := by
  unfold Sat Returns at *
  rwa [h] at hm

theorem Throws.sat {l : List ω} {s' : σ} (h : Throws m s l s') (hm : Sat m s Q E) :
    ∃ err, E l s' err := by
  obtain ⟨err, h⟩ := h
  unfold Sat at hm
  rw [h] at hm
  exact ⟨err, hm⟩

theorem returns_bind {f : α → Traced ω σ ε β} {l : List ω} {s' : σ} {b : β} :
    Returns (m >>= f) s l s' b ↔ ∃ l₁ s₁ a l₂, Returns m s l₁ s₁ a ∧ Returns (f a) s₁ l₂ s' b ∧
      l = l₁ ++ l₂ := by
  show Traced.bind m f s = _ ↔ _
  unfold Returns Traced.bind Traced.andThen
  cases hm : m s with
  | mk l₁ s₁ r =>
    cases r with
    | ok a =>
      constructor
      · intro h
        obtain ⟨rfl, hs, hr⟩ := Outcome.mk.inj h
        refine ⟨l₁, s₁, a, (f a s₁).log, rfl, ?_, rfl⟩
        rw [← hs, ← hr]
      · rintro ⟨_, _, _, _, h, hf, rfl⟩
        cases h
        simp only [hf]
    | error err =>
      constructor
      · intro h
        cases h
      · rintro ⟨_, _, _, _, h, -⟩
        cases h

end

/-! ## Exceptions -/

/-- Whatever `m` throws is one of `E`. -/
def ThrowsOnly (E : ε → Prop) (m : Traced ω σ ε α) : Prop :=
  ∀ s, Sat m s (fun _ _ _ => True) fun _ _ err => E err

section

variable {E : ε → Prop} {m : Traced ω σ ε α}

theorem throwsOnly_pure (a : α) : ThrowsOnly E (Pure.pure a : Traced ω σ ε α) := fun _ => trivial

theorem throwsOnly_tell (w : ω) : ThrowsOnly E (tell w : Traced ω σ ε Unit) := fun _ => trivial

theorem throwsOnly_get : ThrowsOnly E (get : Traced ω σ ε σ) := fun _ => trivial

theorem throwsOnly_modify (f : σ → σ) : ThrowsOnly E (modify f : Traced ω σ ε Unit) :=
  fun _ => trivial

theorem throwsOnly_throw {err : ε} (h : E err) : ThrowsOnly E (throw err : Traced ω σ ε α) :=
  fun _ => h

theorem ThrowsOnly.bind {f : α → Traced ω σ ε β} (hm : ThrowsOnly E m)
    (hf : ∀ a, ThrowsOnly E (f a)) : ThrowsOnly E (m >>= f) :=
  fun s => (hm s).bind (fun _ s' a _ => hf a s') fun _ _ _ => id

theorem ThrowsOnly.result {s : σ} {err : ε} (h : ThrowsOnly E m)
    (hm : (m s).result = .error err) : E err := by
  have hs := h s
  unfold Sat at hs
  rw [hm] at hs
  exact hs

end

end Traced

end Effect
