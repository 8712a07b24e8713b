/-! # Computations that change a state and may throw

`Eff ε σ α`: from a state to a value or an exception, and a state either way: what was changed
before an exception stays changed. `Ends x s Q E`: from `s` the computation returns with `Q` or
throws with `E`; `Does x s Q`: it returns, with `Q`. The rules are those of a Hoare logic.

`Keeps K x`: whatever happens, the state before and the one after are related. `Atomic x`: what
throws has changed nothing. `Throws P x`: nothing else is thrown. `Simulates R V x y`: two
computations do the same, on states that are related. -/

namespace Hayahash.Lib.Effects

/-- **A computation** on the state `σ` that may throw `ε`. -/
def Eff (ε σ α : Type) : Type := σ → Except ε α × σ

namespace Eff

variable {ε σ τ α β : Type}

/-- Sequencing, up to the first exception. -/
def bind (x : Eff ε σ α) (f : α → Eff ε σ β) : Eff ε σ β := fun s =>
  match x s with
  | (.ok a, s) => f a s
  | (.error e, s) => (.error e, s)

instance : Monad (Eff ε σ) where
  pure a := fun s => (.ok a, s)
  bind := bind

/-- The state. -/
def get : Eff ε σ σ := fun s => (.ok s, s)

/-- Change the state. -/
def modify (f : σ → σ) : Eff ε σ Unit := fun s => (.ok (), f s)

/-- Throw. -/
def throw (e : ε) : Eff ε σ α := fun s => (.error e, s)

/-- The value of a computation without a state. -/
def ofExcept (x : Except ε α) : Eff ε σ α := fun s => (x, s)

/-- A computation on the second of two states. -/
def second (x : Eff ε τ α) : Eff ε (σ × τ) α := fun s => ((x s.2).1, s.1, (x s.2).2)

end Eff

variable {ε σ τ α β : Type} {x : Eff ε σ α} {f : α → Eff ε σ β} {s : σ} {a : α}
variable {Q Q' : α → σ → Prop} {R : β → σ → Prop} {E : ε → σ → Prop}

/-- **From `s` the computation returns with `Q`, or throws with `E`.** -/
def Ends (x : Eff ε σ α) (s : σ) (Q : α → σ → Prop) (E : ε → σ → Prop) : Prop :=
  match x s with
  | (.ok a, s') => Q a s'
  | (.error e, s') => E e s'

/-- **From `s` the computation returns**, with `Q`. -/
def Does (x : Eff ε σ α) (s : σ) (Q : α → σ → Prop) : Prop := Ends x s Q fun _ _ => False

theorem Ends.bind (hx : Ends x s Q E) (hf : ∀ a s', Q a s' → Ends (f a) s' R E) :
    Ends (x >>= f) s R E := by
  unfold Ends at hx
  change match Eff.bind x f s with
    | (.ok a, s') => R a s'
    | (.error e, s') => E e s'
  unfold Eff.bind
  generalize x s = r at hx
  obtain ⟨r, s'⟩ := r
  cases r with
  | ok a => exact hf a s' hx
  | error e => exact hx

theorem Ends.mono {E' : ε → σ → Prop} (hx : Ends x s Q E) (h : ∀ a s', Q a s' → Q' a s')
    (he : ∀ e s', E e s' → E' e s') : Ends x s Q' E' := by
  unfold Ends at hx ⊢
  generalize x s = r at hx
  obtain ⟨r, s'⟩ := r
  cases r with
  | ok a => exact h a s' hx
  | error e => exact he e s' hx

theorem Ends.modify_bind {g : σ → σ} {f : Unit → Eff ε σ β} (h : Ends (f ()) (g s) R E) :
    Ends (Eff.modify g >>= f) s R E := h

theorem Does.ends (hx : Does x s Q) : Ends x s Q E :=
  Ends.mono hx (fun _ _ h => h) fun _ _ h => h.elim

theorem Ends.of_error {e : ε} {r : σ} (hx : x s = (.error e, r)) (h : E e r) : Ends x s Q E := by
  unfold Ends
  rw [hx]
  exact h

theorem bind_of_error {e : ε} {s' : σ} (hx : x s = (.error e, s')) :
    (x >>= f) s = (.error e, s') := by
  show Eff.bind x f s = _
  unfold Eff.bind
  rw [hx]

theorem Ends.second {y : Eff ε τ α} {u : τ} {Q : α → τ → Prop} {E : ε → τ → Prop}
    (hy : Ends y u Q E) : Ends (Eff.second y) (s, u) (fun a s' => s'.1 = s ∧ Q a s'.2) fun e s' =>
    s'.1 = s ∧ E e s'.2 := by
  unfold Ends at hy ⊢
  unfold Eff.second
  generalize y u = r at hy
  obtain ⟨r, u'⟩ := r
  cases r with
  | ok a => exact ⟨rfl, hy⟩
  | error e => exact ⟨rfl, hy⟩

namespace Does

theorem pure (h : Q a s) : Does (Pure.pure a : Eff ε σ α) s Q := h

theorem bind (hx : Does x s Q) (hf : ∀ a s', Q a s' → Does (f a) s' R) : Does (x >>= f) s R :=
  Ends.bind hx hf

theorem mono (hx : Does x s Q) (h : ∀ a s', Q a s' → Q' a s') : Does x s Q' :=
  Ends.mono hx h fun _ _ he => he

theorem get_bind {f : σ → Eff ε σ β} (h : Does (f s) s R) : Does (Eff.get >>= f) s R := h

theorem modify_bind {g : σ → σ} {f : Unit → Eff ε σ β} (h : Does (f ()) (g s) R) :
    Does (Eff.modify g >>= f) s R := h

theorem modify {g : σ → σ} {Q : Unit → σ → Prop} (h : Q () (g s)) :
    Does (Eff.modify g : Eff ε σ Unit) s Q := h

theorem ofExcept {r : Except ε α} (hr : r = Pure.pure a) (h : Q a s) :
    Does (Eff.ofExcept r) s Q := by
  rw [hr]
  exact h

theorem second {y : Eff ε τ α} {u : τ} {Q : α → τ → Prop} (hy : Does y u Q) :
    Does (Eff.second y) (s, u) fun a s' => s'.1 = s ∧ Q a s'.2 :=
  Ends.mono (Ends.second hy) (fun _ _ h => h) fun _ _ h => h.2

theorem run (hx : Does x s Q) : ∃ a s', x s = (.ok a, s') ∧ Q a s' := by
  unfold Does Ends at hx
  generalize x s = r at hx
  obtain ⟨r, s'⟩ := r
  cases r with
  | ok a => exact ⟨a, s', rfl, hx⟩
  | error e => exact hx.elim

end Does

/-! ### What a computation keeps -/

/-- **The computation keeps `K`**, whether it returns or throws. -/
def Keeps (K : σ → σ → Prop) (x : Eff ε σ α) : Prop := ∀ s, K s (x s).2

/-- The computation does not touch the state. -/
abbrev Quiet (x : Eff ε σ α) : Prop := Keeps (fun s s' => s' = s) x

/-- **The computation changes nothing when it throws.** -/
def Atomic (x : Eff ε σ α) : Prop := ∀ s e, (x s).1 = .error e → (x s).2 = s

section Keeping
variable {K : σ → σ → Prop}

theorem Keeps.pure (hK : ∀ s, K s s) (a : α) : Keeps K (Pure.pure a : Eff ε σ α) := hK

theorem Keeps.modify {g : σ → σ} (hg : ∀ s, K s (g s)) : Keeps K (Eff.modify g : Eff ε σ Unit) := hg

/-- **Sequencing**, for what is kept from state to state. -/
theorem Keeps.bind (hK : ∀ s s' s'', K s s' → K s' s'' → K s s'') (hx : Keeps K x)
    (hf : ∀ a, Keeps K (f a)) : Keeps K (x >>= f) := by
  intro s
  have hs := hx s
  show K s (Eff.bind x f s).2
  unfold Eff.bind
  generalize x s = r at hs
  obtain ⟨r, s'⟩ := r
  cases r with
  | ok a => exact hK s s' _ hs (hf a s')
  | error e => exact hs

theorem Quiet.keeps (hx : Quiet x) (hK : ∀ s, K s s) : Keeps K x := fun s => by
  rw [hx s]
  exact hK s

theorem Quiet.pure (a : α) : Quiet (Pure.pure a : Eff ε σ α) := fun _ => rfl

theorem Quiet.throw (e : ε) : Quiet (Eff.throw e : Eff ε σ α) := fun _ => rfl

theorem Quiet.ofExcept (r : Except ε α) : Quiet (Eff.ofExcept r : Eff ε σ α) := fun _ => rfl

theorem Quiet.atomic (hx : Quiet x) : Atomic x := fun s _ _ => hx s

theorem Quiet.bind (hx : Quiet x) (hf : ∀ a, Quiet (f a)) : Quiet (x >>= f) :=
  Keeps.bind (fun _ _ _ h h' => h'.trans h) hx hf

/-- **A part that throws, before the part that changes.** -/
theorem Atomic.bind (hx : Quiet x) (hf : ∀ a, Atomic (f a)) : Atomic (x >>= f) := by
  intro s e h
  have hs := hx s
  change (Eff.bind x f s).1 = .error e at h
  show (Eff.bind x f s).2 = s
  unfold Eff.bind at h ⊢
  generalize x s = r at h hs
  obtain ⟨r, s'⟩ := r
  obtain rfl : s' = s := hs
  cases r with
  | ok a => exact hf a s' e h
  | error e' => rfl

theorem Atomic.modify {g : σ → σ} {a : α} :
    Atomic (Eff.modify g >>= fun _ => Pure.pure a : Eff ε σ α) := by
  intro s e h
  cases h

end Keeping

/-! ### What a computation throws -/

/-- **The computation throws `P` only.** -/
def Throws (P : ε → Prop) (x : Eff ε σ α) : Prop := ∀ s e, (x s).1 = .error e → P e

section Throwing
variable {P : ε → Prop}

theorem Throws.pure (a : α) : Throws P (Pure.pure a : Eff ε σ α) := by
  intro s e h
  cases h

theorem Throws.throw {e : ε} (he : P e) : Throws P (Eff.throw e : Eff ε σ α) := by
  intro s e' h
  cases h
  exact he

theorem Throws.ofExcept {r : Except ε α} (hr : ∀ e, r = .error e → P e) :
    Throws P (Eff.ofExcept r : Eff ε σ α) := fun _ e h => hr e h

theorem Throws.modify (g : σ → σ) : Throws P (Eff.modify g : Eff ε σ Unit) := by
  intro s e h
  cases h

theorem Throws.bind (hx : Throws P x) (hf : ∀ a, Throws P (f a)) : Throws P (x >>= f) := by
  intro s e h
  change (Eff.bind x f s).1 = .error e at h
  have hs := hx s
  unfold Eff.bind at h
  generalize x s = r at h hs
  obtain ⟨r, s'⟩ := r
  cases r with
  | ok a => exact hf a s' e h
  | error e' =>
    cases h
    exact hs _ rfl

end Throwing

/-! ### Two computations -/

/-- **The computations do the same**, on states that are related: they return values that are
related, or throw the same. -/
def Simulates {γ : Type} (R : σ → τ → Prop) (V : α → γ → Prop) (x : Eff ε σ α) (y : Eff ε τ γ) :
    Prop :=
  ∀ s u, R s u → R (x s).2 (y u).2 ∧
    match (x s).1, (y u).1 with
    | .ok a, .ok b => V a b
    | .error e, .error e' => e = e'
    | _, _ => False

namespace Simulates

variable {γ δ : Type} {R : σ → τ → Prop} {V : α → γ → Prop} {W : β → δ → Prop}

theorem pure {a : α} {b : γ} (h : V a b) :
    Simulates R V (Pure.pure a : Eff ε σ α) (Pure.pure b : Eff ε τ γ) := fun _ _ hR => ⟨hR, h⟩

theorem throw (e : ε) : Simulates R V (Eff.throw e : Eff ε σ α) (Eff.throw e : Eff ε τ γ) :=
  fun _ _ hR => ⟨hR, rfl⟩

theorem ofExcept (r : Except ε α) :
    Simulates R Eq (Eff.ofExcept r : Eff ε σ α) (Eff.ofExcept r : Eff ε τ α) := by
  intro s u hR
  refine ⟨hR, ?_⟩
  cases r with
  | ok a => rfl
  | error e => rfl

theorem modify {g : σ → σ} {g' : τ → τ} {V : Unit → Unit → Prop} (h : ∀ s u, R s u → R (g s) (g' u))
    (hV : V () ()) : Simulates R V (Eff.modify g : Eff ε σ Unit) (Eff.modify g' : Eff ε τ Unit) :=
  fun s u hR => ⟨h s u hR, hV⟩

theorem bind {x : Eff ε σ α} {y : Eff ε τ γ} {f : α → Eff ε σ β} {g : γ → Eff ε τ δ}
    (hx : Simulates R V x y) (hf : ∀ a b, V a b → Simulates R W (f a) (g b)) :
    Simulates R W (x >>= f) (y >>= g) := by
  intro s u hR
  obtain ⟨hR', hV⟩ := hx s u hR
  change R (Eff.bind x f s).2 (Eff.bind y g u).2 ∧
    match (Eff.bind x f s).1, (Eff.bind y g u).1 with
    | .ok a, .ok b => W a b
    | .error e, .error e' => e = e'
    | _, _ => False
  unfold Eff.bind
  generalize x s = r at hR' hV
  generalize y u = r' at hR' hV
  obtain ⟨r, s'⟩ := r
  obtain ⟨r', u'⟩ := r'
  cases r with
  | ok a =>
    cases r' with
    | ok b => exact hf a b hV s' u' hR'
    | error e => exact hV.elim
  | error e =>
    cases r' with
    | ok b => exact hV.elim
    | error e' => exact ⟨hR', hV⟩

theorem get_bind {f : σ → Eff ε σ β} {g : τ → Eff ε τ δ}
    (h : ∀ s u, R s u → Simulates R W (f s) (g u)) :
    Simulates R W (Eff.get >>= f) (Eff.get >>= g) := fun s u hR => h s u hR s u hR

theorem fst_eq {x : Eff ε σ α} {y : Eff ε τ α} (h : Simulates R Eq x y) {s : σ} {u : τ}
    (hR : R s u) : (x s).1 = (y u).1 := by
  obtain ⟨-, hV⟩ := h s u hR
  generalize (x s).1 = r at hV
  generalize (y u).1 = r' at hV
  cases r with
  | ok a =>
    cases r' with
    | ok b => exact congrArg _ hV
    | error e => exact hV.elim
  | error e =>
    cases r' with
    | ok b => exact hV.elim
    | error e' => exact congrArg _ hV

end Simulates

end Hayahash.Lib.Effects
