import Hayahash.Lib.Walk

/-! # Checked computations

Code of a language with checked arrays and machine integers, as functions that may fault: `Chk α`
is a value or the reason why there is none. What is a fault is up to the primitives: here integer
arithmetic (`Ints`), and loops that have to end within a number of iterations.

* `Yields x Q`: `x` has no fault, and its value satisfies `Q`. Rules: `Yields.pure`, `.bind`,
  `.mono`.
* `Ints.Upto I hi`: the arithmetic `I` is exact while the result is between `0` and `hi`.
* `Width`: the width of an index type, and its arithmetic with overflow as a fault.
* `whileGe`, `doWhileGe`, `untilLt`, `untilNe`, `downToZero`: the loops over a range in steps of
  `d`. Each is a walk (`whileGe_yields` and so on), whatever relation its step keeps. -/

namespace Hayahash.Lib.Checked

open Hayahash.Lib.Walk

/-- Why a computation has no value. -/
inductive Fault where
  /-- Arithmetic leaves its type. -/
  | overflow
  /-- An index or a range leaves its array. -/
  | bounds
  /-- A loop does not end within its bound. -/
  | endless
deriving DecidableEq, Repr

/-- A computation that may fault. -/
abbrev Chk := Except Fault

variable {α β σ τ : Type}

/-! ### The judgement -/

/-- `x` does not fault, and its value satisfies `Q`. -/
def Yields (x : Chk α) (Q : α → Prop) : Prop := ∃ a, x = pure a ∧ Q a

section Yields
variable {x : Chk α} {f : α → Chk β} {Q Q' : α → Prop} {R : β → Prop} {a : α}

theorem Yields.pure (h : Q a) : Yields (Pure.pure a) Q := ⟨a, rfl, h⟩

theorem Yields.of_eq (hx : x = Pure.pure a) (h : Q a) : Yields x Q := ⟨a, hx, h⟩

/-- **Sequencing.** -/
theorem Yields.bind (hx : Yields x Q) (hf : ∀ a, Q a → Yields (f a) R) : Yields (x >>= f) R := by
  obtain ⟨a, rfl, hq⟩ := hx
  rw [pure_bind]
  exact hf a hq

theorem Yields.bind_eq (hx : x = Pure.pure a) (hf : Yields (f a) R) : Yields (x >>= f) R := by
  rwa [hx, pure_bind]

/-- **Consequence.** -/
theorem Yields.mono (hx : Yields x Q) (h : ∀ a, Q a → Q' a) : Yields x Q' := by
  obtain ⟨a, ha, hq⟩ := hx
  exact ⟨a, ha, h a hq⟩

theorem yields_eq : Yields x (· = a) ↔ x = Pure.pure a := by
  constructor
  · rintro ⟨b, hx, rfl⟩
    exact hx
  · intro hx
    exact ⟨a, hx, rfl⟩

theorem eq_pure_of_bind {b : β} (h : x >>= f = Pure.pure b) :
    ∃ a, x = Pure.pure a ∧ f a = Pure.pure b := by
  cases x with
  | error e => exact absurd h (by rintro ⟨⟩)
  | ok a => exact ⟨a, rfl, h⟩

theorem Yields.get (hx : Yields x Q) (ha : x = Pure.pure a) : Q a := by
  obtain ⟨b, hb, hq⟩ := hx
  rw [ha] at hb
  exact Except.ok.inj hb ▸ hq

end Yields

/-! ### Integers -/

/-- The addition and subtraction of an index type. -/
structure Ints where
  add : ℤ → ℤ → Chk ℤ
  sub : ℤ → ℤ → Chk ℤ

/-- Integers without bounds. -/
def Ints.exact : Ints := ⟨fun a b => pure (a + b), fun a b => pure (a - b)⟩

/-- An integer between `lo` and `hi`, or an overflow. -/
def inRange (lo hi x : ℤ) : Chk ℤ := if lo ≤ x ∧ x ≤ hi then pure x else throw .overflow

/-- Integers between `lo` and `hi`, with overflow as a fault. -/
def Ints.range (lo hi : ℤ) : Ints :=
  ⟨fun a b => inRange lo hi (a + b), fun a b => inRange lo hi (a - b)⟩

/-- Signed integers of `w` bits that wrap. -/
def Ints.wrap (w : ℕ) : Ints :=
  ⟨fun a b => pure ((a + b).bmod (2 ^ w)), fun a b => pure ((a - b).bmod (2 ^ w))⟩

/-- **Exact up to `hi`**: sums and differences between `0` and `hi` are what they should be. -/
structure Ints.Upto (I : Ints) (hi : ℤ) : Prop where
  add : ∀ {a b : ℤ}, 0 ≤ a + b → a + b ≤ hi → I.add a b = pure (a + b)
  sub : ∀ {a b : ℤ}, 0 ≤ a - b → a - b ≤ hi → I.sub a b = pure (a - b)

theorem Ints.exact_upto (hi : ℤ) : Ints.exact.Upto hi := ⟨fun _ _ => rfl, fun _ _ => rfl⟩

theorem inRange_eq {lo hi x : ℤ} (h : lo ≤ x) (h' : x ≤ hi) : inRange lo hi x = pure x :=
  if_pos ⟨h, h'⟩

theorem Ints.range_upto {lo hi : ℤ} (hlo : lo ≤ 0) : (Ints.range lo hi).Upto hi where
  add h h' := inRange_eq (by omega) h'
  sub h h' := inRange_eq (by omega) h'

theorem Ints.Upto.mono {I : Ints} {hi hi' : ℤ} (h : I.Upto hi) (hle : hi' ≤ hi) : I.Upto hi' where
  add h0 h1 := h.add h0 (by omega)
  sub h0 h1 := h.sub h0 (by omega)

/-- The width of an index type, `16` bits at least. -/
structure Width where
  bits : ℕ
  ge : 16 ≤ bits

namespace Width

theorem ge_32 : 16 ≤ 32 := by decide

variable (w : Width)

/-- The largest signed integer. -/
def maxInt : ℕ := 2 ^ (w.bits - 1) - 1

/-- Signed integers, with overflow as a fault. -/
def signed : Ints := .range (-(w.maxInt : ℤ) - 1) w.maxInt

/-- Unsigned integers, with overflow as a fault. -/
def unsigned : Ints := .range 0 (2 * w.maxInt + 1)

theorem maxInt_ge : 32767 ≤ w.maxInt := by
  have hpow : 2 ^ 15 ≤ 2 ^ (w.bits - 1) :=
    Nat.pow_le_pow_right (by decide) (Nat.le_sub_one_of_lt w.ge)
  unfold maxInt
  omega

theorem two_pow_bits : 2 ^ w.bits = 2 * (w.maxInt + 1) := by
  have hge := w.ge
  have hpow : 2 ^ w.bits = 2 * 2 ^ (w.bits - 1) := by
    rw [← Nat.pow_succ', Nat.sub_one, Nat.succ_pred_eq_of_pos (by omega)]
  have hpos : 0 < 2 ^ (w.bits - 1) := Nat.two_pow_pos _
  unfold maxInt
  omega

theorem signed_upto : w.signed.Upto w.maxInt := Ints.range_upto (by omega)

theorem unsigned_upto : w.unsigned.Upto (2 * w.maxInt + 1) := Ints.range_upto le_rfl

/-- Integers that wrap are exact where they do not. -/
theorem wrap_upto : (Ints.wrap w.bits).Upto w.maxInt := by
  have hexact : ∀ x : ℤ, 0 ≤ x → x ≤ w.maxInt → x.bmod (2 ^ w.bits) = x := by
    intro x h0 h1
    rw [w.two_pow_bits]
    exact Int.bmod_eq_of_le (by push_cast; omega) (by push_cast; omega)
  exact ⟨fun h0 h1 => congrArg pure (hexact _ h0 h1), fun h0 h1 => congrArg pure (hexact _ h0 h1)⟩

/-- A sum that overflows once is negative. -/
theorem wrap_add_over {a b : ℤ} (h : w.maxInt < a + b) (h' : a + b ≤ 2 * w.maxInt + 1) :
    (Ints.wrap w.bits).add a b = pure (a + b - 2 * (w.maxInt + 1)) := by
  refine congrArg pure ?_
  rw [w.two_pow_bits, ← Int.sub_bmod_right, Int.bmod_eq_of_le]
  · push_cast
    ring
  · push_cast
    omega
  · push_cast
    omega

end Width

/-! ### Loops -/

section Loops
variable (I : Ints) (f : ℤ → σ → Chk σ) (d : ℤ)

/-- `while (l >= d) { f(p); p += d; l -= d; }` -/
def whileGe : ℕ → ℤ → ℤ → σ → Chk (σ × ℤ × ℤ)
  | 0, _, _, _ => throw .endless
  | fuel + 1, p, l, s => do
    if l ≥ d then
      let s ← f p s
      whileGe fuel (← I.add p d) (← I.sub l d) s
    else
      return (s, p, l)

/-- `do { f(p); p += d; l -= d; } while (l >= d);` -/
def doWhileGe : ℕ → ℤ → ℤ → σ → Chk (σ × ℤ × ℤ)
  | 0, _, _, _ => throw .endless
  | fuel + 1, p, l, s => do
    let s ← f p s
    let p ← I.add p d
    let l ← I.sub l d
    if l ≥ d then doWhileGe fuel p l s else return (s, p, l)

/-- `for (; p < e; p += d) f(p);` -/
def untilLt (e : ℤ) : ℕ → ℤ → σ → Chk σ
  | 0, _, _ => throw .endless
  | fuel + 1, p, s => do
    if p < e then
      let s ← f p s
      untilLt e fuel (← I.add p d) s
    else
      return s

/-- `for (; p != e; p += d) f(p);` -/
def untilNe (e : ℤ) : ℕ → ℤ → σ → Chk σ
  | 0, _, _ => throw .endless
  | fuel + 1, p, s => do
    if p ≠ e then
      let s ← f p s
      untilNe e fuel (← I.add p d) s
    else
      return s

/-- `for (; l != 0; p += d, l -= d) f(p);` -/
def downToZero : ℕ → ℤ → ℤ → σ → Chk σ
  | 0, _, _, _ => throw .endless
  | fuel + 1, p, l, s => do
    if l = 0 then
      return s
    else
      let s ← f p s
      downToZero fuel (← I.add p d) (← I.sub l d) s

end Loops

section Rules
variable {I : Ints} {f : ℤ → σ → Chk σ} {g : ℤ → τ → τ} {R : σ → τ → Prop} {hi : ℤ} {d : ℕ}

/-- The step of a loop does what `g` does, at every position between `lo` and `hi - d`. -/
def StepYields (f : ℤ → σ → Chk σ) (g : ℤ → τ → τ) (R : σ → τ → Prop) (lo hi : ℤ) (d : ℕ) : Prop :=
  ∀ p s x, lo ≤ p → p + d ≤ hi → R s x → Yields (f p s) (R · (g p x))

theorem StepYields.mono {lo lo' hi' : ℤ} (h : StepYields f g R lo hi d) (hlo : lo ≤ lo')
    (hhi : hi' ≤ hi) : StepYields f g R lo' hi' d :=
  fun p s x h0 h1 hx => h p s x (by omega) (by omega) hx

theorem StepYields.of_eq {g : ℤ → σ → σ} {lo : ℤ}
    (h : ∀ p s, lo ≤ p → p + d ≤ hi → f p s = pure (g p s)) : StepYields f g (· = ·) lo hi d := by
  rintro p s x h0 h1 rfl
  exact .of_eq (h p s h0 h1) rfl

/-- **The loop with its test in front.** -/
theorem whileGe_yields (hI : I.Upto hi) (hd : 0 < d) : ∀ (fuel : ℕ) {p : ℤ} {l : ℕ} {s : σ} {x : τ},
    l < fuel → 0 ≤ p → p + l ≤ hi → StepYields f g R p (p + l) d → R s x →
    Yields (whileGe I f d fuel p l s) fun r =>
      R r.1 (walk g d (l / d) p x) ∧ r.2 = (p + d * (l / d : ℕ), ((l % d : ℕ) : ℤ)) := by
  intro fuel
  induction fuel with
  | zero => intro p l s x hl; omega
  | succ fuel ih =>
    intro p l s x hl h0 h1 hstep hx
    unfold whileGe
    by_cases hge : d ≤ l
    · obtain ⟨l, rfl⟩ : ∃ r, l = r + d := ⟨l - d, by omega⟩
      push_cast at h1 hstep
      have hsub : ((l + d : ℕ) : ℤ) - d = l := by omega
      rw [if_pos (by omega)]
      refine (hstep p s x le_rfl (by omega) hx).bind fun s hs => ?_
      refine .bind_eq (hI.add (by omega) (by omega)) ?_
      refine .bind_eq (hI.sub (by omega) (by omega)) ?_
      rw [hsub]
      refine (ih (by omega) (by omega) (by omega)
        (hstep.mono (by omega) (by omega)) hs).mono fun r hr => ?_
      rw [Nat.add_div_right _ hd, Nat.add_mod_right, walk_succ]
      refine ⟨hr.1, hr.2.trans ?_⟩
      congr 1
      push_cast
      ring
    · rw [if_neg (by omega), Nat.div_eq_of_lt (by omega), Nat.mod_eq_of_lt (by omega)]
      exact .pure ⟨hx, by simp⟩

/-- **The loop with its test behind.** -/
theorem doWhileGe_yields (hI : I.Upto hi) (hd : 0 < d) : ∀ (fuel : ℕ) {p : ℤ} {l : ℕ} {s : σ}
    {x : τ}, l < fuel → d ≤ l → 0 ≤ p → p + l ≤ hi → StepYields f g R p (p + l) d → R s x →
    Yields (doWhileGe I f d fuel p l s) fun r =>
      R r.1 (walk g d (l / d) p x) ∧ r.2 = (p + d * (l / d : ℕ), ((l % d : ℕ) : ℤ)) := by
  intro fuel
  induction fuel with
  | zero => intro p l s x hl; omega
  | succ fuel ih =>
    intro p l s x hl hge h0 h1 hstep hx
    obtain ⟨l, rfl⟩ : ∃ r, l = r + d := ⟨l - d, by omega⟩
    push_cast at h1 hstep
    have hsub : ((l + d : ℕ) : ℤ) - d = l := by omega
    unfold doWhileGe
    refine (hstep p s x le_rfl (by omega) hx).bind fun s hs => ?_
    refine .bind_eq (hI.add (by omega) (by omega)) ?_
    refine .bind_eq (hI.sub (by omega) (by omega)) ?_
    rw [hsub, Nat.add_div_right _ hd, Nat.add_mod_right, walk_succ]
    by_cases hnext : d ≤ l
    · rw [if_pos (by omega)]
      refine (ih (by omega) hnext (by omega) (by omega)
        (hstep.mono (by omega) (by omega)) hs).mono fun r hr => ⟨hr.1, hr.2.trans ?_⟩
      congr 1
      push_cast
      ring
    · rw [if_neg (by omega), Nat.div_eq_of_lt (by omega), Nat.mod_eq_of_lt (by omega)]
      exact .pure ⟨hs, by simp⟩

theorem whileGe_eq {g : ℤ → σ → σ} {fuel l : ℕ} {p : ℤ} {s : σ} (hI : I.Upto hi) (hd : 0 < d)
    (hl : l < fuel) (h0 : 0 ≤ p) (h1 : p + l ≤ hi)
    (hstep : ∀ q s, p ≤ q → q + d ≤ p + l → f q s = pure (g q s)) :
    whileGe I f d fuel p l s =
      pure (walk g d (l / d) p s, p + (d * (l / d) : ℕ), ((l % d : ℕ) : ℤ)) := by
  obtain ⟨r, hr, hwalk, hpos⟩ := whileGe_yields hI hd fuel hl h0 h1 (.of_eq hstep) (rfl : s = s)
  rw [hr, ← Prod.eta r, hwalk, hpos, Nat.cast_mul]

theorem doWhileGe_eq {g : ℤ → σ → σ} {fuel l : ℕ} {p : ℤ} {s : σ} (hI : I.Upto hi) (hd : 0 < d)
    (hl : l < fuel) (hge : d ≤ l) (h0 : 0 ≤ p) (h1 : p + l ≤ hi)
    (hstep : ∀ q s, p ≤ q → q + d ≤ p + l → f q s = pure (g q s)) :
    doWhileGe I f d fuel p l s =
      pure (walk g d (l / d) p s, p + (d * (l / d) : ℕ), ((l % d : ℕ) : ℤ)) := by
  obtain ⟨r, hr, hwalk, hpos⟩ := doWhileGe_yields hI hd fuel hl hge h0 h1 (.of_eq hstep)
    (rfl : s = s)
  rw [hr, ← Prod.eta r, hwalk, hpos, Nat.cast_mul]

/-- **The loop up to an end**, tested with `<`. -/
theorem untilLt_yields (hI : I.Upto hi) (hd : 0 < d) : ∀ (fuel k : ℕ) {p : ℤ} {s : σ} {x : τ},
    k < fuel → 0 ≤ p → p + d * k ≤ hi → StepYields f g R p (p + d * k) d → R s x →
    Yields (untilLt I f d (p + d * k) fuel p s) (R · (walk g d k p x)) := by
  intro fuel
  induction fuel with
  | zero => intro k p s x hk; omega
  | succ fuel ih =>
    intro k p s x hk h0 h1 hstep hx
    unfold untilLt
    cases k with
    | zero =>
      rw [if_neg (by simp)]
      exact .pure hx
    | succ k =>
      have hdk : (0 : ℤ) ≤ d * k := Int.mul_nonneg (by omega) (by omega)
      have hend : p + d * ((k + 1 : ℕ) : ℤ) = p + d + d * k := by push_cast; ring
      rw [hend] at h1 hstep ⊢
      rw [if_pos (by omega)]
      refine (hstep p s x le_rfl (by omega) hx).bind fun s hs => ?_
      refine .bind_eq (hI.add (by omega) (by omega)) ?_
      exact ih k (by omega) (by omega) h1 (hstep.mono (by omega) le_rfl) hs

/-- **The loop up to an end**, tested with `!=`. It meets its end because the range is whole. -/
theorem untilNe_yields (hI : I.Upto hi) (hd : 0 < d) : ∀ (fuel k : ℕ) {p : ℤ} {s : σ} {x : τ},
    k < fuel → 0 ≤ p → p + d * k ≤ hi → StepYields f g R p (p + d * k) d → R s x →
    Yields (untilNe I f d (p + d * k) fuel p s) (R · (walk g d k p x)) := by
  intro fuel
  induction fuel with
  | zero => intro k p s x hk; omega
  | succ fuel ih =>
    intro k p s x hk h0 h1 hstep hx
    unfold untilNe
    cases k with
    | zero =>
      rw [if_neg (by simp)]
      exact .pure hx
    | succ k =>
      have hdk : (0 : ℤ) ≤ d * k := Int.mul_nonneg (by omega) (by omega)
      have hend : p + d * ((k + 1 : ℕ) : ℤ) = p + d + d * k := by push_cast; ring
      rw [hend] at h1 hstep ⊢
      rw [if_pos (by omega)]
      refine (hstep p s x le_rfl (by omega) hx).bind fun s hs => ?_
      refine .bind_eq (hI.add (by omega) (by omega)) ?_
      exact ih k (by omega) (by omega) h1 (hstep.mono (by omega) le_rfl) hs

/-- **The loop that counts down to zero.** It meets zero because the range is whole. -/
theorem downToZero_yields (hI : I.Upto hi) (hd : 0 < d) : ∀ (fuel k : ℕ) {p : ℤ} {s : σ} {x : τ},
    k < fuel → 0 ≤ p → p + d * k ≤ hi → StepYields f g R p (p + d * k) d → R s x →
    Yields (downToZero I f d fuel p (d * k : ℕ) s) (R · (walk g d k p x)) := by
  intro fuel
  induction fuel with
  | zero => intro k p s x hk; omega
  | succ fuel ih =>
    intro k p s x hk h0 h1 hstep hx
    unfold downToZero
    cases k with
    | zero =>
      rw [if_pos (by simp)]
      exact .pure hx
    | succ k =>
      have hdk : (0 : ℤ) ≤ d * k := Int.mul_nonneg (by omega) (by omega)
      have hend : p + d * ((k + 1 : ℕ) : ℤ) = p + d + d * k := by push_cast; ring
      have hpos : 0 < d * (k + 1) := Nat.mul_pos hd (Nat.succ_pos k)
      have hleft : ((d * (k + 1) : ℕ) : ℤ) - d = (d * k : ℕ) := by push_cast; ring
      rw [hend] at h1 hstep
      rw [if_neg (Int.natCast_ne_zero.mpr hpos.ne')]
      refine (hstep p s x le_rfl (by omega) hx).bind fun s hs => ?_
      refine .bind_eq (hI.add (by omega) (by omega)) ?_
      refine .bind_eq (hI.sub (by push_cast at hleft ⊢; omega) (by push_cast at hleft ⊢; omega)) ?_
      rw [hleft]
      exact ih k (by omega) (by omega) h1 (hstep.mono (by omega) le_rfl) hs

end Rules

/-! A loop over the images of states is the image of the loop, faults included. -/

section Images
variable {I : Ints} {f : ℤ → σ → Chk σ} {f' : ℤ → τ → Chk τ} {e : σ → τ} {d : ℤ}

theorem whileGe_map (h : ∀ p s, f' p (e s) = e <$> f p s) : ∀ (fuel : ℕ) (p l : ℤ) (s : σ),
    whileGe I f' d fuel p l (e s) = Prod.map e id <$> whileGe I f d fuel p l s := by
  intro fuel
  induction fuel with
  | zero => intro p l s; rfl
  | succ fuel ih =>
    intro p l s
    unfold whileGe
    by_cases hge : l ≥ d
    · simp only [hge, if_true, h, bind_map_left, ih, map_bind]
    · simp only [hge, if_false, map_pure, Prod.map, id]

theorem doWhileGe_map (h : ∀ p s, f' p (e s) = e <$> f p s) : ∀ (fuel : ℕ) (p l : ℤ) (s : σ),
    doWhileGe I f' d fuel p l (e s) = Prod.map e id <$> doWhileGe I f d fuel p l s := by
  intro fuel
  induction fuel with
  | zero => intro p l s; rfl
  | succ fuel ih =>
    intro p l s
    unfold doWhileGe
    simp only [h, bind_map_left, map_bind]
    refine bind_congr fun s' => bind_congr fun p' => bind_congr fun l' => ?_
    by_cases hge : l' ≥ d
    · simp only [hge, if_true, ih]
    · simp only [hge, if_false, map_pure, Prod.map, id]

end Images

end Hayahash.Lib.Checked
