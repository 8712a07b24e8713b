import Mathlib.Data.Int.Notation
import Mathlib.Algebra.Ring.Int.Defs
import Mathlib.Tactic.Ring

/-! # Walks with a stride

`walk f d k p s` takes `k` steps of `f` from the position `p` and the state `s` on, each `d` further
than the one before. It composes (`walk_add`), and what every step keeps of two states, or of a
family of states, the walk keeps (`walk_rel`, `walk_family`). A sequence that takes in one value a
step by an operation that can be undone keeps a single difference (`seq_differs`). -/

namespace Hayahash.Lib.Walk

variable {σ τ : Type*}

/-- **`k` steps of `f`**, from the position `p` on. -/
def walk (f : ℤ → σ → σ) (d : ℤ) : ℕ → ℤ → σ → σ
  | 0, _, s => s
  | k + 1, p, s => walk f d k (p + d) (f p s)

variable {f : ℤ → σ → σ} {g : ℤ → τ → τ} {d p : ℤ}

theorem walk_zero (s : σ) : walk f d 0 p s = s := rfl

theorem walk_succ (k : ℕ) (s : σ) : walk f d (k + 1) p s = walk f d k (p + d) (f p s) := rfl

theorem walk_add (k k' : ℕ) (s : σ) :
    walk f d (k + k') p s = walk f d k' (p + d * k) (walk f d k p s) := by
  induction k generalizing p s with
  | zero => simp [walk_zero]
  | succ k ih =>
    rw [show k + 1 + k' = k + k' + 1 by omega, walk_succ, walk_succ, ih]
    congr 1
    push_cast
    ring

theorem walk_last (k : ℕ) (s : σ) :
    walk f d (k + 1) p s = f (p + d * k) (walk f d k p s) := by
  rw [walk_add, walk_succ, walk_zero]

/-- **Two walks stay related**, if their steps at corresponding places keep them so. The relation
may depend on the number of steps taken. -/
theorem walk_rel (R : ℕ → σ → τ → Prop) (k : ℕ) {p' : ℤ} {s : σ} {s' : τ}
    (hstep : ∀ i < k, ∀ x y, R i x y → R (i + 1) (f (p + d * i) x) (g (p' + d * i) y))
    (h : R 0 s s') : R k (walk f d k p s) (walk g d k p' s') := by
  induction k with
  | zero => exact h
  | succ k ih =>
    rw [walk_last, walk_last]
    exact hstep k (by omega) _ _ (ih fun i hi => hstep i (by omega))

/-- **A family of walks**: what a step keeps of a family of states, the walk keeps. -/
theorem walk_family {ι : Type*} (P : (ι → σ) → Prop) (k : ℕ) {s : ι → σ}
    (hstep : ∀ q s, P s → P fun i => f q (s i)) (h : P s) : P fun i => walk f d k p (s i) := by
  induction k generalizing p s with
  | zero => exact h
  | succ k ih =>
    simp only [walk_succ]
    exact ih (hstep p s h)

theorem walk_congr {f' : ℤ → σ → σ} {p' : ℤ} (k : ℕ) (s : σ)
    (h : ∀ i < k, ∀ x, f (p + d * i) x = f' (p' + d * i) x) :
    walk f d k p s = walk f' d k p' s :=
  walk_rel (fun _ x y => x = y) k (fun i hi x _ hxy => hxy ▸ h i hi x) rfl

theorem walk_shift (c : ℤ) (k : ℕ) (s : σ) :
    walk (fun q => f (q - c)) d k p s = walk f d k (p - c) s :=
  walk_congr k s fun i _ x => by rw [add_sub_right_comm]

/-! ### One difference

Sequences that take in one value a step, by an operation that can be undone on either side. -/

section Sequences
variable {α β : Type*} (op : β → α → β) (u u' : ℕ → β) {v v' : ℕ → α}
  (hu : ∀ k, u (k + 1) = op (u k) (v k)) (hu' : ∀ k, u' (k + 1) = op (u' k) (v' k))
  (h0 : u 0 = u' 0)
include hu hu' h0

theorem seq_agrees {k : ℕ} (h : ∀ i < k, v i = v' i) : u k = u' k := by
  induction k with
  | zero => exact h0
  | succ k ih =>
    rw [hu, hu', ih fun i hi => h i (by omega), h k (by omega)]

/-- **A single difference is never lost**: it enters, and every later step keeps it. -/
theorem seq_differs (hleft : ∀ {b b' a}, op b a = op b' a → b = b')
    (hright : ∀ {b a a'}, op b a = op b a' → a = a') {i k : ℕ} (hik : i < k) (hne : v i ≠ v' i)
    (h : ∀ j < k, j ≠ i → v j = v' j) : u k ≠ u' k := by
  induction k with
  | zero => omega
  | succ k ih =>
    rw [hu, hu']
    rcases Nat.lt_or_eq_of_le (Nat.le_of_lt_succ hik) with hlt | rfl
    · rw [h k (by omega) (by omega)]
      exact fun he => ih hlt (fun j hj => h j (by omega)) (hleft he)
    · rw [seq_agrees op u u' hu hu' h0 fun j hj => h j (by omega) (by omega)]
      exact fun he => hne (hright he)

end Sequences

end Hayahash.Lib.Walk
