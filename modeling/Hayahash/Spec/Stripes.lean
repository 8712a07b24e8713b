import Hayahash.Spec.Reference

/-! # Stripes, blocks and rounds

How the pieces of the reference compose: runs of stripes one after the other, the last word that a
run leaves for the next (`lastWord`), blocks and rounds as runs of eight and of four stripes, and
the blocks and the round of a long key as one run of stripes (`stripeEvents_split`). -/

namespace Hayahash.Spec.Stripes

open Hayahash.Lib.ReadProg Hayahash.Lib.Bytes Hayahash.Lib.Walk Hayahash.C.Primitives
open Hayahash.Spec.Reference

variable {m : Mem Byte}

/-! ### Runs of stripes -/

theorem stripe_pos_succ (p : ℤ) (j : ℕ) : p + 8 * ((j + 1 : ℕ) : ℤ) = p + 8 + 8 * (j : ℤ) := by
  push_cast
  omega

/-- The last of `k` stripes from `p` on, or `wp`. -/
def lastWord (m : Mem Byte) (p : ℤ) (wp : Word) : ℕ → Word
  | 0 => wp
  | k + 1 => word64 m (p + 8 * k)

/-- The last word is one of the key, if any was absorbed. -/
theorem lastWord_succ (p : ℤ) (wp : Word) (k : ℕ) :
    lastWord m p wp (k + 1) = word64 m (p + 8 * k) := rfl

theorem lastWord_add (p : ℤ) (wp : Word) (k : ℕ) : ∀ k' : ℕ,
    lastWord m (p + 8 * k) (lastWord m p wp k) k' = lastWord m p wp (k + k')
  | 0 => rfl
  | k' + 1 => by
    rw [← add_assoc, lastWord, lastWord]
    congr 1
    push_cast
    omega

theorem lastWord_cons (p : ℤ) (wp : Word) (k : ℕ) :
    lastWord m (p + 8) (word64 m p) k = lastWord m p wp (k + 1) := by
  have hadd := lastWord_add (m := m) p wp 1 k
  rw [Nat.add_comm 1 k] at hadd
  simpa [lastWord] using hadd

theorem stripeSpans_add (k k' : ℕ) : ∀ p : ℤ,
    stripeSpans (k + k') p = stripeSpans k p ++ stripeSpans k' (p + 8 * k) := by
  induction k with
  | zero =>
    intro p
    simp [stripeSpans]
  | succ k ih =>
    intro p
    rw [Nat.add_right_comm, stripeSpans, stripeSpans, ih, List.cons_append, stripe_pos_succ]

theorem stripeEvents_add (k k' : ℕ) : ∀ (p : ℤ) (wp : Word),
    stripeEvents m (k + k') p wp =
      stripeEvents m k p wp ++ stripeEvents m k' (p + 8 * k) (lastWord m p wp k) := by
  induction k with
  | zero =>
    intro p wp
    simp [stripeEvents, lastWord]
  | succ k ih =>
    intro p wp
    rw [Nat.add_right_comm, stripeEvents, stripeEvents, ih, List.cons_append, stripe_pos_succ,
      lastWord_cons p wp]

section Runs
variable {c : ℕ} {d : ℤ} (hd : d = 8 * c) (k k' : ℕ) (p : ℤ)
include hd

theorem stripeSpans_mul : stripeSpans (c * (k + k')) p =
    stripeSpans (c * k) p ++ stripeSpans (c * k') (p + d * k) := by
  rw [Nat.mul_add, stripeSpans_add, hd, Nat.cast_mul, mul_assoc]

theorem stripeEvents_mul (wp : Word) : stripeEvents m (c * (k + k')) p wp =
    stripeEvents m (c * k) p wp ++
      stripeEvents m (c * k') (p + d * k) (lastWord m p wp (c * k)) := by
  rw [Nat.mul_add, stripeEvents_add, hd, Nat.cast_mul, mul_assoc]

end Runs

/-! ### Blocks and rounds -/

theorem blocks_zero (q : ℤ) (s : Lanes8 × Word) : blocks m 0 q s = s := walk_zero s

theorem rounds_zero (p : ℤ) (s : Lanes4 × Word) : rounds m 0 p s = s := walk_zero s

theorem blocks_succ (k : ℕ) (q : ℤ) (s : Lanes8 × Word) :
    blocks m (k + 1) q s = blocks m k (q + 64) (blockStep m q s) := walk_succ k s

theorem rounds_succ (k : ℕ) (p : ℤ) (s : Lanes4 × Word) :
    rounds m (k + 1) p s = rounds m k (p + 32) (roundStep m p s) := walk_succ k s

theorem blocks_add (k k' : ℕ) (q : ℤ) (s : Lanes8 × Word) :
    blocks m (k + k') q s = blocks m k' (q + 64 * k) (blocks m k q s) := walk_add k k' s

theorem rounds_add (k k' : ℕ) (p : ℤ) (s : Lanes4 × Word) :
    rounds m (k + k') p s = rounds m k' (p + 32 * k) (rounds m k p s) := walk_add k k' s

theorem blocks_snd (k : ℕ) (q : ℤ) (s : Lanes8 × Word) :
    (blocks m k q s).2 = lastWord m q s.2 (8 * k) := by
  cases k with
  | zero => rfl
  | succ k =>
    have hlast : 8 * (k + 1) = 8 * k + 7 + 1 := by omega
    rw [blocks, walk_last, hlast, lastWord_succ]
    show word64 m (q + 64 * k + 56) = _
    congr 1
    push_cast
    omega

theorem rounds_snd (k : ℕ) (p : ℤ) (s : Lanes4 × Word) :
    (rounds m k p s).2 = lastWord m p s.2 (4 * k) := by
  cases k with
  | zero => rfl
  | succ k =>
    have hlast : 4 * (k + 1) = 4 * k + 3 + 1 := by omega
    rw [rounds, walk_last, hlast, lastWord_succ]
    show word64 m (p + 32 * k + 24) = _
    congr 1
    push_cast
    omega

/-- Blocks leave the last word to the blocks after them. -/
theorem stripeEvents_blocks (k k' : ℕ) (p : ℤ) (s : Lanes8 × Word) :
    stripeEvents m (8 * (k + k')) p s.2 = stripeEvents m (8 * k) p s.2 ++
      stripeEvents m (8 * k') (p + 64 * k) (blocks m k p s).2 := by
  rw [stripeEvents_mul (d := 64) rfl, blocks_snd]

theorem stripeEvents_rounds (k k' : ℕ) (p : ℤ) (s : Lanes4 × Word) :
    stripeEvents m (4 * (k + k')) p s.2 = stripeEvents m (4 * k) p s.2 ++
      stripeEvents m (4 * k') (p + 32 * k) (rounds m k p s).2 := by
  rw [stripeEvents_mul (d := 32) rfl, rounds_snd]

/-! ### Blocks, then at most one round -/

theorem stripes_split (l : ℕ) : 4 * (l / 32) = 8 * (l / 64) + 4 * (l % 64 / 32) := by omega

theorem blocks_end (l : ℕ) : (0 : ℤ) + 8 * (8 * (l / 64) : ℕ) = (64 * (l / 64) : ℕ) := by
  push_cast
  omega

theorem stripeSpans_split (l : ℕ) : stripeSpans (4 * (l / 32)) 0 =
    stripeSpans (8 * (l / 64)) 0 ++ stripeSpans (4 * (l % 64 / 32)) (64 * (l / 64) : ℕ) := by
  rw [stripes_split, stripeSpans_add, blocks_end]

theorem stripeEvents_split (l : ℕ) (wp : Word) : stripeEvents m (4 * (l / 32)) 0 wp =
    stripeEvents m (8 * (l / 64)) 0 wp ++
      stripeEvents m (4 * (l % 64 / 32)) (64 * (l / 64) : ℕ) (lastWord m 0 wp (8 * (l / 64))) := by
  rw [stripes_split, stripeEvents_add, blocks_end]

theorem lastWord_split (l : ℕ) (wp : Word) : lastWord m 0 wp (4 * (l / 32)) =
    lastWord m (64 * (l / 64) : ℕ) (lastWord m 0 wp (8 * (l / 64))) (4 * (l % 64 / 32)) := by
  rw [stripes_split, ← lastWord_add, blocks_end]

end Hayahash.Spec.Stripes
