import Hayahash.Spec.Observe

/-! # Replaying what was absorbed

The digest of a key from the values a run absorbed, the length and the seed alone (`replayHash`).
Each value is taken once, in order, and is what enters its lane. The key is not read again: lane 0
also takes the last stripe of a block, and that stripe comes out of its value and the stripe before
(`unchain`).

For the reference this gives the lanes where the folds begin (`replay_trace`) and both words of the
digest (`replayHash_trace`). So no lane takes in anything that is not among the absorbed values. -/

namespace Hayahash.Spec.Replay

open Hayahash.Lib.ReadProg Hayahash.Lib.Bytes Hayahash.C.Primitives Hayahash.C.Walk
open Hayahash.Spec.Reference Hayahash.Spec.Stripes Hayahash.Spec.Observe

/-! ### Values enter the lanes -/

/-- The stripe with the value `x` after the stripe `wp`. -/
def unchain (x wp : Word) : Word := x - rotl wp 27

/-- The last stripe of those with the values `xs` after the stripe `wp`. -/
def lastStripe (wp : Word) (xs : List Word) : Word := xs.foldl (fun w x => unchain x w) wp

/-- Eight values enter the lanes, and the checkpoint. -/
def enterBlock (s : Lanes8 × Word) (x0 x1 x2 x3 x4 x5 x6 x7 : Word) : Lanes8 × Word :=
  let w := lastStripe s.2 [x0, x1, x2, x3, x4, x5, x6, x7]
  (⟨mix s.1.h0 x0 + w, mix s.1.h1 x1, mix s.1.h2 x2, mix s.1.h3 x3, mix s.1.h4 x4, mix s.1.h5 x5,
    mix s.1.h6 x6, mix s.1.h7 x7⟩, w)

/-- Four values enter the lanes. -/
def enterRound (s : Lanes4 × Word) (x0 x1 x2 x3 : Word) : Lanes4 × Word :=
  (⟨mix s.1.h0 x0, mix s.1.h1 x1, mix s.1.h2 x2, mix s.1.h3 x3⟩, lastStripe s.2 [x0, x1, x2, x3])

/-- The values of `k` blocks, and what is left of the list. -/
def enterBlocks : ℕ → Lanes8 × Word → List Word → (Lanes8 × Word) × List Word
  | k + 1, s, x0 :: x1 :: x2 :: x3 :: x4 :: x5 :: x6 :: x7 :: xs =>
    enterBlocks k (enterBlock s x0 x1 x2 x3 x4 x5 x6 x7) xs
  | _, s, xs => (s, xs)

/-- The values of `k` rounds, and what is left of the list. -/
def enterRounds : ℕ → Lanes4 × Word → List Word → (Lanes4 × Word) × List Word
  | k + 1, s, x0 :: x1 :: x2 :: x3 :: xs => enterRounds k (enterRound s x0 x1 x2 x3) xs
  | _, s, xs => (s, xs)

/-- The tail words: the last two, or all four. -/
def enterTail (h : Lanes4) : List Word → Lanes4
  | [x0, x1, x2, x3] => ⟨(h.h0 + x0) * K, (h.h1 + x1) * K, (h.h2 + x2) * K, (h.h3 + x3) * K⟩
  | [x2, x3] => { h with h2 := (h.h2 + x2) * K, h3 := (h.h3 + x3) * K }
  | _ => h

/-- The wall, then the tail words. -/
def enterEnd (h : Lanes4) : List Word → Lanes4
  | x :: xs => enterTail { h with h0 := h.h0 + x } xs
  | [] => h

/-- The values of both loops, and what is left of the list. -/
def enterWalk (n : ℕ) (s : Word) (xs : List Word) : (Lanes4 × Word) × List Word :=
  if n < 320 then enterRounds (n / 32) (iv4 s, 0) xs
  else
    let b := enterBlocks (n / 64) (iv8 s, 0) xs
    enterRounds (n % 64 / 32) (foldUpper b.1.1, b.1.2) b.2

/-- **The lanes where the folds begin**, from the values absorbed. -/
def replay (n : ℕ) (s : Word) (xs : List Word) : Lanes4 :=
  let r := enterWalk n s xs
  enterEnd r.1.1 r.2

/-- The digest of a short key, from its two values. -/
def replayShort (n : ℕ) (s : Word) : List Word → Hash128
  | [a, b] =>
    let x := (a ^^^ s ^^^ K) * K
    let u := shortU x ((b ^^^ rotl s 23 ^^^ (K >>> 19)) * M1) n
    ⟨fmix u, fmix128 (x + rotl u 32)⟩
  | _ => ⟨0, 0⟩

/-- **The digest**, from the values absorbed. -/
def replayHash (n : ℕ) (seed : Word) (xs : List Word) : Hash128 :=
  let s := seed ^^^ K
  if n ≤ 16 then replayShort n s xs
  else ⟨long64 s (replay n s xs) n, longHi s (replay n s xs) n⟩

/-! ### Stripes -/

variable {m : Mem Byte} {n : ℕ}

@[simp] theorem unchain_chain (w wp : Word) : unchain (chain w wp) wp = w := by
  rw [unchain, chain, add_sub_cancel_right]

theorem lastStripe_nil (wp : Word) : lastStripe wp [] = wp := rfl

theorem lastStripe_cons (w wp : Word) (xs : List Word) :
    lastStripe wp (chain w wp :: xs) = lastStripe w xs := by
  rw [lastStripe, List.foldl_cons, unchain_chain, lastStripe]

/-- **A block**: the values of its stripes do what its stripes do. -/
theorem enterBlock_values (q : ℤ) (s : Lanes8 × Word) :
    enterBlock s (chain (word64 m q) s.2) (chain (word64 m (q + 8)) (word64 m q))
      (chain (word64 m (q + 16)) (word64 m (q + 8))) (chain (word64 m (q + 24)) (word64 m (q + 16)))
      (chain (word64 m (q + 32)) (word64 m (q + 24)))
      (chain (word64 m (q + 40)) (word64 m (q + 32)))
      (chain (word64 m (q + 48)) (word64 m (q + 40)))
      (chain (word64 m (q + 56)) (word64 m (q + 48))) = blockStep m q s := by
  simp only [enterBlock, blockStep, lastStripe_cons, lastStripe_nil]

theorem enterRound_values (p : ℤ) (s : Lanes4 × Word) :
    enterRound s (chain (word64 m p) s.2) (chain (word64 m (p + 8)) (word64 m p))
      (chain (word64 m (p + 16)) (word64 m (p + 8)))
      (chain (word64 m (p + 24)) (word64 m (p + 16))) = roundStep m p s := by
  simp only [enterRound, roundStep, lastStripe_cons, lastStripe_nil]

theorem enterBlocks_values (k : ℕ) (xs : List Word) : ∀ (q : ℤ) (s : Lanes8 × Word),
    enterBlocks k s (stripeValues m (8 * k) q s.2 ++ xs) = (blocks m k q s, xs) := by
  induction k with
  | zero =>
    intro q s
    rw [blocks_zero, Nat.mul_zero, stripeValues, List.nil_append, enterBlocks]
    simp
  | succ k ih =>
    intro q s
    have hsplit : 8 * (k + 1) = 8 * k + 7 + 1 := by omega
    simp only [hsplit, stripeValues, List.cons_append, add_assoc, Int.reduceAdd, enterBlocks,
      enterBlock_values]
    rw [blocks_succ, ← ih (q + 64) (blockStep m q s)]
    rfl

theorem enterRounds_values (k : ℕ) (xs : List Word) : ∀ (p : ℤ) (s : Lanes4 × Word),
    enterRounds k s (stripeValues m (4 * k) p s.2 ++ xs) = (rounds m k p s, xs) := by
  induction k with
  | zero =>
    intro p s
    rw [rounds_zero, Nat.mul_zero, stripeValues, List.nil_append, enterRounds]
    simp
  | succ k ih =>
    intro p s
    have hsplit : 4 * (k + 1) = 4 * k + 3 + 1 := by omega
    simp only [hsplit, stripeValues, List.cons_append, add_assoc, Int.reduceAdd, enterRounds,
      enterRound_values]
    rw [rounds_succ, ← ih (p + 32) (roundStep m p s)]
    rfl

theorem stripeValues_split (s : Word) : stripeValues m (4 * (n / 32)) 0 0 =
    stripeValues m (8 * (n / 64)) 0 0 ++
      stripeValues m (4 * (n % 64 / 32)) (64 * (n / 64) : ℕ) (bulkState m n s).2 := by
  have hlast : (bulkState m n s).2 = lastWord m 0 0 (8 * (n / 64)) := blocks_snd _ _ _
  rw [hlast, ← absorbs_stripeEvents, ← absorbs_stripeEvents, ← absorbs_stripeEvents,
    ← absorbs_append, ← stripeEvents_split]

theorem enterWalk_values (s : Word) (xs : List Word) :
    enterWalk n s (stripeValues m (4 * (n / 32)) 0 0 ++ xs) = (walkState m n s, xs) := by
  unfold enterWalk walkState
  by_cases hn : n < 320
  · rw [if_pos hn, if_pos hn]
    exact enterRounds_values _ _ 0 (iv4 s, 0)
  · have hblocks := enterBlocks_values (m := m) (n / 64)
      (stripeValues m (4 * (n % 64 / 32)) (64 * (n / 64) : ℕ) (bulkState m n s).2 ++ xs) 0
      (iv8 s, 0)
    rw [if_neg hn, if_neg hn, stripeValues_split s, List.append_assoc, hblocks]
    exact enterRounds_values _ _ _ (foldUpper (bulkState m n s).1, (bulkState m n s).2)

theorem enterTail_values (p l : ℤ) (h : Lanes4) :
    enterTail h (tailValues m p l) = tailStep m p l h := by
  unfold tailValues tailStep headStep lastStep
  by_cases h16 : l > 16
  · have h0 : l > 0 := by omega
    rw [if_pos h16, if_pos h0, if_pos h16, if_pos h0]
    rfl
  · rw [if_neg h16, if_neg h16]
    split_ifs <;> rfl

/-! ### Main results -/

/-- **The lanes where the folds begin** are those of the absorbed values. -/
theorem replay_trace (h17 : 16 < n) (seed : Word) :
    replay n (seed ^^^ K) (absorbs (trace m n seed)) = foldLanes m n (seed ^^^ K) := by
  rw [absorbs_trace h17, longValues, replay, enterWalk_values, enterEnd, ← walkState_snd,
    enterTail_values]
  rfl

/-- **The digest** is that of the absorbed values. -/
theorem replayHash_trace (m : Mem Byte) (n : ℕ) (seed : Word) :
    replayHash n seed (absorbs (trace m n seed)) = compact128 m n seed := by
  unfold replayHash compact128 compact64 compactHi
  by_cases hn : n ≤ 16
  · simp only [if_pos hn, trace]
    rfl
  · simp only [if_neg hn, replay_trace (by omega : 16 < n)]

end Hayahash.Spec.Replay
