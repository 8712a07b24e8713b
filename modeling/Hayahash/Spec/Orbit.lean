import Hayahash.C.Mixers
import Hayahash.Lib.LowBit
import Hayahash.Spec.Reference

/-! # Rotation ladders

Two word sequences that differ in 64 consecutive words, in the top bit of the first and then, word
by word, in the bit that the rotation has carried the flip before to, so that the flip and the
rotated copy of the one before cancel. The absorbed values then differ in two places only, 64 apart
(`stripe_eq`, `stripe_flip`), in their top bit; these two meet in the same lane and cancel there.

What is left is the checkpoint: eight of the 64 flipped words are added to lane 0, each flipped in
another bit, and the lowest of the bits stays the lowest bit in which the two lanes 0 differ
(`Apart`, `apart_step`). -/

namespace Hayahash.Spec.Orbit

open Hayahash.Lib.ReadProg Hayahash.Lib.Bytes Hayahash.Lib.Bits Hayahash.Lib.LowBit
open Hayahash.Lib.Walk Hayahash.C.Primitives Hayahash.C.Mixers Hayahash.Spec.Reference

/-- The top bit. -/
abbrev top : Word := BitVec.twoPow 64 63

/-- The bit flipped at distance `d` from the start. -/
def rungBit (d : ℕ) : ℕ := (63 + 27 * d) % 64

/-- **A ladder** from `start` on: `b` is `a` with one bit flipped in each of 64 words, in the
opposite direction to the rotated copy of the flip before. -/
structure Ladder (start : ℕ) (a b : ℕ → Word) : Prop where
  outside : ∀ i, i < start ∨ start + 63 < i → a i = b i
  first : b start = a start ^^^ top
  rung : ∀ d, 0 < d → d ≤ 63 → b (start + d) = a (start + d) ^^^ BitVec.twoPow 64 (rungBit d) ∧
    (a (start + d)).getLsbD (rungBit d) = !(rotl (a (start + d - 1)) 27).getLsbD (rungBit d)

/-- The stripe before stripe `i`. -/
def prev (a : ℕ → Word) : ℕ → Word
  | 0 => 0
  | i + 1 => a i

/-- The absorbed value of stripe `i`. -/
def stripe (a : ℕ → Word) (i : ℕ) : Word := chain (a i) (prev a i)

variable {start : ℕ} {a b : ℕ → Word}

/-! ### The absorbed values -/

theorem rungBit_lt (d : ℕ) : rungBit d < 64 := Nat.mod_lt _ (by decide)

theorem rungBit_succ (d : ℕ) : (rungBit d + 27) % 64 = rungBit (d + 1) := by
  unfold rungBit
  omega

theorem rotl_twoPow : ∀ p < 64,
    rotl (BitVec.twoPow 64 p) 27 = BitVec.twoPow 64 ((p + 27) % 64) := by
  decide

theorem rotl_flip (x : Word) (d : ℕ) : rotl (x ^^^ BitVec.twoPow 64 (rungBit d)) 27 =
    rotl x 27 ^^^ BitVec.twoPow 64 (rungBit (d + 1)) := by
  rw [← rungBit_succ, ← rotl_twoPow _ (rungBit_lt d)]
  simp only [rotl_eq (by decide : 27 < 64), rotateLeft_xor]

theorem Ladder.flip (h : Ladder start a b) {d : ℕ} (hd : d ≤ 63) :
    b (start + d) = a (start + d) ^^^ BitVec.twoPow 64 (rungBit d) := by
  rcases Nat.eq_zero_or_pos d with rfl | hpos
  · exact h.first
  · exact (h.rung d hpos hd).1

/-- **Between the ends the flips cancel**, and outside the ladder nothing is flipped. -/
theorem stripe_eq (h : Ladder start a b) {i : ℕ} (hs : i ≠ start) (he : i ≠ start + 64) :
    stripe b i = stripe a i := by
  unfold stripe chain
  by_cases hin : start < i ∧ i < start + 64
  · obtain ⟨d, rfl⟩ : ∃ d, i = start + d + 1 := ⟨i - start - 1, by omega⟩
    obtain ⟨hflip, hbit⟩ := h.rung (d + 1) (by omega) (by omega)
    rw [← add_assoc] at hflip hbit
    rw [Nat.add_sub_cancel] at hbit
    rw [hflip, prev, prev, h.flip (by omega), rotl_flip]
    exact flip_add_flip (rungBit_lt _) hbit
  · rw [h.outside i (by omega)]
    cases i with
    | zero => rfl
    | succ i => rw [prev, prev, h.outside i (by omega)]

/-- **At the ends the top bit is flipped.** -/
theorem stripe_flip (h : Ladder start a b) {i : ℕ} (hi : i = start ∨ i = start + 64) :
    stripe b i = stripe a i ^^^ top := by
  unfold stripe chain
  rcases hi with rfl | rfl
  · have hp : prev b i = prev a i := by
      cases i with
      | zero => rfl
      | succ i => exact (h.outside i (by omega)).symm
    rw [h.first, hp, flip_top (by decide), flip_top (by decide), add_right_comm]
  · have hp : prev b (start + 64) = prev a (start + 64) ^^^ BitVec.twoPow 64 (rungBit 63) :=
      h.flip (le_refl 63)
    have hlast : rungBit (63 + 1) = 63 := rfl
    rw [← h.outside (start + 64) (by omega), hp, rotl_flip, hlast, flip_top (by decide),
      flip_top (by decide), add_assoc]

/-! ### The lanes -/

/-- Lane `j`. -/
def lane (h : Lanes8) : Fin 8 → Word
  | 0 => h.h0
  | 1 => h.h1
  | 2 => h.h2
  | 3 => h.h3
  | 4 => h.h4
  | 5 => h.h5
  | 6 => h.h6
  | 7 => h.h7

/-- The words of the memory are those of `a`, up to `n`. -/
def Holds (m : Mem Byte) (a : ℕ → Word) (n : ℕ) : Prop :=
  ∀ i < n, word64 m (8 * (i : ℕ)) = a i

variable {m m' : Mem Byte} {x y : Lanes8 × Word} {k : ℕ}

theorem Holds.word {n : ℕ} (h : Holds m a n) {p : ℤ} {i : ℕ} (hp : p = 8 * (i : ℕ)) (hi : i < n) :
    word64 m p = a i := hp ▸ h i hi

/-- **A block, lane by lane**: each lane absorbs its stripe, and lane 0 the last word on top. -/
theorem lane_blockStep (hm : Holds m a (8 * (k + 1))) (hx : x.2 = prev a (8 * k)) (j : Fin 8) :
    lane (blockStep m (0 + 64 * k) x).1 j =
      mix (lane x.1 j) (stripe a (8 * k + j)) + if j = 0 then a (8 * k + 7) else 0 := by
  have hw : ∀ (c : ℕ) (p : ℤ), p = 0 + 64 * (k : ℤ) + 8 * c → c < 8 →
      word64 m p = a (8 * k + c) := fun c p hp hc => hm.word (by push_cast; omega) (by omega)
  have hprev : ∀ c, prev a (8 * k + (c + 1)) = a (8 * k + c) := fun _ => rfl
  simp only [blockStep, hx, hw 0 (0 + 64 * k) (by simp) (by decide),
    hw 1 (0 + 64 * k + 8) (by simp) (by decide), hw 2 (0 + 64 * k + 16) (by simp) (by decide),
    hw 3 (0 + 64 * k + 24) (by simp) (by decide), hw 4 (0 + 64 * k + 32) (by simp) (by decide),
    hw 5 (0 + 64 * k + 40) (by simp) (by decide), hw 6 (0 + 64 * k + 48) (by simp) (by decide),
    hw 7 (0 + 64 * k + 56) (by simp) (by decide)]
  unfold stripe
  fin_cases j
  · simp [lane]
  · simp [lane, hprev 0]
  · simp [lane, hprev 1]
  · simp [lane, hprev 2]
  · simp [lane, hprev 3]
  · simp [lane, hprev 4]
  · simp [lane, hprev 5]
  · simp [lane, hprev 6]

theorem snd_blockStep (hm : Holds m a (8 * (k + 1))) :
    (blockStep m (0 + 64 * k) x).2 = prev a (8 * (k + 1)) := by
  have hlast : 8 * (k + 1) = 8 * k + 7 + 1 := by omega
  rw [hlast, prev]
  exact hm.word (by push_cast; omega) (by omega)

/-! ### The checkpoint -/

/-- The bit flipped in the checkpoint `c` blocks after the block of the start, when the start is
stripe `l` of its block. -/
def checkpointBit (l c : ℕ) : ℕ := rungBit (7 - l + 8 * c)

/-- The lowest bit flipped in the first `c` of the eight checkpoints. -/
def lowestBit (l : ℕ) : ℕ → ℕ
  | 0 => 63
  | c + 1 => min (lowestBit l c) (checkpointBit l c)

/-- **The eight checkpoints flip eight different bits.** -/
theorem lowestBit_ne : ∀ l < 8, ∀ c < 8, 0 < c → lowestBit l c ≠ checkpointBit l c := by
  decide

theorem lowestBit_lt : ∀ l < 8, lowestBit l 8 < 63 := by decide

theorem Ladder.checkpoint (h : Ladder start a b) {c : ℕ} (hc : c < 8) :
    b (8 * (start / 8 + c) + 7) =
      a (8 * (start / 8 + c) + 7) ^^^ BitVec.twoPow 64 (checkpointBit (start % 8) c) := by
  have hpos : 8 * (start / 8 + c) + 7 = start + (7 - start % 8 + 8 * c) := by omega
  rw [hpos]
  exact h.flip (by omega)

/-! ### What is left of the ladder -/

theorem mix_top_left (h x : Word) : mix (h ^^^ top) x = mix h x ^^^ top := by
  rw [mix, mix, BitVec.xor_assoc, BitVec.xor_comm top, ← BitVec.xor_assoc,
    flip_top_mul (by decide) top_mul_K]

theorem mix_top_right (h x : Word) : mix h (x ^^^ top) = mix h x ^^^ top := by
  rw [mix, mix, ← BitVec.xor_assoc, flip_top_mul (by decide) top_mul_K]

theorem mix_lowDiff {v : ℕ} {h h' x x' : Word} (hh : LowDiff v h h') (hx : Agree (v + 1) x x') :
    LowDiff v (mix h x) (mix h' x') := (hh.xor hx).mul K_mul_inv

/-- Between its two ends the ladder flips the top bit of its lane. -/
def Pending (start k : ℕ) (j : Fin 8) : Prop :=
  start / 8 < k ∧ k ≤ start / 8 + 8 ∧ j = start % 8

instance (start k : ℕ) (j : Fin 8) : Decidable (Pending start k j) :=
  inferInstanceAs (Decidable (_ ∧ _ ∧ _))

/-- **How far apart the ladder has driven the lanes** after `k` blocks. -/
structure Apart (start : ℕ) (a b : ℕ → Word) (k : ℕ) (x y : Lanes8 × Word) : Prop where
  fst : x.2 = prev a (8 * k)
  snd : y.2 = prev b (8 * k)
  other : ∀ j : Fin 8, j ≠ 0 → lane y.1 j = lane x.1 j ^^^ if Pending start k j then top else 0
  before : k ≤ start / 8 → lane x.1 0 = lane y.1 0
  after : start / 8 < k →
    LowDiff (lowestBit (start % 8) (min (k - start / 8) 8)) (lane x.1 0) (lane y.1 0)

theorem apart_other (h : Ladder start a b) {u v : Word} {j : Fin 8}
    (huv : v = u ^^^ if Pending start k j then top else 0) :
    mix v (stripe b (8 * k + j)) =
      mix u (stripe a (8 * k + j)) ^^^ if Pending start (k + 1) j then top else 0 := by
  have hj := j.isLt
  subst huv
  by_cases hs : 8 * k + j = start
  · -- the ladder starts here
    rw [stripe_flip h (.inl hs), if_neg (by unfold Pending; omega),
      if_pos (by unfold Pending; omega), mix_top_right]
    simp
  by_cases he : 8 * k + j = start + 64
  · -- it ends here
    rw [stripe_flip h (.inr he), if_pos (by unfold Pending; omega),
      if_neg (by unfold Pending; omega), mix_top_right, mix_top_left, flip_twice]
    simp
  · have hp : Pending start (k + 1) j ↔ Pending start k j := by
      unfold Pending
      omega
    rw [stripe_eq h hs he]
    by_cases hpend : Pending start k j
    · rw [if_pos hpend, if_pos (hp.mpr hpend), mix_top_left]
    · rw [if_neg hpend, if_neg (hp.not.mpr hpend)]
      simp

theorem apart_before (h : Ladder start a b) (hk : k + 1 ≤ start / 8) {u v : Word} (huv : u = v) :
    mix u (stripe a (8 * k)) + a (8 * k + 7) = mix v (stripe b (8 * k)) + b (8 * k + 7) := by
  rw [huv, stripe_eq h (by omega) (by omega), h.outside (8 * k + 7) (by omega)]

/-- The block of the start: the first checkpoint, and the start itself when it is in lane 0. -/
theorem apart_start (h : Ladder start a b) (hk : k = start / 8) (u : Word) :
    LowDiff (lowestBit (start % 8) 1) (mix u (stripe a (8 * k)) + a (8 * k + 7))
      (mix u (stripe b (8 * k)) + b (8 * k + 7)) := by
  have hcp := h.checkpoint (c := 0) (by decide)
  rw [add_zero, ← hk] at hcp
  have hlow := flip_lowDiff (rungBit_lt (7 - start % 8 + 8 * 0)) (a (8 * k + 7))
  rw [← checkpointBit] at hlow
  rw [hcp, lowestBit, lowestBit]
  by_cases hs : 8 * k = start
  · rw [stripe_flip h (.inl hs), mix_top_right]
    refine (flip_lowDiff (by decide) _).add_min hlow ?_
    have hlane : start % 8 = 0 := by omega
    rw [hlane]
    decide
  · rw [stripe_eq h hs (by omega), min_eq_right]
    · exact LowDiff.add_low (.refl _ _) hlow
    · exact Nat.le_of_lt_succ (rungBit_lt _)

theorem apart_between (h : Ladder start a b) {c : ℕ} (hk : k = start / 8 + c) (h0 : 0 < c)
    (h8 : c < 8) {u v : Word} (huv : LowDiff (lowestBit (start % 8) c) u v) :
    LowDiff (lowestBit (start % 8) (c + 1)) (mix u (stripe a (8 * k)) + a (8 * k + 7))
      (mix v (stripe b (8 * k)) + b (8 * k + 7)) := by
  have hcp := h.checkpoint h8
  rw [← hk] at hcp
  rw [hcp, stripe_eq h (by omega) (by omega), lowestBit]
  exact (mix_lowDiff huv (.refl _ _)).add_min (flip_lowDiff (rungBit_lt _) _)
    (lowestBit_ne _ (Nat.mod_lt _ (by decide)) c h8 h0)

/-- The blocks after them: the end of the ladder, if it is in lane 0, flips a higher bit. -/
theorem apart_after (h : Ladder start a b) (hk : start / 8 + 8 ≤ k) {u v : Word}
    (huv : LowDiff (lowestBit (start % 8) 8) u v) :
    LowDiff (lowestBit (start % 8) 8) (mix u (stripe a (8 * k)) + a (8 * k + 7))
      (mix v (stripe b (8 * k)) + b (8 * k + 7)) := by
  have hlt := lowestBit_lt (start % 8) (Nat.mod_lt _ (by decide))
  rw [← h.outside (8 * k + 7) (by omega)]
  refine LowDiff.add (mix_lowDiff huv ?_) (.refl _ _)
  by_cases he : 8 * k = start + 64
  · rw [stripe_flip h (.inr he)]
    exact (flip_lowDiff (by decide) _).below.mono hlt
  · rw [stripe_eq h (by omega) he]
    exact .refl _ _

theorem apart_step (h : Ladder start a b) (hm : Holds m a (8 * (k + 1)))
    (hm' : Holds m' b (8 * (k + 1))) (hr : Apart start a b k x y) :
    Apart start a b (k + 1) (blockStep m (0 + 64 * k) x) (blockStep m' (0 + 64 * k) y) := by
  refine ⟨snd_blockStep hm, snd_blockStep hm', fun j hj => ?_, fun hk => ?_, fun hk => ?_⟩
  · rw [lane_blockStep hm hr.fst, lane_blockStep hm' hr.snd, if_neg hj, if_neg hj]
    simpa using apart_other h (hr.other j hj)
  · rw [lane_blockStep hm hr.fst, lane_blockStep hm' hr.snd]
    exact apart_before h hk (hr.before (by omega))
  · rw [lane_blockStep hm hr.fst, lane_blockStep hm' hr.snd]
    show LowDiff _ (mix _ (stripe a (8 * k)) + a (8 * k + 7))
      (mix _ (stripe b (8 * k)) + b (8 * k + 7))
    rcases Nat.lt_trichotomy k (start / 8) with hlt | heq | hgt
    · omega
    · have hone : min (k + 1 - start / 8) 8 = 1 := by omega
      rw [hone, hr.before heq.le]
      exact apart_start h heq _
    · have hlow := hr.after hgt
      by_cases h8 : k < start / 8 + 8
      · have hnow : min (k - start / 8) 8 = k - start / 8 := by omega
        have hnext : min (k + 1 - start / 8) 8 = k - start / 8 + 1 := by omega
        rw [hnow] at hlow
        rw [hnext]
        exact apart_between h (by omega) (by omega) (by omega) hlow
      · have hnow : min (k - start / 8) 8 = 8 := by omega
        have hnext : min (k + 1 - start / 8) 8 = 8 := by omega
        rw [hnow] at hlow
        rw [hnext]
        exact apart_after h (by omega) hlow

/-- **Any number of blocks.** -/
theorem apart_blocks (h : Ladder start a b) (hm : Holds m a (8 * k)) (hm' : Holds m' b (8 * k))
    (iv : Lanes8) : Apart start a b k (blocks m k 0 (iv, 0)) (blocks m' k 0 (iv, 0)) := by
  refine walk_rel (Apart start a b) k (fun i hi x y hr => ?_) ?_
  · exact apart_step h (fun i' hi' => hm i' (by omega)) (fun i' hi' => hm' i' (by omega)) hr
  · refine ⟨rfl, rfl, fun j _ => ?_, fun _ => rfl, fun hk => by omega⟩
    rw [if_neg (by unfold Pending; omega)]
    simp

end Hayahash.Spec.Orbit
