import Hayahash.Refine.Oneshot
import Hayahash.Spec.Finals
import Hayahash.Spec.Orbit

/-! # Rotation ladders do not collide

**`orbit_differs`**: two strings of words that differ by one full orbit of the rotation, with all
the carries cancelling, have different hashes in all three words. After the bulk loop only lane 0
differs, by the checkpoints; so after the folds only `t0` does. -/

namespace Hayahash.Main.Orbit

open Hayahash.Lib.ReadProg Hayahash.Lib.Bytes Hayahash.Lib.Bits Hayahash.C.Primitives
open Hayahash.C.Mixers Hayahash.C.Walk Hayahash.C.Oneshot Hayahash.Spec.Reference
open Hayahash.Spec.Finals Hayahash.Spec.Orbit Hayahash.Refine.Oneshot

variable {start W : ℕ} {a b : ℕ → Word} {m m' : Mem Byte}

/-! ### Whole blocks only -/

theorem foldLanes_blocks (hW : 40 ≤ W) (h8 : W % 8 = 0) (s : Word) :
    foldLanes m (8 * W) s = wallStep (foldUpper (bulkState m (8 * W) s).1,
      (bulkState m (8 * W) s).2) := by
  have hwalk : walkState m (8 * W) s = (foldUpper (bulkState m (8 * W) s).1,
      (bulkState m (8 * W) s).2) := by
    have hrounds : 8 * W % 64 / 32 = 0 := by omega
    rw [walkState, if_neg (by omega), hrounds]
    rfl
  have htail : 8 * W % 32 = 0 := by omega
  rw [foldLanes, hwalk, htail]
  rfl

/-- **At the end of a ladder only lane 0 differs.** -/
theorem bulkState_apart (h : Ladder start a b) (hW : start + 65 ≤ W) (h8 : W % 8 = 0)
    (hm : Holds m a W) (hm' : Holds m' b W) (s : Word) :
    (bulkState m (8 * W) s).1.h0 ≠ (bulkState m' (8 * W) s).1.h0 ∧
      (∀ j : Fin 8, j ≠ 0 → lane (bulkState m' (8 * W) s).1 j = lane (bulkState m (8 * W) s).1 j) ∧
      (bulkState m (8 * W) s).2 = (bulkState m' (8 * W) s).2 := by
  have hk : 8 * W / 64 = W / 8 := by omega
  have hW8 : 8 * (W / 8) = W := by omega
  have hap : Apart start a b (W / 8) (bulkState m (8 * W) s) (bulkState m' (8 * W) s) := by
    rw [bulkState, bulkState, hk]
    exact apart_blocks h (by rwa [hW8]) (by rwa [hW8]) _
  refine ⟨(hap.after (by omega)).ne, fun j hj => ?_, ?_⟩
  · have hlane := hap.other j hj
    rw [if_neg (by unfold Pending; omega)] at hlane
    simpa using hlane
  · obtain ⟨w, rfl⟩ : ∃ w, W = w + 1 := ⟨W - 1, by omega⟩
    rw [hap.fst, hap.snd, hW8]
    exact h.outside w (by omega)

/-- **At the folds only `h0` differs.** -/
theorem foldLanes_apart (h : Ladder start a b) (hW : start + 65 ≤ W) (h8 : W % 8 = 0)
    (hm : Holds m a W) (hm' : Holds m' b W) (s : Word) :
    (foldLanes m (8 * W) s).h0 ≠ (foldLanes m' (8 * W) s).h0 ∧
      (foldLanes m (8 * W) s).h1 = (foldLanes m' (8 * W) s).h1 ∧
      (foldLanes m (8 * W) s).h2 = (foldLanes m' (8 * W) s).h2 ∧
      (foldLanes m (8 * W) s).h3 = (foldLanes m' (8 * W) s).h3 := by
  obtain ⟨h0, hj, hwp⟩ := bulkState_apart h hW h8 hm hm' s
  have h1 : (bulkState m' (8 * W) s).1.h1 = (bulkState m (8 * W) s).1.h1 := hj 1 (by decide)
  have h2 : (bulkState m' (8 * W) s).1.h2 = (bulkState m (8 * W) s).1.h2 := hj 2 (by decide)
  have h3 : (bulkState m' (8 * W) s).1.h3 = (bulkState m (8 * W) s).1.h3 := hj 3 (by decide)
  have h4 : (bulkState m' (8 * W) s).1.h4 = (bulkState m (8 * W) s).1.h4 := hj 4 (by decide)
  have h5 : (bulkState m' (8 * W) s).1.h5 = (bulkState m (8 * W) s).1.h5 := hj 5 (by decide)
  have h6 : (bulkState m' (8 * W) s).1.h6 = (bulkState m (8 * W) s).1.h6 := hj 6 (by decide)
  have h7 : (bulkState m' (8 * W) s).1.h7 = (bulkState m (8 * W) s).1.h7 := hj 7 (by decide)
  rw [foldLanes_blocks (by omega) h8, foldLanes_blocks (by omega) h8]
  simp only [wallStep, foldUpper, h1, h2, h3, h4, h5, h6, h7, hwp, and_self, and_true]
  intro he
  exact h0 ((stripe_bijective _).1 ((add_bijective _).1 he))

/-! ### Main result -/

/-- **Rotation ladders never collide**: for every seed, every start and every two strings of words
`a` and `b` of one length, a multiple of 8 that leaves a word after the ladder, with `b` equal to
`a` outside the ladder, its top bit flipped at the start, and then at each `i` the bit `pos`, which
`a` has opposite to the rotated copy of the word before. -/
theorem orbit_differs (t : Target) (seed : Word) (start : ℕ) (a b : List Word)
    (h8 : a.length % 8 = 0) (hlen : b.length = a.length) (hW : start + 65 ≤ a.length)
    (hout : ∀ i < a.length, i < start ∨ start + 63 < i → a.getD i 0 = b.getD i 0)
    (hfirst : b.getD start 0 = a.getD start 0 ^^^ BitVec.twoPow 64 63)
    (hrung : ∀ i, start < i → i ≤ start + 63 →
      let pos := (63 + 27 * (i - start)) % 64
      b.getD i 0 = a.getD i 0 ^^^ BitVec.twoPow 64 pos ∧
        (a.getD i 0).getLsbD pos = !(rotl (a.getD (i - 1) 0) 27).getLsbD pos) :
    AllDiffer t seed (ofList (store64 a)) (8 * a.length) (ofList (store64 b)) (8 * b.length) := by
  have hab : Ladder start (a.getD · 0) (b.getD · 0) := by
    refine ⟨fun i hi => ?_, hfirst, fun d h0 hd => ?_⟩
    · by_cases hlt : i < a.length
      · exact hout i hlt hi
      · rw [List.getD_eq_default _ _ (by omega), List.getD_eq_default _ _ (by omega)]
    · have := hrung (start + d) (by omega) (by omega)
      rwa [Nat.add_sub_cancel_left] at this
  obtain ⟨h0, h1, h2, h3⟩ := foldLanes_apart hab hW h8
    (fun i hi => word64_store64 a i hi) (fun i hi => word64_store64 b i (by omega)) (seed ^^^ K)
  have ht0 : foldT0 (foldLanes (ofList (store64 a)) (8 * a.length) (seed ^^^ K))
      (lenmix (8 * a.length : ℕ)) ≠
        foldT0 (foldLanes (ofList (store64 b)) (8 * a.length) (seed ^^^ K))
          (lenmix (8 * a.length : ℕ)) := by
    intro he
    rw [foldT0, foldT0, h1] at he
    exact h0 ((xor_bijective _).1 ((xor_bijective _).1 ((mul_bijective K_mul_inv).1 he)))
  have ht1 : foldT1 (foldLanes (ofList (store64 a)) (8 * a.length) (seed ^^^ K)) =
      foldT1 (foldLanes (ofList (store64 b)) (8 * a.length) (seed ^^^ K)) := by
    rw [foldT1, foldT1, h2, h3]
  rw [hlen]
  refine allDiffer_of_compact ?_ ?_
  · rw [compact128_long _ (by omega), compact128_long _ (by omega), ht1]
    intro h
    exact ht0 (longmix_t0 (.inl h))
  · rw [compact128_long _ (by omega), compact128_long _ (by omega), ht1]
    intro h
    exact ht0 (longmix_t0 (.inr h))

/-- A ladder of single bits from word 5 on: every other word is flipped on, the rest off. -/
def singleBits (parity : ℕ) : List Word :=
  (List.range 72).map fun i =>
    if 5 ≤ i ∧ i < 69 ∧ (i - 5) % 2 = parity then BitVec.twoPow 64 (rungBit (i - 5)) else 0

theorem orbit_differs_singleBits :
    AllDiffer ⟨.aarch64, .clang, false, .little, .w64⟩ 7 (ofList (store64 (singleBits 1))) (8 * 72)
      (ofList (store64 (singleBits 0))) (8 * 72) := by
  have hrung : ∀ i < 69, 5 < i →
      (singleBits 0).getD i 0 = (singleBits 1).getD i 0 ^^^
        BitVec.twoPow 64 ((63 + 27 * (i - 5)) % 64) ∧
      ((singleBits 1).getD i 0).getLsbD ((63 + 27 * (i - 5)) % 64) =
        !(rotl ((singleBits 1).getD (i - 1) 0) 27).getLsbD ((63 + 27 * (i - 5)) % 64) := by
    decide
  exact orbit_differs _ 7 5 (singleBits 1) (singleBits 0) (by decide) (by decide) (by decide)
    (by decide) (by decide) fun i h h' => hrung i (by omega) h

end Hayahash.Main.Orbit
