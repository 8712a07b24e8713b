import Hayahash.C.Mixers
import Hayahash.Spec.Observe
import Mathlib.Tactic.IntervalCases

/-! # What enters the lanes can be taken out again

`mix` is injective in the lane and in the value, `chain` in the stripe, and the tail words determine
the bytes of the tail (`tailValues_inj`). So the lanes and the last word after a block determine the
eight words of the block (`blockStep_words`), from the last word to lane 0 and then along the chain
of rotated copies, and blocks of the same words keep different lanes apart (`blocks_lanes`). -/

namespace Hayahash.Spec.Reversal

open Hayahash.Lib.ReadProg Hayahash.Lib.Bytes Hayahash.Lib.Bits Hayahash.Lib.Walk
open Hayahash.C.Primitives Hayahash.C.Mixers Hayahash.Spec.Reference Hayahash.Spec.Observe

variable {m m' : Mem Byte} {p q : ℤ}

/-! ### Entering a lane -/

theorem mix_lane_inj {h h' x : Word} (he : mix h x = mix h' x) : h = h' := (stripe_bijective x).1 he

theorem mix_value_inj {h x x' : Word} (he : mix h x = mix h x') : x = x' := by
  have hx : h ^^^ x = h ^^^ x' := (mul_bijective K_mul_inv).1 he
  rw [BitVec.xor_comm h, BitVec.xor_comm h] at hx
  exact (xor_bijective h).1 hx

theorem mixTail_lane_inj {h h' w : Word} (he : mixTail h w = mixTail h' w) : h = h' :=
  (tail_bijective (inj w)).1 he

theorem mixTail_word_inj {h w w' : Word} (he : mixTail h w = mixTail h w') : w = w' := by
  have hw : h + inj w = h + inj w' := (mul_bijective K_mul_inv).1 he
  rw [add_comm h, add_comm h] at hw
  exact inj_bijective.1 ((add_bijective h).1 hw)

/-- After the same stripe, a stripe value determines the stripe. -/
theorem chain_inj {w w' wp : Word} (h : chain w wp = chain w' wp) : w = w' :=
  (add_bijective (rotl wp 27)).1 h

/-- After different stripes, the same stripe has different values. -/
theorem chain_last_inj {w wp wp' : Word} (h : chain w wp = chain w wp') : wp = wp' := by
  unfold chain at h
  rw [add_comm w, add_comm w] at h
  exact rotl_inj (by decide) ((add_bijective w).1 h)

/-! ### The tail -/

/-- **The tail words determine what the loops leave.** -/
theorem tailValues_inj {p l : ℤ} (hl : l < 32) (h : tailValues m p l = tailValues m' p l) {i : ℤ}
    (h0 : p ≤ i) (hi : i < p + l) : m i = m' i := by
  have hpos : l > 0 := by omega
  unfold tailValues at h
  rw [if_pos hpos, if_pos hpos] at h
  have hlast : word64 m (p + l - 16) = word64 m' (p + l - 16) ∧
      word64 m (p + l - 8) = word64 m' (p + l - 8) := by
    have := (List.append_inj' h (by simp only [List.length_cons])).2
    simp only [List.cons.injEq, and_true] at this
    exact ⟨inj_bijective.1 this.1, inj_bijective.1 this.2⟩
  by_cases h8 : p + l - 8 ≤ i
  · exact word64_inj hlast.2 h8 (by omega)
  by_cases h16 : p + l - 16 ≤ i
  · exact word64_inj hlast.1 h16 (by omega)
  -- `i` is not in the last 16 bytes, so more than 16 are left
  have hgt : l > 16 := by omega
  rw [if_pos hgt, if_pos hgt] at h
  have hhead := (List.append_inj h (by simp only [List.length_cons])).1
  simp only [List.cons.injEq, and_true] at hhead
  by_cases hp : p + 8 ≤ i
  · exact word64_inj (inj_bijective.1 hhead.2) hp (by omega)
  · exact word64_inj (inj_bijective.1 hhead.1) h0 (by omega)

/-! ### Blocks -/

/-- **The state after a block determines its words.** -/
theorem blockStep_words {s : Lanes8 × Word} (h : blockStep m p s = blockStep m' q s) :
    ∀ c : ℕ, c < 8 → word64 m (p + 8 * c) = word64 m' (q + 8 * c) := by
  obtain ⟨hlanes, hlast⟩ := Prod.ext_iff.mp h
  simp only [blockStep, Lanes8.mk.injEq] at hlanes hlast
  obtain ⟨h0, h1, h2, h3, h4, h5, h6, -⟩ := hlanes
  -- the last word comes off lane 0, then each word off its lane
  rw [hlast] at h0
  have w0 := chain_inj (mix_value_inj ((add_bijective _).1 h0))
  have w1 : word64 m (p + 8) = word64 m' (q + 8) := by
    rw [w0] at h1
    exact chain_inj (mix_value_inj h1)
  have w2 : word64 m (p + 16) = word64 m' (q + 16) := by
    rw [w1] at h2
    exact chain_inj (mix_value_inj h2)
  have w3 : word64 m (p + 24) = word64 m' (q + 24) := by
    rw [w2] at h3
    exact chain_inj (mix_value_inj h3)
  have w4 : word64 m (p + 32) = word64 m' (q + 32) := by
    rw [w3] at h4
    exact chain_inj (mix_value_inj h4)
  have w5 : word64 m (p + 40) = word64 m' (q + 40) := by
    rw [w4] at h5
    exact chain_inj (mix_value_inj h5)
  have w6 : word64 m (p + 48) = word64 m' (q + 48) := by
    rw [w5] at h6
    exact chain_inj (mix_value_inj h6)
  intro c hc
  interval_cases c
  · simpa using w0
  · exact w1
  · exact w2
  · exact w3
  · exact w4
  · exact w5
  · exact w6
  · exact hlast

/-- **The lanes after a block determine the lanes before it.** -/
theorem blockStep_lanes {s s' : Lanes8 × Word} (hwp : s.2 = s'.2)
    (h : (blockStep m p s).1 = (blockStep m p s').1) : s.1 = s'.1 := by
  simp only [blockStep, Lanes8.mk.injEq, hwp] at h
  obtain ⟨h0, h1, h2, h3, h4, h5, h6, h7⟩ := h
  refine Lanes8.ext ?_ ?_ ?_ ?_ ?_ ?_ ?_ ?_
  · exact mix_lane_inj ((add_bijective _).1 h0)
  · exact mix_lane_inj h1
  · exact mix_lane_inj h2
  · exact mix_lane_inj h3
  · exact mix_lane_inj h4
  · exact mix_lane_inj h5
  · exact mix_lane_inj h6
  · exact mix_lane_inj h7

/-- **Any number of blocks** keep different lanes apart. -/
theorem blocks_lanes (k : ℕ) {s s' : Lanes8 × Word} (hwp : s.2 = s'.2) (hne : s.1 ≠ s'.1) :
    (blocks m k p s).2 = (blocks m k p s').2 ∧ (blocks m k p s).1 ≠ (blocks m k p s').1 := by
  refine walk_rel (fun _ (x y : Lanes8 × Word) => x.2 = y.2 ∧ x.1 ≠ y.1) k ?_ ⟨hwp, hne⟩
  rintro i - x y ⟨hlast, hlanes⟩
  exact ⟨rfl, fun he => hlanes (blockStep_lanes hlast he)⟩

end Hayahash.Spec.Reversal
