import Hayahash.Spec.Reference

/-! # The pieces of the reference on another memory

Each piece depends only on the bytes it reads, counted from where it starts: on a memory that holds
the same bytes elsewhere it does the same there. -/

namespace Hayahash.Spec.Shift

open Hayahash.Lib.ReadProg Hayahash.Lib.Bytes Hayahash.Lib.Walk Hayahash.C.Primitives
open Hayahash.Spec.Reference

variable {m m' : Mem Byte} {p q : ℤ}

/-- The `l` bytes of `m` from `p` on are those of `m'` from `q` on. -/
def Same (m : Mem Byte) (p : ℤ) (m' : Mem Byte) (q l : ℤ) : Prop :=
  ∀ i, 0 ≤ i → i < l → m (p + i) = m' (q + i)

theorem Same.word {l : ℤ} (h : Same m p m' q l) {i : ℤ} (h0 : 0 ≤ i) (hl : i + 8 ≤ l) :
    word64 m (p + i) = word64 m' (q + i) := by
  refine word64_shift fun j hj hj' => ?_
  rw [add_assoc, add_assoc]
  exact h _ (by omega) (by omega)

theorem Same.word_zero {l : ℤ} (h : Same m p m' q l) (hl : 8 ≤ l) :
    word64 m p = word64 m' q := by
  simpa using h.word (i := 0) le_rfl (by omega)

theorem Same.sub {l : ℤ} (h : Same m p m' q l) {c l' : ℤ} (hc : 0 ≤ c) (hl : c + l' ≤ l) :
    Same m (p + c) m' (q + c) l' := by
  intro i h0 hi
  rw [add_assoc, add_assoc]
  exact h _ (by omega) (by omega)

theorem blockStep_same (h : Same m p m' q 64) (s : Lanes8 × Word) :
    blockStep m p s = blockStep m' q s := by
  unfold blockStep
  rw [h.word_zero (by omega)]
  simp only [h.word (i := 8) (by omega) (by omega), h.word (i := 16) (by omega) (by omega),
    h.word (i := 24) (by omega) (by omega), h.word (i := 32) (by omega) (by omega),
    h.word (i := 40) (by omega) (by omega), h.word (i := 48) (by omega) (by omega),
    h.word (i := 56) (by omega) (by omega)]

theorem roundStep_same (h : Same m p m' q 32) (s : Lanes4 × Word) :
    roundStep m p s = roundStep m' q s := by
  unfold roundStep
  rw [h.word_zero (by omega)]
  simp only [h.word (i := 8) (by omega) (by omega), h.word (i := 16) (by omega) (by omega),
    h.word (i := 24) (by omega) (by omega)]

theorem blocks_same {k : ℕ} (h : Same m p m' q (64 * k)) (s : Lanes8 × Word) :
    blocks m k p s = blocks m' k q s :=
  walk_congr k s fun i hi x => blockStep_same (h.sub (by omega) (by omega)) x

theorem rounds_same {k : ℕ} (h : Same m p m' q (32 * k)) (s : Lanes4 × Word) :
    rounds m k p s = rounds m' k q s :=
  walk_congr k s fun i hi x => roundStep_same (h.sub (by omega) (by omega)) x

/-- The tail, which reads back as far as 16 bytes before the end. -/
theorem tailStep_same {l : ℤ} (h : Same m (p + l - 32) m' (q + l - 32) 32) (hl : l < 32)
    (s : Lanes4) : tailStep m p l s = tailStep m' q l s := by
  have hw : ∀ i, l - 32 ≤ i → i + 8 ≤ l → word64 m (p + i) = word64 m' (q + i) := by
    intro i h0 h1
    have hback : ∀ r : ℤ, r + l - 32 + (i + 32 - l) = r + i := fun r => by omega
    have hword := h.word (i := i + 32 - l) (by omega) (by omega)
    rwa [hback, hback] at hword
  have hhead : headStep m p l s = headStep m' q l s := by
    unfold headStep
    by_cases h16 : l > 16
    · have hw0 := hw 0 (by omega) (by omega)
      rw [add_zero, add_zero] at hw0
      rw [if_pos h16, if_pos h16, hw0, hw 8 (by omega) (by omega)]
    · rw [if_neg h16, if_neg h16]
  have hlast : ∀ s, lastStep m p l s = lastStep m' q l s := by
    intro s
    unfold lastStep
    by_cases h0 : l > 0
    · rw [if_pos h0, if_pos h0, add_sub_assoc, add_sub_assoc, add_sub_assoc, add_sub_assoc,
        hw (l - 16) (by omega) (by omega), hw (l - 8) (by omega) (by omega)]
    · rw [if_neg h0, if_neg h0]
  rw [tailStep, tailStep, hhead, hlast]

end Hayahash.Spec.Shift
