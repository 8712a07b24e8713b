import Hayahash.Spec.Edit
import Hayahash.Spec.Finals
import Hayahash.Spec.Spans

/-! # Windows of the tail

A window of eight bytes behind the loops is *lone* if exactly one load of a run touches it, the load
of the window itself. It then enters one lane and no other (`Lone.lane`), and this lane is alone in
its fold, so that a difference in the window is a difference in each of the two words
(`Lone.differ`). -/

namespace Hayahash.Spec.Window

open Hayahash.Lib.ReadProg Hayahash.Lib.Bytes Hayahash.Lib.Bits Hayahash.C.Primitives
  Hayahash.C.Mixers
open Hayahash.C.Walk Hayahash.C.Oneshot Hayahash.Spec.Reference Hayahash.Spec.Shift
  Hayahash.Spec.Spans Hayahash.Spec.Edit
open Hayahash.Spec.Reversal Hayahash.Spec.Finals

variable {m m' : Mem Byte} {n q : ℕ}

/-! ### Lone windows -/

/-- The load of `s` touches the window from `q` on. -/
def Touches (q : ℕ) (s : Span) : Prop := s.off < q + 8 ∧ q < s.off + s.len

instance (q : ℕ) (s : Span) : Decidable (Touches q s) := inferInstanceAs (Decidable (_ ∧ _))

/-- The loads of a run that touch the window. -/
def touching (n q : ℕ) : List Span := (spans n).filter fun s => Touches q s

/-- **A lone window** of a key of `n` bytes. -/
structure Lone (n q : ℕ) : Prop where
  long : 16 < n
  behind : 32 * (n / 32) ≤ q
  only : touching n q = [⟨q, 8⟩]

/-- Behind the loops only the tail is of interest. -/
theorem touching_eq (h17 : 16 < n) (hq : 32 * (n / 32) ≤ q) :
    touching n q = (tailSpans (32 * (n / 32) : ℕ) (n % 32 : ℕ)).filter fun s => Touches q s := by
  have hloop : (stripeSpans (4 * (n / 32)) 0).filter (fun s => Touches q s) = [] := by
    rw [List.filter_eq_nil_iff]
    intro s hs
    obtain ⟨j, hj, rfl⟩ := mem_stripeSpans.mp hs
    rw [decide_eq_true_iff]
    rintro ⟨-, hlt⟩
    push_cast at hlt
    omega
  rw [touching, spans, if_neg (by omega), List.filter_append, hloop, List.nil_append]

/-- The load of lane `L`. -/
def tailSpan (p l : ℤ) (L : Fin 4) : Span := ⟨tailPos p l L, 8⟩

theorem tailSpans_lanes (p l : ℤ) :
    tailSpans p l = ((List.finRange 4).filter fun L => Takes l L).map (tailSpan p l) := by
  have hlanes : List.finRange 4 = [0, 1, 2, 3] := rfl
  rw [hlanes]
  unfold tailSpans Takes
  by_cases h16 : l > 16
  · have h0 : l > 0 := by omega
    simp [h16, h0, tailSpan, tailPos]
  · by_cases h0 : l > 0 <;> simp [h16, h0, tailSpan, tailPos]

/-- **A lone window is the word of one lane**, and the words of the others do not touch it. -/
theorem Lone.lane (h : Lone n q) : ∃ L, Takes (n % 32 : ℕ) L ∧
    tailPos (32 * (n / 32) : ℕ) (n % 32 : ℕ) L = q ∧ ∀ L' ≠ L, Takes (n % 32 : ℕ) L' →
      ¬Touches q (tailSpan (32 * (n / 32) : ℕ) (n % 32 : ℕ) L') := by
  have honly := h.only
  rw [touching_eq h.long h.behind, tailSpans_lanes, List.filter_map,
    List.map_eq_singleton_iff] at honly
  obtain ⟨L, hlanes, hL⟩ := honly
  have hmem : ∀ L', L' = L ↔ Takes (n % 32 : ℕ) L' ∧
      Touches q (tailSpan (32 * (n / 32) : ℕ) (n % 32 : ℕ) L') := by
    intro L'
    rw [← List.mem_singleton, ← hlanes]
    simp [List.mem_finRange, and_comm]
  refine ⟨L, ((hmem L).mp rfl).1, congrArg Span.off hL, fun L' hne htakes htouches => ?_⟩
  exact hne ((hmem L').mpr ⟨htakes, htouches⟩)

/-- **The last eight bytes are a lone window** of many keys. -/
theorem lone_last (h17 : 16 < n) (hr : 8 ≤ n % 32 ∧ n % 32 ≤ 16 ∨ 24 ≤ n % 32) :
    Lone n (n - 8) where
  long := h17
  behind := by omega
  only := by
    have hsum : ((32 * (n / 32) : ℕ) : ℤ) + (n % 32 : ℕ) - 8 = (n - 8 : ℕ) := by omega
    have hl : 8 ≤ ((n % 32 : ℕ) : ℤ) ∧ ((n % 32 : ℕ) : ℤ) ≤ 16 ∨ 24 ≤ ((n % 32 : ℕ) : ℤ) := by omega
    rw [touching_eq h17 (by omega)]
    generalize ((32 * (n / 32) : ℕ) : ℤ) = p at hsum ⊢
    generalize ((n % 32 : ℕ) : ℤ) = l at hsum hl ⊢
    generalize n - 8 = q at hsum ⊢
    have hlast : Touches q ⟨q, 8⟩ := ⟨by dsimp only; omega, by dsimp only; omega⟩
    have hother : ∀ i : ℤ, i + 8 ≤ q → ¬Touches q ⟨i, 8⟩ := by
      rintro i hi ⟨-, hlt⟩
      dsimp only at hlt
      omega
    have h0 : l > 0 := by omega
    unfold tailSpans
    rw [if_pos h0, hsum]
    split_ifs with h16
    · simp [hlast, hother p (by omega), hother (p + 8) (by omega),
        hother (p + l - 16) (by omega)]
    · simp [hlast, hother (p + l - 16) (by omega)]

/-! ### Lanes -/

/-- Before the wall nothing behind the loops is seen. -/
theorem walkState_same (h : Same m 0 m' 0 (32 * (n / 32) : ℕ)) (s : Word) :
    walkState m n s = walkState m' n s := by
  unfold walkState
  split_ifs with hn
  · exact rounds_same h _
  · have hbulk : bulkState m n s = bulkState m' n s :=
      blocks_same (fun i h0 hi => h i h0 (by push_cast at hi ⊢; omega)) _
    rw [hbulk]
    refine rounds_same (fun i h0 hi => ?_) _
    have hat := h ((64 * (n / 64) : ℕ) + i) (by omega) (by push_cast at hi ⊢; omega)
    simpa using hat

/-- **One lane differs**, and no other. -/
theorem Lone.lanes (h : Lone n q) (he : Edited m m' q (q + 8)) (s : Word) : ∃ L,
    lane4 (foldLanes m n s) L ≠ lane4 (foldLanes m' n s) L ∧
      ∀ L' ≠ L, lane4 (foldLanes m n s) L' = lane4 (foldLanes m' n s) L' := by
  obtain ⟨L, htakes, hpos, hother⟩ := h.lane
  have hbehind : ((32 * (n / 32) : ℕ) : ℤ) ≤ q := by exact_mod_cast h.behind
  have hwalk : walkState m n s = walkState m' n s := walkState_same (he.same (.inl (by omega))) s
  unfold foldLanes
  rw [hwalk]
  refine ⟨L, ?_, fun L' hne => ?_⟩
  · rw [lane4_tailStep, lane4_tailStep, if_pos htakes, if_pos htakes, hpos]
    intro heq
    obtain ⟨i, hi⟩ := he.somewhere
    obtain ⟨hlo, hhi⟩ := he.within i hi
    exact hi (word64_inj (mixTail_word_inj heq) hlo hhi)
  · rw [lane4_tailStep, lane4_tailStep]
    by_cases htakes' : Takes (n % 32 : ℕ) L'
    · have hout := hother L' hne htakes'
      unfold Touches tailSpan at hout
      rw [he.word (by dsimp only at hout; push_cast at hout ⊢; omega)]
    · rw [if_neg htakes', if_neg htakes']

/-! ### Words -/

/-- **A lane is alone in its fold.** -/
theorem folds_differ {h h' : Lanes4} {L : Fin 4} (hne : lane4 h L ≠ lane4 h' L)
    (heq : ∀ L' ≠ L, lane4 h L' = lane4 h' L') (lm : Word) :
    foldT0 h lm ≠ foldT0 h' lm ∧ foldT1 h = foldT1 h' ∨
      foldT0 h lm = foldT0 h' lm ∧ foldT1 h ≠ foldT1 h' := by
  have hmul : Function.Injective fun x : Word => x * K := (mul_bijective K_mul_inv).1
  obtain ⟨h0, h1, h2, h3⟩ := h
  obtain ⟨h0', h1', h2', h3'⟩ := h'
  fin_cases L
  · obtain rfl : h1 = h1' := heq 1 (by decide)
    obtain rfl : h2 = h2' := heq 2 (by decide)
    obtain rfl : h3 = h3' := heq 3 (by decide)
    refine .inl ⟨fun ht => hne ?_, rfl⟩
    have hx := hmul ht
    rw [BitVec.xor_assoc, BitVec.xor_assoc] at hx
    exact (xor_bijective _).1 hx
  · obtain rfl : h0 = h0' := heq 0 (by decide)
    obtain rfl : h2 = h2' := heq 2 (by decide)
    obtain rfl : h3 = h3' := heq 3 (by decide)
    refine .inl ⟨fun ht => hne ?_, rfl⟩
    have hx : rotl h1 13 = rotl h1' 13 := (xor_bijective_mid h0 lm).1 (hmul ht)
    exact rotl_inj (by decide) hx
  · obtain rfl : h0 = h0' := heq 0 (by decide)
    obtain rfl : h1 = h1' := heq 1 (by decide)
    obtain rfl : h3 = h3' := heq 3 (by decide)
    exact .inr ⟨rfl, fun ht => hne ((xor_bijective _).1 (hmul ht))⟩
  · obtain rfl : h0 = h0' := heq 0 (by decide)
    obtain rfl : h1 = h1' := heq 1 (by decide)
    obtain rfl : h2 = h2' := heq 2 (by decide)
    refine .inr ⟨rfl, fun ht => hne ?_⟩
    have hx : h2 ^^^ rotl h3 33 = h2 ^^^ rotl h3' 33 := hmul ht
    rw [BitVec.xor_right_inj] at hx
    exact rotl_inj (by decide) hx

/-- **A difference in a lone window** is one in each of the two words. -/
theorem Lone.differ (h : Lone n q) (he : Edited m m' q (q + 8)) (seed : Word) :
    (compact128 m n seed).lo ≠ (compact128 m' n seed).lo ∧
      (compact128 m n seed).hi ≠ (compact128 m' n seed).hi := by
  obtain ⟨L, hne, heq⟩ := h.lanes he (seed ^^^ K)
  rw [compact128_long m h.long, compact128_long m' h.long]
  rcases folds_differ hne heq (lenmix n) with ⟨ht0, ht1⟩ | ⟨ht0, ht1⟩
  · rw [ht1]
    exact ⟨fun hlo => ht0 (longmix_t0 (.inl hlo)), fun hhi => ht0 (longmix_t0 (.inr hhi))⟩
  · rw [ht0]
    exact ⟨fun hlo => ht1 (longmix_t1 (.inl hlo)), fun hhi => ht1 (longmix_t1 (.inr hhi))⟩

end Hayahash.Spec.Window
