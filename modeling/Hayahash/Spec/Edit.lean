import Hayahash.Spec.Observe
import Hayahash.Spec.Orbit
import Hayahash.Spec.Reversal
import Hayahash.Spec.Shift

/-! # One edited stripe

Two memories that differ in one stripe differ in two absorbed values, the one of the stripe itself
(`stripe_raw`) and that of the stripe after it, which takes in the rotated copy (`stripe_copy`). The
two enter different lanes, so there is a lane that takes in exactly one of them and, after it, the
same values on both sides. In the rounds it is the lane of the copy (`rounds_differ`): the wall is
that lane's share of the last stripe, and the tail words that overlap the loops enter other lanes.
In the blocks it is a lane without a checkpoint (`blocks_differ`). What is edited behind the loops
is in a tail word (`tail_differs`). -/

namespace Hayahash.Spec.Edit

open Hayahash.Lib.ReadProg Hayahash.Lib.Bytes Hayahash.Lib.Bits Hayahash.Lib.Walk
open Hayahash.C.Primitives Hayahash.C.Mixers Hayahash.C.Walk Hayahash.Spec.Reference
open Hayahash.Spec.Shift Hayahash.Spec.Stripes Hayahash.Spec.Observe Hayahash.Spec.Orbit
open Hayahash.Spec.Reversal

variable {m m' : Mem Byte} {lo hi p l : ℤ} {J k n : ℕ}

/-! ### Edits -/

/-- The memories differ between `lo` and `hi`, and nowhere else. -/
structure Edited (m m' : Mem Byte) (lo hi : ℤ) : Prop where
  within : ∀ i, m i ≠ m' i → lo ≤ i ∧ i < hi
  somewhere : ∃ i, m i ≠ m' i

theorem Edited.same (h : Edited m m' lo hi) {len : ℤ} (hp : p + len ≤ lo ∨ hi ≤ p) :
    Same m p m' p len := by
  intro i h0 hi
  by_contra hne
  have := h.within _ hne
  omega

theorem Edited.word (h : Edited m m' lo hi) (hp : p + 8 ≤ lo ∨ hi ≤ p) :
    word64 m p = word64 m' p := (h.same hp).word_zero le_rfl

/-- The words of a memory. -/
def words (m : Mem Byte) (i : ℕ) : Word := word64 m (8 * (i : ℕ))

theorem holds_words (m : Mem Byte) (n : ℕ) : Holds m (words m) n := fun _ _ => rfl

theorem lastWord_eq_prev (m : Mem Byte) : ∀ j, lastWord m 0 0 j = prev (words m) j
  | 0 => rfl
  | j + 1 => by
    rw [lastWord, zero_add]
    rfl

/-- **The stripe `J` is edited.** -/
abbrev EditedAt (m m' : Mem Byte) (J : ℕ) : Prop := Edited m m' (8 * (J : ℕ)) (8 * (J : ℕ) + 8)

theorem EditedAt.here (h : EditedAt m m' J) : words m J ≠ words m' J := by
  obtain ⟨i, hne⟩ := h.somewhere
  obtain ⟨hlo, hhi⟩ := h.within i hne
  exact fun he => hne (word64_inj he hlo hhi)

theorem EditedAt.elsewhere (h : EditedAt m m' J) {j : ℕ} (hj : j ≠ J) : words m j = words m' j :=
  h.word (by omega)

theorem EditedAt.prev_eq (h : EditedAt m m' J) : ∀ {j : ℕ}, j ≠ J + 1 →
    prev (words m) j = prev (words m') j
  | 0, _ => rfl
  | j + 1, hj => h.elsewhere (by omega)

theorem stripe_raw (h : EditedAt m m' J) : stripe (words m) J ≠ stripe (words m') J := by
  rw [stripe, stripe, h.prev_eq (by omega)]
  exact fun he => h.here (chain_inj he)

/-- **Its rotated copy**, in the stripe after it. -/
theorem stripe_copy (h : EditedAt m m' J) :
    stripe (words m) (J + 1) ≠ stripe (words m') (J + 1) := by
  rw [stripe, stripe, h.elsewhere (by omega)]
  exact fun he => h.here (chain_last_inj he)

theorem stripe_other (h : EditedAt m m' J) {j : ℕ} (hJ : j ≠ J) (hJ' : j ≠ J + 1) :
    stripe (words m) j = stripe (words m') j := by
  rw [stripe, stripe, h.elsewhere hJ, h.prev_eq hJ']

/-! ### Rounds -/

/-- Lane `L` of four. -/
def lane4 (h : Lanes4) : Fin 4 → Word
  | 0 => h.h0
  | 1 => h.h1
  | 2 => h.h2
  | 3 => h.h3

theorem lane4_rounds (m : Mem Byte) (iv : Lanes4) (L : Fin 4) (k : ℕ) :
    lane4 (rounds m (k + 1) 0 (iv, 0)).1 L =
      mix (lane4 (rounds m k 0 (iv, 0)).1 L) (stripe (words m) (4 * k + L)) := by
  have hlast : (rounds m k 0 (iv, 0)).2 = prev (words m) (4 * k) := by
    rw [rounds_snd, lastWord_eq_prev]
  have hw : ∀ (c : ℕ) (q : ℤ), q = 0 + 32 * (k : ℤ) + 8 * c → word64 m q = words m (4 * k + c) :=
    fun c q hq => by
      rw [words, hq]
      congr 1
      push_cast
      omega
  have hprev : ∀ c, prev (words m) (4 * k + (c + 1)) = words m (4 * k + c) := fun _ => rfl
  rw [rounds, walk_last, ← rounds]
  simp only [roundStep, hlast, hw 0 (0 + 32 * k) (by simp), hw 1 (0 + 32 * k + 8) (by simp),
    hw 2 (0 + 32 * k + 16) (by simp), hw 3 (0 + 32 * k + 24) (by simp)]
  unfold stripe
  fin_cases L
  · simp [lane4]
  · simp [lane4, hprev 0]
  · simp [lane4, hprev 1]
  · simp [lane4, hprev 2]

/-- The lane of the rotated copy of stripe `J`. -/
def copyLane (J : ℕ) : Fin 4 := ⟨(J + 1) % 4, Nat.mod_lt _ (by decide)⟩

/-- The lane takes in none of the two values before the round of the copy. -/
theorem rounds_agree (h : EditedAt m m' J) (iv : Lanes4) (hk : 4 * k ≤ J + 1) :
    lane4 (rounds m k 0 (iv, 0)).1 (copyLane J) = lane4 (rounds m' k 0 (iv, 0)).1 (copyLane J) := by
  refine seq_agrees mix (fun k => lane4 (rounds m k 0 (iv, 0)).1 (copyLane J))
    (fun k => lane4 (rounds m' k 0 (iv, 0)).1 (copyLane J))
    (lane4_rounds m iv _) (lane4_rounds m' iv _) (by simp only [rounds_zero]) fun i hi => ?_
  have hL : ((copyLane J : Fin 4) : ℕ) = (J + 1) % 4 := rfl
  exact stripe_other h (by omega) (by omega)

/-- **The copy is never lost in the rounds.** -/
theorem rounds_differ (h : EditedAt m m' J) (iv : Lanes4) (hk : J + 1 < 4 * k) :
    lane4 (rounds m k 0 (iv, 0)).1 (copyLane J) ≠ lane4 (rounds m' k 0 (iv, 0)).1 (copyLane J) := by
  have hL : ((copyLane J : Fin 4) : ℕ) = (J + 1) % 4 := rfl
  have hpos : 4 * ((J + 1) / 4) + (copyLane J : ℕ) = J + 1 := by omega
  refine seq_differs mix (fun k => lane4 (rounds m k 0 (iv, 0)).1 (copyLane J))
    (fun k => lane4 (rounds m' k 0 (iv, 0)).1 (copyLane J))
    (lane4_rounds m iv _) (lane4_rounds m' iv _) (by simp only [rounds_zero])
    mix_lane_inj mix_value_inj (i := (J + 1) / 4) (by omega) ?_ fun j hj hne => ?_
  · rw [hpos]
    exact stripe_copy h
  · exact stripe_other h (by omega) (by omega)

theorem lane4_wallStep (s : Lanes4 × Word) (L : Fin 4) :
    lane4 (wallStep s) L = lane4 s.1 L + if L = 0 then rotl s.2 27 else 0 := by
  fin_cases L <;> simp [lane4, wallStep]

/-- **After the wall**, which is the copy of the last stripe, the lanes of the copy differ. -/
theorem wall_differs (h : EditedAt m m' J) (iv : Lanes4) (hJ : J < 4 * k) :
    lane4 (wallStep (rounds m k 0 (iv, 0))) (copyLane J) ≠
      lane4 (wallStep (rounds m' k 0 (iv, 0))) (copyLane J) := by
  have hlast : ∀ m : Mem Byte, (rounds m k 0 (iv, 0)).2 = prev (words m) (4 * k) := fun m => by
    rw [rounds_snd, lastWord_eq_prev]
  rw [lane4_wallStep, lane4_wallStep, hlast, hlast]
  rcases Nat.lt_or_ge (J + 1) (4 * k) with hlt | hge
  · rw [h.prev_eq (by omega)]
    exact fun he => rounds_differ h iv hlt ((add_bijective _).1 he)
  · -- the edited stripe is the last one
    have hend : 4 * k = J + 1 := by omega
    have hL : copyLane J = 0 := Fin.ext (by show (J + 1) % 4 = 0; omega)
    have hsame := rounds_agree h iv (k := k) (by omega)
    rw [hL] at hsame ⊢
    rw [hsame, if_pos rfl, hend, prev, prev, add_comm, add_comm (lane4 _ 0)]
    exact fun he => h.here (rotl_inj (by decide) ((add_bijective _).1 he))

/-! ### The tail -/

/-- Where the tail word of lane `L` is. -/
def tailPos (p l : ℤ) : Fin 4 → ℤ
  | 0 => p
  | 1 => p + 8
  | 2 => p + l - 16
  | 3 => p + l - 8

/-- Lane `L` takes in a tail word. -/
def Takes (l : ℤ) (L : Fin 4) : Prop := if L < 2 then l > 16 else l > 0

instance (l : ℤ) (L : Fin 4) : Decidable (Takes l L) := inferInstanceAs (Decidable (ite _ _ _))

theorem lane4_tailStep (h : Lanes4) (L : Fin 4) : lane4 (tailStep m p l h) L =
    if Takes l L then mixTail (lane4 h L) (word64 m (tailPos p l L)) else lane4 h L := by
  unfold tailStep headStep lastStep Takes
  by_cases h16 : l > 16
  · have h0 : l > 0 := by omega
    fin_cases L <;> simp [lane4, tailPos, h16, h0]
  · by_cases h0 : l > 0
    · fin_cases L <;> simp [lane4, tailPos, h16, h0]
    · fin_cases L <;> simp [lane4, h16, h0]

theorem tail_keeps {h h' : Lanes4} {L : Fin 4} (hne : lane4 h L ≠ lane4 h' L)
    (hw : Takes l L → word64 m (tailPos p l L) = word64 m' (tailPos p l L)) :
    lane4 (tailStep m p l h) L ≠ lane4 (tailStep m' p l h') L := by
  rw [lane4_tailStep, lane4_tailStep]
  by_cases ht : Takes l L
  · rw [if_pos ht, if_pos ht, hw ht]
    exact fun he => hne (mixTail_lane_inj he)
  · rw [if_neg ht, if_neg ht]
    exact hne

/-- **The tail words that overlap the loops** do not enter the lane of the copy. -/
theorem tail_misses (h : EditedAt m m' J) (hJ : J < 4 * k) (hl : l > 0) :
    word64 m (tailPos (32 * k : ℕ) l (copyLane J)) =
      word64 m' (tailPos (32 * k : ℕ) l (copyLane J)) := by
  refine h.word (.inr ?_)
  have hL : ((copyLane J : Fin 4) : ℕ) = (J + 1) % 4 := rfl
  generalize copyLane J = L at hL
  fin_cases L <;> simp [tailPos] at hL ⊢ <;> omega

/-- **The tail takes in every byte behind the loops.** -/
theorem tail_differs (h : Edited m m' p (p + l)) (hl : l < 32) (x : Lanes4) :
    tailStep m p l x ≠ tailStep m' p l x := by
  intro he
  obtain ⟨i, hne⟩ := h.somewhere
  obtain ⟨hlo, hhi⟩ := h.within i hne
  have hw : ∀ L, Takes l L → word64 m (tailPos p l L) = word64 m' (tailPos p l L) := by
    intro L ht
    have hlane := congrArg (lane4 · L) he
    simp only [lane4_tailStep, if_pos ht] at hlane
    exact mixTail_word_inj hlane
  refine hne (tailValues_inj hl ?_ hlo hhi)
  unfold tailValues
  congr 1
  · by_cases h16 : l > 16
    · rw [if_pos h16, if_pos h16]
      exact congrArg₂ _ (congrArg inj (hw 0 h16)) (congrArg₂ _ (congrArg inj (hw 1 h16)) rfl)
    · rw [if_neg h16, if_neg h16]
  · by_cases h0 : l > 0
    · rw [if_pos h0, if_pos h0]
      exact congrArg₂ _ (congrArg inj (hw 2 h0)) (congrArg₂ _ (congrArg inj (hw 3 h0)) rfl)
    · rw [if_neg h0, if_neg h0]

/-! ### Keys below 320 bytes -/

theorem foldLanes_mid (hn : n < 320) (s : Word) : foldLanes m n s =
    tailStep m (32 * (n / 32) : ℕ) (n % 32 : ℕ) (wallStep (rounds m (n / 32) 0 (iv4 s, 0))) := by
  rw [foldLanes, walkState, if_pos hn]

/-- **An edited stripe of the loop.** -/
theorem foldLanes_stripe (h : EditedAt m m' J) (hn : n < 320) (hJ : J < 4 * (n / 32)) (s : Word) :
    foldLanes m n s ≠ foldLanes m' n s := by
  rw [foldLanes_mid hn, foldLanes_mid hn]
  intro he
  refine tail_keeps (wall_differs h (iv4 s) hJ) (fun ht => tail_misses h hJ ?_)
    (congrArg (lane4 · (copyLane J)) he)
  unfold Takes at ht
  split_ifs at ht <;> omega

/-- **Edits behind the loop.** -/
theorem foldLanes_rest (h : Edited m m' (32 * (n / 32) : ℕ) n) (hn : n < 320) (s : Word) :
    foldLanes m n s ≠ foldLanes m' n s := by
  rw [foldLanes_mid hn, foldLanes_mid hn, rounds_same (h.same (.inl (by omega)))]
  have hend : ((32 * (n / 32) : ℕ) : ℤ) + (n % 32 : ℕ) = n := by omega
  rw [← hend] at h
  exact tail_differs h (by omega) _

/-! ### Blocks -/

/-- **A block, lane by lane**, for the lanes without a checkpoint. -/
theorem lane_blocks (m : Mem Byte) (iv : Lanes8) {L : Fin 8} (hL : L ≠ 0) (k : ℕ) :
    lane (blocks m (k + 1) 0 (iv, 0)).1 L =
      mix (lane (blocks m k 0 (iv, 0)).1 L) (stripe (words m) (8 * k + L)) := by
  have hlast : (blocks m k 0 (iv, 0)).2 = prev (words m) (8 * k) := by
    rw [blocks_snd, lastWord_eq_prev]
  rw [blocks, walk_last, ← blocks, lane_blockStep (holds_words m _) hlast, if_neg hL]
  exact add_zero _

/-- **An edit is never lost in the blocks**: one of the two values enters a lane without a
checkpoint, and the other enters another lane. -/
theorem blocks_differ (h : EditedAt m m' J) (iv : Lanes8) (hJ : J < 8 * k) :
    (blocks m k 0 (iv, 0)).1 ≠ (blocks m' k 0 (iv, 0)).1 := by
  -- stripe `j` is the one whose value enters the lane
  obtain ⟨j, hj, hlane, hne⟩ : ∃ j, j / 8 < k ∧ j % 8 ≠ 0 ∧
      stripe (words m) j ≠ stripe (words m') j ∧
        ∀ i, i % 8 = j % 8 → i ≠ j → i ≠ J ∧ i ≠ J + 1 := by
    by_cases h7 : J % 8 = 7
    · exact ⟨J, by omega, by omega, stripe_raw h, fun i _ _ => by omega⟩
    · exact ⟨J + 1, by omega, by omega, stripe_copy h, fun i _ _ => by omega⟩
  obtain ⟨hne, hother⟩ := hne
  obtain ⟨L, hL⟩ : ∃ L : Fin 8, (L : ℕ) = j % 8 := ⟨⟨j % 8, Nat.mod_lt _ (by decide)⟩, rfl⟩
  have hL0 : L ≠ 0 := fun he => hlane (by rw [← hL, he]; rfl)
  have hpos : 8 * (j / 8) + (L : ℕ) = j := by omega
  intro he
  refine seq_differs mix (fun k => lane (blocks m k 0 (iv, 0)).1 L)
    (fun k => lane (blocks m' k 0 (iv, 0)).1 L)
    (lane_blocks m iv hL0) (lane_blocks m' iv hL0) (by simp only [blocks_zero])
    mix_lane_inj mix_value_inj (i := j / 8) hj ?_ (fun i hi hij => ?_) (congrArg (lane · L) he)
  · rw [hpos]
    exact hne
  · obtain ⟨h1, h2⟩ := hother (8 * i + L) (by omega) (by omega)
    exact stripe_other h h1 h2

end Hayahash.Spec.Edit
