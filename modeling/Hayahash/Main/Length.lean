import Hayahash.Refine.Oneshot
import Hayahash.Spec.Finals
import Hayahash.Spec.Observe

/-! # Lengths are kept apart

**`length_separation`**: keys of different lengths that feed the same words, or reach the folds with
the same lanes, have different hashes, in each of the three words. The overlapping reads make this
common: all-zero keys are of this kind (`foldLanes_zero`). -/

namespace Hayahash.Main.Length

open Hayahash.Lib.ReadProg Hayahash.Lib.Bytes Hayahash.C.Primitives Hayahash.C.Mixers
open Hayahash.C.Walk Hayahash.C.Oneshot Hayahash.Spec.Reference Hayahash.Spec.Finals
open Hayahash.Spec.Observe Hayahash.Refine.Ends Hayahash.Refine.Oneshot

variable {t : Target} {seed : Word} {m m' : Mem Byte} {n n' : ℕ}

/-! ### Short keys -/

/-- The words `(a, b)` that the short path loads. -/
def words (t : Target) (m : Mem Byte) (n : ℕ) : Option (Word × Word) :=
  (value m (shortWords t n)).map fun ab => (ab.1.val, ab.2.val)

theorem words_eq : words t m n = some (shortA m n, shortB m n) := by
  simp [words, value, exec_shortWords]

/-- **(a)** Short keys that load the same words. -/
theorem short_separation (hn : n ≤ 16) (hn' : n' ≤ 16) (hne : n ≠ n')
    (hw : words t m n = words t m' n') : AllDiffer t seed m n m' n' := by
  rw [words_eq, words_eq] at hw
  obtain ⟨ha, hb⟩ := Prod.mk.inj (Option.some.inj hw)
  have hu : ∀ x y, rotl x 27 ^^^ y ^^^ lenmix n ≠ rotl x 27 ^^^ y ^^^ lenmix n' := by
    intro x y h
    exact hne (lenmix_inj (by omega) (by omega) (by simpa using h))
  refine allDiffer_of_compact ?_ ?_
  · rw [compact128_short m hn, compact128_short m' hn', ha, hb]
    intro h
    exact hu _ _ (fmix_bijective.1 h)
  · rw [compact128_short m hn, compact128_short m' hn', ha, hb]
    intro h
    have hx := fmix128_bijective.1 h
    exact hu _ _ (rotl_inj (by decide) ((BitVec.add_right_inj _).mp hx))

/-! ### Long keys -/

theorem long_separation_lanes (h17 : 16 < n) (h17' : 16 < n') (hn : n < 2 ^ 64) (hn' : n' < 2 ^ 64)
    (hne : n ≠ n') (hl : foldLanes m n (seed ^^^ K) = foldLanes m' n' (seed ^^^ K)) :
    AllDiffer t seed m n m' n' := by
  have ht0 : foldT0 (foldLanes m' n' (seed ^^^ K)) (lenmix n) ≠
      foldT0 (foldLanes m' n' (seed ^^^ K)) (lenmix n') :=
    fun h => hne (lenmix_inj hn hn' (foldT0_lenmix_inj h))
  refine allDiffer_of_compact ?_ ?_
  · rw [compact128_long m h17, compact128_long m' h17', hl]
    intro h
    exact ht0 (longmix_t0 (.inl h))
  · rw [compact128_long m h17, compact128_long m' h17', hl]
    intro h
    exact ht0 (longmix_t0 (.inr h))

/-- **(b)** Longer keys that reach the folds with the same lanes. -/
theorem long_separation (h17 : 16 < n) (h17' : 16 < n') (hn : n < 2 ^ 64) (hn' : n' < 2 ^ 64)
    (hne : n ≠ n') (hl : folds (notes m (hayahash64 t n seed)) =
      folds (notes m' (hayahash64 t n' seed))) : AllDiffer t seed m n m' n' := by
  rw [(runs_hayahash64 t m n seed).notes_eq, (runs_hayahash64 t m' n' seed).notes_eq,
    folds_trace h17, folds_trace h17'] at hl
  exact long_separation_lanes h17 h17' hn hn' hne (List.cons.inj hl).1

/-! ### Zeros -/

/-- A memory of zeros reads the same word everywhere. -/
theorem word64_zero (p q : ℤ) : word64 (fun _ => 0) p = word64 (fun _ => 0) q := rfl

theorem tailStep_zero {p p' l l' : ℤ} (h0 : l > 0 ↔ l' > 0) (h16 : l > 16 ↔ l' > 16) (h : Lanes4) :
    tailStep (fun _ => 0) p l h = tailStep (fun _ => 0) p' l' h := by
  simp only [tailStep, lastStep, headStep, h0, h16, word64_zero _ 0]

/-- The remainders are both of the kind that reads the last 16 bytes only, or both of the kind that
reads the next 16 bytes too. -/
def SameKind (r r' : ℕ) : Prop :=
  (1 ≤ r ∧ r ≤ 16 ∧ 1 ≤ r' ∧ r' ≤ 16) ∨ (17 ≤ r ∧ r ≤ 31 ∧ 17 ≤ r' ∧ r' ≤ 31)

/-- All-zero keys with the same complete blocks and remainders of the same kind reach the folds with
the same lanes. -/
theorem foldLanes_zero (hq : n / 32 = n' / 32) (hr : SameKind (n % 32) (n' % 32)) (s : Word) :
    foldLanes (fun _ => 0) n s = foldLanes (fun _ => 0) n' s := by
  have hwalk : walkState (fun _ => 0) n s = walkState (fun _ => 0) n' s := by
    have h64 : n / 64 = n' / 64 := by omega
    have h32 : n % 64 / 32 = n' % 64 / 32 := by omega
    have h320 : n < 320 ↔ n' < 320 := by omega
    simp only [walkState, bulkState, hq, h64, h32, h320]
  rw [foldLanes, foldLanes, hwalk]
  unfold SameKind at hr
  exact tailStep_zero (by omega) (by omega) _

theorem words_zero (n : ℕ) : words t (fun _ => 0) n = some (0, 0) := by
  have h64 : ∀ p, word64 (fun _ => 0#8) p = 0#64 := fun _ => by rw [word64]; decide
  have h32 : ∀ p, word32 (fun _ => 0#8) p = 0#32 := fun _ => by rw [word32]; decide
  rw [words_eq]
  unfold shortA shortB
  split_ifs <;> simp [h64, h32]

theorem ofList_zeros (n : ℕ) : ofList (List.replicate n 0) = fun _ => 0 := by
  funext i
  unfold ofList
  split_ifs
  · simp
  · rfl

/-- **All-zero keys** with the same complete blocks and remainders of the same kind. -/
theorem zeros_separation (hn : n < 2 ^ 64) (hn' : n' < 2 ^ 64) (hne : n ≠ n')
    (hq : n / 32 = n' / 32) (hr : SameKind (n % 32) (n' % 32)) :
    AllDiffer t seed (ofList (List.replicate n 0)) n (ofList (List.replicate n' 0)) n' := by
  rw [ofList_zeros, ofList_zeros]
  by_cases h16 : n ≤ 16
  · have h16' : n' ≤ 16 := by
      unfold SameKind at hr
      omega
    exact short_separation h16 h16' hne ((words_zero n).trans (words_zero n').symm)
  · have h16' : ¬n' ≤ 16 := by
      unfold SameKind at hr
      omega
    exact long_separation_lanes (by omega) (by omega) hn hn' hne (foldLanes_zero hq hr _)

/-! ### Main result -/

/-- **Length separation.** For lengths `n ≠ n'` below `2 ^ 63`: (a) short keys that load the same
words, (b) longer keys that reach the folds with the same lanes, and all-zero keys with the same
complete blocks and remainders of the same kind, differ in all three words; and in the finalizer of
the long path `t0` alone or `t1` alone changes both output words. -/
theorem length_separation (t : Target) (seed : Word) {n n' : ℕ} (hn : n < 2 ^ 63)
    (hn' : n' < 2 ^ 63) (hne : n ≠ n') :
    (∀ m m', n ≤ 16 → n' ≤ 16 → words t m n = words t m' n' → AllDiffer t seed m n m' n') ∧
    (∀ m m', 17 ≤ n → 17 ≤ n' →
      folds (notes m (hayahash64 t n seed)) = folds (notes m' (hayahash64 t n' seed)) →
      AllDiffer t seed m n m' n') ∧
    (n / 32 = n' / 32 → SameKind (n % 32) (n' % 32) →
      AllDiffer t seed (ofList (List.replicate n 0)) n (ofList (List.replicate n' 0)) n') ∧
    (∀ s t0 t0' t1, t0 ≠ t0' → (longmix128 s t0 t1 K).lo ≠ (longmix128 s t0' t1 K).lo ∧
      (longmix128 s t0 t1 K).hi ≠ (longmix128 s t0' t1 K).hi) ∧
    ∀ s t0 t1 t1', t1 ≠ t1' → (longmix128 s t0 t1 K).lo ≠ (longmix128 s t0 t1' K).lo ∧
      (longmix128 s t0 t1 K).hi ≠ (longmix128 s t0 t1' K).hi := by
  refine ⟨fun m m' h16 h16' hw => short_separation h16 h16' hne hw,
    fun m m' h17 h17' hl => long_separation h17 h17' (by omega) (by omega) hne hl,
    fun hq hr => zeros_separation (by omega) (by omega) hne hq hr, ?_, ?_⟩
  · intro s t0 t0' t1 h
    exact ⟨fun he => h (longmix_t0 (.inl he)), fun he => h (longmix_t0 (.inr he))⟩
  · intro s t0 t1 t1' h
    exact ⟨fun he => h (longmix_t1 (.inl he)), fun he => h (longmix_t1 (.inr he))⟩

/-- Zero keys of 1 and 2, of 33 and 40, and of 341 and 349 bytes. -/
theorem length_separation_zeros :
    AllDiffer ⟨.x86_64, .gcc, false, .little, .w64⟩ 7 (ofList (List.replicate 1 0)) 1
      (ofList (List.replicate 2 0)) 2 ∧
    AllDiffer ⟨.x86_64, .gcc, false, .little, .w64⟩ 7 (ofList (List.replicate 33 0)) 33
      (ofList (List.replicate 40 0)) 40 ∧
    AllDiffer ⟨.x86_64, .gcc, false, .little, .w64⟩ 7 (ofList (List.replicate 341 0)) 341
      (ofList (List.replicate 349 0)) 349 :=
  ⟨(length_separation _ 7 (by decide) (by decide) (by decide)).2.2.1 (by decide)
      (.inl (by decide)),
    (length_separation _ 7 (by decide) (by decide) (by decide)).2.2.1 (by decide)
      (.inl (by decide)),
    (length_separation _ 7 (by decide) (by decide) (by decide)).2.2.1 (by decide)
      (.inr (by decide))⟩

end Hayahash.Main.Length
