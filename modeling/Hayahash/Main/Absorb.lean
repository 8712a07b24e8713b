import Hayahash.Refine.Oneshot
import Hayahash.Spec.Reversal

/-! # The absorb sequence is injective

**`absorb_sequence`**: the values a long key feeds to the lanes determine the key. At the first
stripe where two keys differ the stripe before is still the same, so the absorbed value differs
there; what the loops leave is covered by the tail words, and `inj` is a bijection. -/

namespace Hayahash.Main.Absorb

open Hayahash.Lib.ReadProg Hayahash.Lib.Bytes Hayahash.Lib.Bits Hayahash.C.Primitives
open Hayahash.C.Mixers Hayahash.C.Oneshot Hayahash.Spec.Reference Hayahash.Spec.Stripes
open Hayahash.Spec.Observe Hayahash.Spec.Reversal Hayahash.Refine.Oneshot

variable {m m' : Mem Byte} {n : ℕ}

/-! ### Stripes -/

theorem length_stripeValues (k : ℕ) : ∀ (p : ℤ) (wp : Word),
    (stripeValues m k p wp).length = k := by
  induction k with
  | zero =>
    intro p wp
    rfl
  | succ k ih =>
    intro p wp
    rw [stripeValues, List.length_cons, ih]

theorem getElem?_stripeValues {k j : ℕ} (hj : j < k) : ∀ (p : ℤ) (wp : Word),
    (stripeValues m k p wp)[j]? = some (chain (word64 m (p + 8 * j)) (lastWord m p wp j)) := by
  induction k generalizing j with
  | zero => omega
  | succ k ih =>
    intro p wp
    rw [stripeValues]
    cases j with
    | zero => simp [lastWord]
    | succ j =>
      rw [List.getElem?_cons_succ, ih (by omega), lastWord_cons p wp, stripe_pos_succ]

/-- **The stripe values determine the stripes.** -/
theorem stripeValues_inj (k : ℕ) : ∀ (p : ℤ) (wp : Word),
    stripeValues m k p wp = stripeValues m' k p wp →
    ∀ j < k, word64 m (p + 8 * (j : ℕ)) = word64 m' (p + 8 * (j : ℕ)) := by
  induction k with
  | zero => intro p wp _ j hj; omega
  | succ k ih =>
    intro p wp h j hj
    rw [stripeValues, stripeValues] at h
    obtain ⟨hfirst, hrest⟩ := List.cons.inj h
    have hw := chain_inj hfirst
    cases j with
    | zero => simpa using hw
    | succ j =>
      rw [← hw] at hrest
      rw [stripe_pos_succ]
      exact ih (p + 8) _ hrest j (by omega)

/-! ### The whole list -/

/-- **The absorbed values determine the key.** -/
theorem longValues_inj (h : longValues m n = longValues m' n) {i : ℤ} (h0 : 0 ≤ i) (hi : i < n) :
    m i = m' i := by
  unfold longValues at h
  obtain ⟨hstripes, hrest⟩ := List.append_inj h (by rw [length_stripeValues, length_stripeValues])
  by_cases hloop : i < (32 * (n / 32) : ℕ)
  · obtain ⟨j, hj⟩ : ∃ j : ℕ, (j : ℤ) = i / 8 := ⟨(i / 8).toNat, by omega⟩
    exact word64_inj (stripeValues_inj _ 0 0 hstripes j (by omega)) (by omega) (by omega)
  · exact tailValues_inj (by omega) (List.cons.inj hrest).2 (by omega) (by omega)

theorem getElem?_longValues {j : ℕ} (hj : j < 4 * (n / 32)) :
    (longValues m n)[j]? = some (chain (word64 m (8 * j)) (lastWord m 0 0 j)) := by
  rw [longValues, List.getElem?_append_left (by rwa [length_stripeValues]),
    getElem?_stripeValues hj, zero_add]

theorem lastWord_congr {j : ℕ} (h : ∀ i < j, word64 m (8 * (i : ℕ)) = word64 m' (8 * (i : ℕ))) :
    lastWord m 0 0 j = lastWord m' 0 0 j := by
  cases j with
  | zero => rfl
  | succ j =>
    rw [lastWord, lastWord, zero_add]
    exact h j (by omega)

/-- **The first entry that differs is that of the first stripe that differs.** -/
theorem longValues_first {j : ℕ} (hj : j < 4 * (n / 32))
    (hbefore : ∀ i < j, word64 m (8 * (i : ℕ)) = word64 m' (8 * (i : ℕ)))
    (hdiff : word64 m (8 * (j : ℕ)) ≠ word64 m' (8 * (j : ℕ))) :
    (∀ i < j, (longValues m n)[i]? = (longValues m' n)[i]?) ∧
      (longValues m n)[j]? ≠ (longValues m' n)[j]? := by
  constructor
  · intro i hi
    rw [getElem?_longValues (by omega), getElem?_longValues (by omega), hbefore i hi,
      lastWord_congr fun i' hi' => hbefore i' (by omega)]
  · rw [getElem?_longValues hj, getElem?_longValues hj, lastWord_congr hbefore]
    intro h
    exact hdiff (chain_inj (Option.some.inj h))

/-- Keys that differ in the loop region have a first stripe that differs. -/
theorem exists_first_stripe {i : ℤ} (h0 : 0 ≤ i) (hi : i < (32 * (n / 32) : ℕ)) (hne : m i ≠ m' i) :
    ∃ j < 4 * (n / 32), (∀ i < j, word64 m (8 * (i : ℕ)) = word64 m' (8 * (i : ℕ))) ∧
      word64 m (8 * (j : ℕ)) ≠ word64 m' (8 * (j : ℕ)) := by
  classical
  have hex : ∃ j : ℕ, word64 m (8 * (j : ℕ)) ≠ word64 m' (8 * (j : ℕ)) :=
    ⟨(i / 8).toNat, fun h => hne (word64_inj h (by omega) (by omega))⟩
  have hle : Nat.find hex ≤ (i / 8).toNat :=
    Nat.find_min' hex fun h => hne (word64_inj h (by omega) (by omega))
  exact ⟨Nat.find hex, by omega, fun j hj => not_not.mp (Nat.find_min hex hj), Nat.find_spec hex⟩

/-! ### Main result -/

/-- **The absorb sequence.** On every platform and for both widths, what a key of `n ≥ 17` bytes
absorbs is `longValues`: the chained stripes, the wall and the tail words. Two different keys give
different lists, and if they differ in the loop region, there is a first stripe `j` that differs,
and the lists agree before entry `j` and differ there. -/
theorem absorb_sequence (t : Target) (seed : Word) {n : ℕ} (hn : 17 ≤ n) :
    (∀ m, absorbs (notes m (hayahash64 t n seed)) = longValues m n ∧
      absorbs (notes m (hayahash128 t n seed)) = longValues m n) ∧
    ∀ xs ys : List Byte, xs.length = n → ys.length = n → xs ≠ ys →
      longValues (ofList xs) n ≠ longValues (ofList ys) n ∧
      ∀ i : ℕ, i < 32 * (n / 32) → ofList xs i ≠ ofList ys i →
        ∃ j < 4 * (n / 32),
          (∀ i < j, word64 (ofList xs) (8 * (i : ℕ)) = word64 (ofList ys) (8 * (i : ℕ))) ∧
          word64 (ofList xs) (8 * (j : ℕ)) ≠ word64 (ofList ys) (8 * (j : ℕ)) ∧
          (∀ i < j, (longValues (ofList xs) n)[i]? = (longValues (ofList ys) n)[i]?) ∧
          (longValues (ofList xs) n)[j]? ≠ (longValues (ofList ys) n)[j]? := by
  refine ⟨fun m => ?_, fun xs ys hx hy hne => ⟨fun h => hne ?_, fun i hi hdiff => ?_⟩⟩
  · rw [(runs_hayahash64 t m n seed).notes_eq, (runs_hayahash128 t m n seed).notes_eq,
      absorbs_trace hn]
    exact ⟨rfl, rfl⟩
  · exact ofList_inj (hx.trans hy.symm) fun i hi => longValues_inj h (by omega) (by omega)
  · obtain ⟨j, hj, hbefore, hword⟩ := exists_first_stripe (n := n) (by omega)
      (by exact_mod_cast hi) hdiff
    obtain ⟨hsame, hlist⟩ := longValues_first hj hbefore hword
    exact ⟨j, hj, hbefore, hword, hsame, hlist⟩

/-- A key of zeros, but for the byte `i`. -/
def marked (n i : ℕ) : List Byte := (List.replicate n 0).set i 1

theorem length_marked (n i : ℕ) : (marked n i).length = n := by
  rw [marked, List.length_set, List.length_replicate]

/-- Keys of 400 bytes that differ in byte 100, in the bulk loop: entry 12 is the first that differs.
And keys of 40 bytes that differ in the last one, which only the tail absorbs. -/
theorem absorb_sequence_loop :
    ((∀ i < 12,
        (absorbs (notes (ofList (marked 400 100)) (hayahash128 ⟨.x86_64, .gcc, false, .little, .w64⟩
          (400 : ℕ) 7)))[i]? =
        (absorbs (notes (ofList (marked 400 400)) (hayahash128 ⟨.x86_64, .gcc, false, .little, .w64⟩
          (400 : ℕ) 7)))[i]?) ∧
      (absorbs (notes (ofList (marked 400 100)) (hayahash128 ⟨.x86_64, .gcc, false, .little, .w64⟩
        (400 : ℕ) 7)))[12]? ≠
      (absorbs (notes (ofList (marked 400 400)) (hayahash128 ⟨.x86_64, .gcc, false, .little, .w64⟩
        (400 : ℕ) 7)))[12]?) ∧
    absorbs (notes (ofList (marked 40 39)) (hayahash64 ⟨.x86_64, .gcc, false, .little, .w64⟩
        (40 : ℕ) 7)) ≠
      absorbs (notes (ofList (marked 40 40)) (hayahash64 ⟨.x86_64, .gcc, false, .little, .w64⟩
        (40 : ℕ) 7)) := by
  constructor
  · obtain ⟨hlist, hdiff⟩ := absorb_sequence ⟨.x86_64, .gcc, false, .little, .w64⟩ 7
      (by decide : 17 ≤ 400)
    obtain ⟨j, -, hbefore, hword, hsame, hentry⟩ := (hdiff (marked 400 100) (marked 400 400)
      (length_marked _ _) (length_marked _ _) (by decide +kernel)).2 100 (by decide)
        (by decide +kernel)
    have hfirst : ∀ i < 12, word64 (ofList (marked 400 100)) (8 * (i : ℕ)) =
        word64 (ofList (marked 400 400)) (8 * (i : ℕ)) := by decide +kernel
    have hmark : word64 (ofList (marked 400 100)) (8 * (12 : ℕ)) ≠
        word64 (ofList (marked 400 400)) (8 * (12 : ℕ)) := by decide +kernel
    obtain rfl : j = 12 := by
      rcases Nat.lt_trichotomy j 12 with hlt | heq | hgt
      · exact absurd (hfirst j hlt) hword
      · exact heq
      · exact absurd (hbefore 12 hgt) hmark
    rw [(hlist _).2, (hlist _).2]
    exact ⟨hsame, hentry⟩
  · obtain ⟨hlist, hdiff⟩ := absorb_sequence ⟨.x86_64, .gcc, false, .little, .w64⟩ 7
      (by decide : 17 ≤ 40)
    rw [(hlist _).1, (hlist _).1]
    exact (hdiff (marked 40 39) (marked 40 40) (length_marked _ _) (length_marked _ _)
      (by decide +kernel)).1

end Hayahash.Main.Absorb
