import Hayahash.Refine.Oneshot
import Hayahash.Spec.Edit

/-! # An edited stripe is never lost

**`edit_differs`**: two keys of one length that differ in one stripe of the loops, or only behind
them, have different lanes before the folds, or at the end of the bulk loop. -/

namespace Hayahash.Main.Edit

open Hayahash.Lib.ReadProg Hayahash.Lib.Bytes Hayahash.C.Primitives Hayahash.C.Oneshot
open Hayahash.Spec.Reference Hayahash.Spec.Observe Hayahash.Spec.Edit Hayahash.Refine.Oneshot

/-- All the bytes in which the keys differ lie from `lo` on and before `hi`. -/
def DifferWithin (xs ys : List Byte) (lo hi : ℕ) : Prop :=
  ∀ i < xs.length, xs.getD i 0 ≠ ys.getD i 0 → lo ≤ i ∧ i < hi

/-- The lanes before the folds differ, in both widths. -/
def FoldsDiffer (t : Target) (seed : Word) (n : ℕ) (xs ys : List Byte) : Prop :=
  ∃ f g, f ≠ g ∧
    folds (notes (ofList xs) (hayahash64 t n seed)) = [f] ∧
    folds (notes (ofList ys) (hayahash64 t n seed)) = [g] ∧
    folds (notes (ofList xs) (hayahash128 t n seed)) = [f] ∧
    folds (notes (ofList ys) (hayahash128 t n seed)) = [g]

/-- The lanes at the end of the bulk loop differ, in both widths. -/
def BulkExitsDiffer (t : Target) (seed : Word) (n : ℕ) (xs ys : List Byte) : Prop :=
  ∃ f g, f ≠ g ∧
    bulkExits (notes (ofList xs) (hayahash64 t n seed)) = [f] ∧
    bulkExits (notes (ofList ys) (hayahash64 t n seed)) = [g] ∧
    bulkExits (notes (ofList xs) (hayahash128 t n seed)) = [f] ∧
    bulkExits (notes (ofList ys) (hayahash128 t n seed)) = [g]

variable {xs ys : List Byte} {lo hi n : ℕ} {seed : Word}

theorem edited_ofList (hl : xs.length = ys.length) (hne : xs ≠ ys)
    (h : DifferWithin xs ys lo hi) : Edited (ofList xs) (ofList ys) lo hi where
  within i hi := by
    have h0 : 0 ≤ i := by
      by_contra hneg
      exact hi (by simp only [ofList, if_neg hneg])
    obtain ⟨j, rfl⟩ := Int.eq_ofNat_of_zero_le h0
    rw [ofList_nat, ofList_nat] at hi
    have hj : j < xs.length := by
      by_contra hge
      exact hi (by rw [List.getD_eq_default _ _ (by omega), List.getD_eq_default _ _ (by omega)])
    have := h j hj hi
    omega
  somewhere := by
    by_contra hall
    push Not at hall
    exact hne (ofList_inj hl fun i _ => hall i)

theorem foldsDiffer_of_lanes (t : Target) (h17 : 16 < n)
    (h : foldLanes (ofList xs) n (seed ^^^ K) ≠ foldLanes (ofList ys) n (seed ^^^ K)) :
    FoldsDiffer t seed n xs ys := by
  refine ⟨_, _, h, ?_, ?_, ?_, ?_⟩
  · rw [(runs_hayahash64 t _ n seed).notes_eq, folds_trace h17]
  · rw [(runs_hayahash64 t _ n seed).notes_eq, folds_trace h17]
  · rw [(runs_hayahash128 t _ n seed).notes_eq, folds_trace h17]
  · rw [(runs_hayahash128 t _ n seed).notes_eq, folds_trace h17]

theorem bulkExitsDiffer_of_lanes (t : Target) (h320 : 320 ≤ n)
    (h : (bulkState (ofList xs) n (seed ^^^ K)).1 ≠ (bulkState (ofList ys) n (seed ^^^ K)).1) :
    BulkExitsDiffer t seed n xs ys := by
  refine ⟨_, _, h, ?_, ?_, ?_, ?_⟩
  · rw [(runs_hayahash64 t _ n seed).notes_eq, bulkExits_trace h320]
  · rw [(runs_hayahash64 t _ n seed).notes_eq, bulkExits_trace h320]
  · rw [(runs_hayahash128 t _ n seed).notes_eq, bulkExits_trace h320]
  · rw [(runs_hayahash128 t _ n seed).notes_eq, bulkExits_trace h320]

/-! ### Main result -/

/-- **A one-stripe edit is never lost before the folds**: below 320 bytes the lanes before the folds
differ, for an edit of a stripe of the loop or behind it; from 320 bytes on the lanes at the end of
the bulk loop differ, for an edit of a stripe of a complete block. Below 32 bytes any difference
shows. -/
theorem edit_differs (t : Target) (seed : Word) {n : ℕ} {xs ys : List Byte} (h17 : 17 ≤ n)
    (hx : xs.length = n) (hy : ys.length = n) (hne : xs ≠ ys) :
    (n ≤ 319 → (∃ j < 4 * (n / 32), DifferWithin xs ys (8 * j) (8 * j + 8)) ∨
        DifferWithin xs ys (32 * (n / 32)) n → FoldsDiffer t seed n xs ys) ∧
      (320 ≤ n → (∃ j < 8 * (n / 64), DifferWithin xs ys (8 * j) (8 * j + 8)) →
        BulkExitsDiffer t seed n xs ys) ∧
      (n ≤ 31 → FoldsDiffer t seed n xs ys) := by
  have hl : xs.length = ys.length := hx.trans hy.symm
  have hstripe : ∀ {j : ℕ}, DifferWithin xs ys (8 * j) (8 * j + 8) →
      EditedAt (ofList xs) (ofList ys) j := fun h => by
    have he := edited_ofList hl hne h
    push_cast at he
    exact he
  have hrest : n ≤ 319 → DifferWithin xs ys (32 * (n / 32)) n → FoldsDiffer t seed n xs ys :=
    fun hn h => foldsDiffer_of_lanes t h17
      (foldLanes_rest (edited_ofList hl hne h) (by omega) _)
  refine ⟨?_, ?_, fun hn => hrest (by omega) fun i hi _ => ⟨by omega, by omega⟩⟩
  · rintro hn (⟨j, hj, h⟩ | h)
    · exact foldsDiffer_of_lanes t h17 (foldLanes_stripe (hstripe h) (by omega) hj _)
    · exact hrest hn h
  · rintro h320 ⟨j, hj, h⟩
    exact bulkExitsDiffer_of_lanes t h320 (blocks_differ (hstripe h) _ hj)

/-- A key of zeros with one byte edited. -/
def oneByte (a b : ℕ) : List Byte := List.replicate a 0 ++ 1 :: List.replicate b 0

theorem length_oneByte (a b : ℕ) : (oneByte a b).length = a + 1 + b := by
  simp only [oneByte, List.length_append, List.length_cons, List.length_replicate]
  omega

theorem differWithin_oneByte {a b n lo hi : ℕ} (hlo : lo ≤ a) (hhi : a < hi) :
    DifferWithin (List.replicate n 0) (oneByte a b) lo hi := by
  intro i _ hne
  by_contra hout
  refine hne ?_
  have hzero : ∀ k j : ℕ, (List.replicate k (0 : Byte)).getD j 0 = 0 := fun k j => by
    rw [List.getD_eq_getElem?_getD, List.getElem?_replicate]
    split_ifs <;> rfl
  rcases Nat.lt_trichotomy i a with hlt | heq | hgt
  · rw [hzero, oneByte, List.getD_append _ _ _ _ (by rwa [List.length_replicate]), hzero]
  · omega
  · rw [hzero, oneByte, List.getD_append_right _ _ _ _ (by rw [List.length_replicate]; omega),
      List.length_replicate]
    obtain ⟨c, hc⟩ : ∃ c, i - a = c + 1 := ⟨i - a - 1, by omega⟩
    rw [hc, List.getD_cons_succ, hzero]

theorem oneByte_ne (n a b : ℕ) : List.replicate n 0 ≠ oneByte a b := by
  intro h
  have hmem : (1 : Byte) ∈ List.replicate n (0 : Byte) := by
    rw [h, oneByte]
    exact List.mem_append_right _ List.mem_cons_self
  exact absurd (List.eq_of_mem_replicate hmem) (by decide)

/-- The last stripe of a key of 48 bytes that the loop sees, which the tail reads again; a byte of a
key of 17; and the last stripe of the first block of a key of 400. -/
theorem edit_differs_one :
    FoldsDiffer ⟨.x86_64, .gcc, false, .little, .w64⟩ 7 48 (List.replicate 48 0) (oneByte 31 16) ∧
    FoldsDiffer ⟨.aarch64, .clang, false, .little, .w64⟩ 7 17 (List.replicate 17 0) (oneByte 0 16) ∧
    BulkExitsDiffer ⟨.wasm, .clang, false, .little, .w32⟩ 7 400 (List.replicate 400 0)
      (oneByte 63 336) := by
  refine ⟨?_, ?_, ?_⟩
  · exact (edit_differs _ 7 (n := 48) (by decide) List.length_replicate (length_oneByte 31 16)
      (oneByte_ne 48 31 16)).1 (by decide)
      (.inl ⟨3, by decide, differWithin_oneByte (by decide) (by decide)⟩)
  · exact (edit_differs _ 7 (n := 17) (by decide) List.length_replicate (length_oneByte 0 16)
      (oneByte_ne 17 0 16)).2.2 (by decide)
  · exact (edit_differs _ 7 (n := 400) (by decide) List.length_replicate (length_oneByte 63 336)
      (oneByte_ne 400 63 336)).2.1 (by decide)
      ⟨7, by decide, differWithin_oneByte (by decide) (by decide)⟩

end Hayahash.Main.Edit
