import Hayahash.Spec.Stripes

/-! # What is observed of a run

The values absorbed, the lanes where the bulk loop is left and the lanes where the folds begin, read
off the notes of a run. For the one-shot functions they are those of the reference, in every shape:
the absorbed values of a key of at least 17 bytes are its stripes, chained through both loops, the
wall and the tail words. -/

namespace Hayahash.Spec.Observe

open Hayahash.Lib.ReadProg Hayahash.Lib.Bytes Hayahash.C.Primitives
open Hayahash.Spec.Reference Hayahash.Spec.Stripes

/-- The values absorbed, in order. -/
def absorbs (ns : List Event) : List Word :=
  ns.filterMap fun | .absorb _ x => some x | _ => none

/-- The lanes seen where a bulk loop is left. -/
def bulkExits (ns : List Event) : List Lanes8 :=
  ns.filterMap fun | .bulkExit h => some h | _ => none

/-- The lanes seen where the folds begin. -/
def folds (ns : List Event) : List Lanes4 :=
  ns.filterMap fun | .fold h => some h | _ => none

/-- The values of `k` stripes from `p` on, after the stripe `wp`. -/
def stripeValues (m : Mem Byte) : ℕ → ℤ → Word → List Word
  | 0, _, _ => []
  | k + 1, p, wp => chain (word64 m p) wp :: stripeValues m k (p + 8) (word64 m p)

/-- The values of the tail. -/
def tailValues (m : Mem Byte) (p l : ℤ) : List Word :=
  (if l > 16 then [inj (word64 m p), inj (word64 m (p + 8))] else []) ++
    if l > 0 then [inj (word64 m (p + l - 16)), inj (word64 m (p + l - 8))] else []

/-- The values of a key of at least 17 bytes. -/
def longValues (m : Mem Byte) (n : ℕ) : List Word :=
  stripeValues m (4 * (n / 32)) 0 0 ++ rotl (lastWord m 0 0 (4 * (n / 32))) 27 ::
    tailValues m (32 * (n / 32) : ℕ) (n % 32 : ℕ)

variable {m : Mem Byte} {n : ℕ}

/-! ### Pieces -/

@[simp] theorem absorbs_append (ns ns' : List Event) :
    absorbs (ns ++ ns') = absorbs ns ++ absorbs ns' := List.filterMap_append

@[simp] theorem bulkExits_append (ns ns' : List Event) :
    bulkExits (ns ++ ns') = bulkExits ns ++ bulkExits ns' := List.filterMap_append

@[simp] theorem folds_append (ns ns' : List Event) :
    folds (ns ++ ns') = folds ns ++ folds ns' := List.filterMap_append

@[simp] theorem absorbs_absorb (src : List Span) (x : Word) (ns : List Event) :
    absorbs (.absorb src x :: ns) = x :: absorbs ns := rfl

@[simp] theorem bulkExits_absorb (src : List Span) (x : Word) (ns : List Event) :
    bulkExits (.absorb src x :: ns) = bulkExits ns := rfl

@[simp] theorem folds_absorb (src : List Span) (x : Word) (ns : List Event) :
    folds (.absorb src x :: ns) = folds ns := rfl

@[simp] theorem absorbs_bulkExit (h : Lanes8) (ns : List Event) :
    absorbs (.bulkExit h :: ns) = absorbs ns := rfl

@[simp] theorem bulkExits_bulkExit (h : Lanes8) (ns : List Event) :
    bulkExits (.bulkExit h :: ns) = h :: bulkExits ns := rfl

@[simp] theorem folds_bulkExit (h : Lanes8) (ns : List Event) :
    folds (.bulkExit h :: ns) = folds ns := rfl

@[simp] theorem absorbs_fold (h : Lanes4) : absorbs [.fold h] = [] := rfl

@[simp] theorem bulkExits_fold (h : Lanes4) : bulkExits [.fold h] = [] := rfl

@[simp] theorem folds_fold (h : Lanes4) : folds [.fold h] = [h] := rfl

@[simp] theorem absorbs_stripeEvents (k : ℕ) : ∀ (p : ℤ) (wp : Word),
    absorbs (stripeEvents m k p wp) = stripeValues m k p wp := by
  induction k with
  | zero =>
    intro p wp
    rfl
  | succ k ih =>
    intro p wp
    rw [stripeEvents, absorbs_absorb, ih, stripeValues]

@[simp] theorem absorbs_tailEvents (p l : ℤ) : absorbs (tailEvents m p l) = tailValues m p l := by
  unfold tailEvents tailValues
  split_ifs <;> rfl

section Lanes
variable {α : Type} {f : Event → Option α} (hf : ∀ src x, f (.absorb src x) = none)
include hf

theorem filterMap_stripeEvents (k : ℕ) : ∀ (p : ℤ) (wp : Word),
    (stripeEvents m k p wp).filterMap f = [] := by
  induction k with
  | zero =>
    intro p wp
    rfl
  | succ k ih =>
    intro p wp
    rw [stripeEvents, List.filterMap_cons_none (hf _ _), ih]

theorem filterMap_tailEvents (p l : ℤ) : (tailEvents m p l).filterMap f = [] := by
  unfold tailEvents tailEvent
  split_ifs <;> simp [hf]

end Lanes

@[simp] theorem bulkExits_stripeEvents (k : ℕ) (p : ℤ) (wp : Word) :
    bulkExits (stripeEvents m k p wp) = [] := filterMap_stripeEvents (fun _ _ => rfl) k p wp

@[simp] theorem folds_stripeEvents (k : ℕ) (p : ℤ) (wp : Word) :
    folds (stripeEvents m k p wp) = [] := filterMap_stripeEvents (fun _ _ => rfl) k p wp

@[simp] theorem bulkExits_tailEvents (p l : ℤ) : bulkExits (tailEvents m p l) = [] :=
  filterMap_tailEvents (fun _ _ => rfl) p l

@[simp] theorem folds_tailEvents (p l : ℤ) : folds (tailEvents m p l) = [] :=
  filterMap_tailEvents (fun _ _ => rfl) p l

/-! ### Runs of the one-shot functions -/

/-- The stripes of both loops are one sequence. -/
theorem absorbs_walkTrace (s : Word) :
    absorbs (walkTrace m n s) = stripeValues m (4 * (n / 32)) 0 0 := by
  unfold walkTrace
  by_cases hn : n < 320
  · rw [if_pos hn, absorbs_stripeEvents]
  · have hb : (bulkState m n s).2 = lastWord m 0 0 (8 * (n / 64)) := blocks_snd _ _ _
    rw [if_neg hn, absorbs_append, absorbs_bulkExit, hb, ← absorbs_append, ← stripeEvents_split,
      absorbs_stripeEvents]

theorem walkState_snd (s : Word) :
    (walkState m n s).2 = lastWord m 0 0 (4 * (n / 32)) := by
  unfold walkState
  by_cases hn : n < 320
  · rw [if_pos hn, rounds_snd]
  · have hb : (bulkState m n s).2 = lastWord m 0 0 (8 * (n / 64)) := blocks_snd _ _ _
    rw [if_neg hn, rounds_snd, lastWord_split, ← hb]

theorem absorbs_trace (h17 : 16 < n) (seed : Word) :
    absorbs (trace m n seed) = longValues m n := by
  rw [trace, if_neg (by omega)]
  simp [absorbs_walkTrace, walkState_snd, longValues]

theorem folds_trace (h17 : 16 < n) (seed : Word) :
    folds (trace m n seed) = [foldLanes m n (seed ^^^ K)] := by
  have hw : folds (walkTrace m n (seed ^^^ K)) = [] := by
    unfold walkTrace
    split_ifs <;> simp
  rw [trace, if_neg (by omega)]
  simp [hw]

theorem bulkExits_trace (h320 : 320 ≤ n) (seed : Word) :
    bulkExits (trace m n seed) = [(bulkState m n (seed ^^^ K)).1] := by
  rw [trace, if_neg (by omega), walkTrace, if_neg (by omega)]
  simp

end Hayahash.Spec.Observe
