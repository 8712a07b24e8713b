import Hayahash.C.Loads
import Hayahash.C.Mixers
import Hayahash.Spec.Reference

/-! # The pieces of the code run as the reference says

For every platform `t`: one lemma for each piece of `C.Walk`, with the value, the ranges and the
observations of `Spec.Reference`. Pieces that load in order have an equation for `exec`; the bulk
block in the `VECGCC` spelling loads some words twice and in another order, so from there on the
lemmas are of the form `Runs`. -/

namespace Hayahash.Refine.Pieces

open Hayahash.Lib.ReadProg Hayahash.Lib.Bytes Hayahash.C.Primitives Hayahash.C.Loads
open Hayahash.C.Walk Hayahash.Spec.Reference

variable (t : Target) {m : Mem Byte}

/-! ### Loads and absorbs -/

@[simp] theorem exec_load64le (off : ℤ) :
    exec m (load64le t off) = some ⟨⟨[⟨off, 8⟩], word64 m off⟩, [⟨off, 8⟩], []⟩ := by
  rw [show word64 m off = decode64 t.endian (m.read ⟨off, 8⟩) from (decode64_eq _ _).symm]
  rfl

@[simp] theorem exec_load32le (off : ℤ) :
    exec m (load32le t off) =
      some ⟨⟨[⟨off, 4⟩], (word32 m off).setWidth 64⟩, [⟨off, 4⟩], []⟩ := by
  rw [show (word32 m off).setWidth 64 = decode32 t.endian (m.read ⟨off, 4⟩) from
    (decode32_eq _ _).symm]
  rfl

@[simp] theorem exec_load8 (off : ℤ) :
    exec m (load8 off) = some ⟨⟨[⟨off, 1⟩], (m off).setWidth 64⟩, [⟨off, 1⟩], []⟩ := by
  rw [show m off = m.read ⟨off, 1⟩ 0 by simp [Mem.read]]
  rfl

@[simp] theorem exec_absorb (h : Word) (w : Loaded) (wp : Word) :
    exec m (absorb h w wp) =
      some ⟨mix h (chain w.val wp), [], [.absorb w.src (chain w.val wp)]⟩ := rfl

@[simp] theorem exec_absorbFirst (h : Word) (w : Loaded) :
    exec m (absorbFirst h w) =
      some ⟨mix h (chain w.val 0), [], [.absorb w.src (chain w.val 0)]⟩ := by
  rw [show chain w.val 0 = w.val by simp [chain]]
  rfl

@[simp] theorem exec_absorbInjp (h : Word) (p : ℤ) :
    exec m (absorbInjp t h p) = some ⟨mixTail h (word64 m p), [⟨p, 8⟩], [tailEvent m p]⟩ := by
  simp [absorbInjp, injp, exec_bind, Outcome.andThen, tailEvent, mixTail]

/-! ### Stripes -/

theorem exec_bulkBlock (q : ℤ) (s : Lanes8 × Word) :
    exec m (bulkBlock t q s) = some ⟨blockStep m q s, stripeSpans 8 q, stripeEvents m 8 q s.2⟩ := by
  simp [bulkBlock, exec_bind, Outcome.andThen, blockStep, stripeSpans, stripeEvents, add_assoc]

theorem exec_midRound (p : ℤ) (s : Lanes4 × Word) :
    exec m (midRound t p s) = some ⟨roundStep m p s, stripeSpans 4 p, stripeEvents m 4 p s.2⟩ := by
  simp [midRound, exec_bind, Outcome.andThen, roundStep, stripeSpans, stripeEvents, add_assoc]

/-- The `VECGCC` spelling does the same to the lanes. It loads every word but the last of the four
middle lanes once more, as the predecessor of the next. -/
theorem runs_bulkBlockVec (q : ℤ) (s : Lanes8 × Word) :
    Runs m (bulkBlockVec t q (.ofLanes s.1, s.2))
      (.ofLanes (blockStep m q s).1, (blockStep m q s).2)
      (stripeSpans 8 q) (stripeEvents m 8 q s.2) := by
  have hx : exec m (bulkBlockVec t q (.ofLanes s.1, s.2)) =
      some ⟨(.ofLanes (blockStep m q s).1, (blockStep m q s).2),
        [0, 8, 16, 8, 24, 16, 32, 24, 40, 32, 48, 40, 56, 48, 56].map fun i => ⟨q + i, 8⟩,
        stripeEvents m 8 q s.2⟩ := by
    simp [bulkBlockVec, exec_bind, Outcome.andThen, VecLanes.ofLanes, hvStep, blockStep,
      stripeEvents, add_assoc]
  have hmem : ∀ i : ℤ, i ∈ [0, 8, 16, 8, 24, 16, 32, 24, 40, 32, 48, 40, 56, 48, 56] ↔
      i ∈ [0, 8, 16, 24, 32, 40, 48, 56] := by
    intro i
    simp only [List.mem_cons, List.not_mem_nil, or_false]
    omega
  have hs : stripeSpans 8 q = [0, 8, 16, 24, 32, 40, 48, 56].map fun i => ⟨q + i, 8⟩ := by
    simp [stripeSpans, add_assoc]
  refine (Runs.of_exec hx).loads_congr fun r => ?_
  simp only [hs, List.mem_map, hmem]

end Hayahash.Refine.Pieces
