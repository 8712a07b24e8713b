import Hayahash.Refine.Marks

/-! # The simulator of the website is the header

**`sim`**: for every byte string and every integer as a seed, `buildSteps` has no fault, its digests
are the header's values for the seed modulo `2 ^ 64`, and its steps tell what is read: the bytes
done are the prefix loaded so far, they never get fewer and are all of the input at last, no mark
leaves the input, and what is marked as read again is what of the read was loaded before. Where
nothing is marked so, nothing is read again, but for an input of one byte, which is read three
times. That the marks are the loads, and neither more nor less, is `Refine.Marks.steps_marks`. -/

namespace Hayahash.Main.Sim

open Hayahash.Lib.ReadProg Hayahash.Lib.Bytes Hayahash.Lib.Checked Hayahash.Lib.Arrays
open Hayahash.Lib.Bigint
open Hayahash.Ports.Sim Hayahash.Spec.Steps Hayahash.Spec.Reference Hayahash.Refine.Oneshot
open Hayahash.C.Primitives (Word Target)
open Hayahash.C.Walk (Hash128)
open Hayahash.C.Oneshot (hayahash64 hayahash128)

/-- **The simulator** shows the header's hash, step by step. -/
theorem sim (xs : List Byte) (seedIn : ℤ) (t : Target) : ∃ (r : Built) (x : Word) (y : Hash128),
    buildSteps (.all xs) seedIn = pure r ∧
      value (ofList xs) (hayahash64 t xs.length (.ofInt 64 seedIn)) = some x ∧
      value (ofList xs) (hayahash128 t xs.length (.ofInt 64 seedIn)) = some y ∧
      r.digest = val x ∧ r.lo = val y.lo ∧ r.hi = val y.hi ∧
      r.steps.Pairwise (·.done ≤ ·.done) ∧ r.steps.getLast?.map Step.done = some (xs.length : ℤ) ∧
      ∀ before step after, r.steps = before ++ step :: after →
        (0 ≤ step.done ∧ loaded (before ++ [step]) = between 0 step.done) ∧
        (∀ h ∈ step.hl, 0 ≤ h.start ∧ 0 < h.count ∧ h.start + h.count ≤ (xs.length : ℤ)) ∧
        (∀ h ∈ step.hl, h.cls = .o → range h = reads step.hl ∩ loaded before) ∧
        (xs.length ≠ 1 → (∀ h ∈ step.hl, h.cls ≠ .o) → reads step.hl ∩ loaded before = ∅) := by
  obtain ⟨r, hr, hdigest, hlo, hhi, hlog⟩ := Refine.Sim.buildSteps_yields xs seedIn
  refine ⟨r, _, _, hr, (runs_hayahash64 t (ofList xs) xs.length (.ofInt 64 seedIn)).value_eq,
    (runs_hayahash128 t (ofList xs) xs.length (.ofInt 64 seedIn)).value_eq, hdigest, hlo, hhi,
    hlog.told.pairwise, hlog.last, fun before step after hsplit => ?_⟩
  have hshown := hlog.told before step after hsplit
  exact ⟨hshown.done, hshown.inside, hshown.again, fun hone => hshown.fresh (by omega)⟩

end Hayahash.Main.Sim
