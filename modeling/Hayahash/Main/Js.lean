import Hayahash.Refine.Js

/-! # The pure JavaScript engine is the header

**`js`**: for every array and every seed, negative or wider than a word, nothing that is xored,
rotated or shifted to the right is outside of `[0, 2 ^ 64)`, no index is outside of its array, and
the digests are the header's values, one-shot and for every run of calls on a `PureHasher`. -/

namespace Hayahash.Main.Js

open Hayahash.Lib.ReadProg Hayahash.Lib.Bytes Hayahash.Lib.Checked Hayahash.Lib.Arrays
open Hayahash.Lib.Bigint
open Hayahash.Ports.Session Hayahash.Ports.Js Hayahash.Refine.PortStream
open Hayahash.Refine.Session Hayahash.Refine.Oneshot
open Hayahash.C.Primitives (Word Target)
open Hayahash.C.Walk (Hash128)
open Hayahash.C.Oneshot (hayahash64 hayahash128)

theorem js_hashes (v : View) (hv : v.Valid) (seed : ℤ) (t : Target) : ∃ (x : Word) (y : Hash128),
    hayahash64Pure v seed = pure (val x) ∧ hayahash128Pure v seed = pure ⟨val y.lo, val y.hi⟩ ∧
      value (ofList v.bytes) (hayahash64 t v.bytes.length (.ofInt 64 seed)) = some x ∧
      value (ofList v.bytes) (hayahash128 t v.bytes.length (.ofInt 64 seed)) = some y := by
  have hshows : Shows v.data.length v v.bytes := ⟨hv, le_rfl, rfl⟩
  have h64 := Refine.Js.hashPure_eq hshows (.ofInt 64 seed)
  have h128 := Refine.Js.hash128Pure_eq hshows (.ofInt 64 seed)
  rw [← mask_eq] at h64 h128
  exact ⟨_, _, h64, h128,
    (runs_hayahash64 t (ofList v.bytes) v.bytes.length (.ofInt 64 seed)).value_eq,
    (runs_hayahash128 t (ofList v.bytes) v.bytes.length (.ofInt 64 seed)).value_eq⟩

theorem js_streams (seed : ℤ) (calls : List (Call View (Option ℤ)))
    (hok : ∀ v, .update v ∈ calls → v.Valid) (t : Target) : ∃ st log as,
    run PureHasher.hasher (PureHasher.hasher.new seed) calls = pure (pure st, as) ∧
      expectAll PureHasher.meaning t ⟨.ofInt 64 seed, []⟩ calls = some (log, as) := by
  obtain ⟨x, log, as, hrun, hexpect, st, rfl, -⟩ := Refine.Js.faithful.run t seed calls hok
  exact ⟨st, log, as, hrun, hexpect⟩

/-- **The engine is the header**, for every `Uint8Array` and every integer as a seed. -/
theorem js :
    (∀ (v : View) (seed : ℤ), v.Valid → ∀ t : Target, ∃ (x : Word) (y : Hash128),
      hayahash64Pure v seed = pure (val x) ∧ hayahash128Pure v seed = pure ⟨val y.lo, val y.hi⟩ ∧
        value (ofList v.bytes) (hayahash64 t v.bytes.length (.ofInt 64 seed)) = some x ∧
        value (ofList v.bytes) (hayahash128 t v.bytes.length (.ofInt 64 seed)) = some y) ∧
    (∀ (seed : ℤ) (calls : List (Call View (Option ℤ))), (∀ v, .update v ∈ calls → v.Valid) →
      ∀ t : Target, ∃ st log as,
        run PureHasher.hasher (PureHasher.hasher.new seed) calls = pure (pure st, as) ∧
          expectAll PureHasher.meaning t ⟨.ofInt 64 seed, []⟩ calls = some (log, as)) :=
  ⟨fun v seed hv t => js_hashes v hv seed t, fun seed calls hok t => js_streams seed calls hok t⟩

/-- Views of arrays, across the end of the undecided phase; and another input. -/
def views : List (Call View (Option ℤ)) :=
  [.update ⟨ramp 310, 5, 300⟩, .update ⟨ramp 250, 50, 200⟩, .digest64, .reset none,
    .update ⟨ramp 21, 1, 20⟩, .digest128]

theorem valid_views {v : View} (h : .update v ∈ views) : v.Valid := by
  have hcases : v = ⟨ramp 310, 5, 300⟩ ∨ v = ⟨ramp 250, 50, 200⟩ ∨ v = ⟨ramp 21, 1, 20⟩ := by
    simpa [views] using h
  rcases hcases with rfl | rfl | rfl
  · exact ⟨by decide, by decide, by rw [length_ramp]; decide⟩
  · exact ⟨by decide, by decide, by rw [length_ramp]; decide⟩
  · exact ⟨by decide, by decide, by rw [length_ramp]; decide⟩

/-- A long run, under a negative seed. -/
theorem js_long : ∃ st log,
    run PureHasher.hasher (PureHasher.hasher.new (-7)) views =
      pure (pure st, [.word 1531301555554966252,
        .pair ⟨7727514956027064644, 11438573137212537503⟩]) ∧
    expectAll PureHasher.meaning ⟨.x86_64, .gcc, true, .little, .w64⟩ ⟨.ofInt 64 (-7), []⟩ views =
      some (log, [.word 1531301555554966252,
        .pair ⟨7727514956027064644, 11438573137212537503⟩]) := by
  obtain ⟨st, log, as, hrun, hall⟩ := js.2 (-7) views (fun v hv => valid_views hv)
    ⟨.x86_64, .gcc, true, .little, .w64⟩
  have hanswers : (run PureHasher.hasher (PureHasher.hasher.new (-7)) views).map Prod.snd =
    pure [.word 1531301555554966252, .pair ⟨7727514956027064644, 11438573137212537503⟩] := by
      decide +kernel
  rw [hrun] at hanswers
  obtain rfl := Except.ok.inj hanswers
  exact ⟨st, log, hrun, hall⟩

end Hayahash.Main.Js
