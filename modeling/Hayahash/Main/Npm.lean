import Hayahash.Main.Refusal
import Hayahash.Refine.Npm

/-! # Programs that use the JavaScript package

**`npm`**: in every run, whichever modules are set in it and whatever memory is refused, every step
returns or throws what it should, by what was passed to its own hasher: a hasher keeps to the engine
it was constructed on, a module that is not one of hayahash changes nothing, and what is refused
memory leaves the digests as they were. -/

namespace Hayahash.Main.Npm

open Hayahash.Lib.Bytes Hayahash.Ports.Session Hayahash.Ports.Npm Hayahash.Refine.Npm
  Hayahash.Refine.Wasm
open Hayahash.Ports.Wasm (Api page)
open Hayahash.Main.Refusal (package firstPage page_le_firstPage package_wraps)
open Hayahash.C.Primitives (Target)
open Hayahash.C.Stream (State)

/-- The modules of a run: the embedded one, and those that are set. -/
def Loads (embedded : Option Exports) (ops : List Op) (m : Option Exports) : Prop :=
  m = embedded ∨ .setWasmModule m ∈ ops

/-- **Every run returns and throws what it should**, by the functions of the header on any target,
if the modules that are accepted wrap them and begin with a page of memory. What is `refused` is so
by the host: where every memory grows when it is asked to, nothing is. -/
theorem npm (t : Target) (tgt : Api → Target) (rep : Api → List Byte → State → Prop)
    (embedded : Option Exports) (ops : List Op)
    (hmodules : ∀ m, Loads embedded ops m → ∀ e, initWasmFromModule m = .ok e →
      Wraps e.api (tgt e.api) (rep e.api) ∧ page ≤ e.inst.bytes.length) :
    ∃ refused : List Bool, refused.length = ops.length ∧
      (true ∈ refused → ∃ m e n, Loads embedded ops m ∧ initWasmFromModule m = .ok e ∧
      e.grows n = false) ∧ ∃ i, idealAll t (refused.zip ops) (.start embedded) =
        some ((runAll ops (start embedded)).1, i) := by
  have hsound : ∀ m, Loads embedded ops m → ∀ e, initWasmFromModule m = .ok e → Sound tgt rep
      (∃ m e n, Loads embedded ops m ∧ initWasmFromModule m = .ok e ∧ e.grows n = false) e := by
    intro m hm e he
    obtain ⟨hwraps, hpage⟩ := hmodules m hm e he
    exact ⟨hwraps, hpage, fun n hn => ⟨m, e, n, hm, he, hn⟩⟩
  exact runAll_fits t ops (start_fits (hsound embedded (.inl rfl))) fun m hm => hsound m (.inr hm)

/-- The exports of the module of the package, in a memory that grows. -/
def packageExports : Exports where
  hayahash64 := some package.hayahash64
  hayahash128 := some package.hayahash128
  stateSize := some package.stateSize
  streamInit := some package.streamInit
  streamUpdate := some package.streamUpdate
  streamDigest := some package.streamDigest
  memory := some ⟨firstPage, fun _ => true⟩
  heapBase := some package.heapBase

/-- A program on a runtime that does not compile modules: a hasher before the module is set and one
after it, and between them an attempt with a module that does not export everything. -/
def switching : List Op :=
  [.getEngine, .new 1, .setWasmModule (some { packageExports with streamDigest := none }),
    .setWasmModule (some packageExports), .getEngine, .new 1, .call 0 (.update [1, 2, 3]),
    .call 1 (.update [1, 2, 3]), .hash64 [5] 7, .call 0 .digest64, .call 1 .digest128, .length 0]

theorem switching_runs : ∃ refused : List Bool, refused.length = switching.length ∧
    (true ∈ refused → ∃ m e n, Loads none switching m ∧ initWasmFromModule m = .ok e ∧
    e.grows n = false) ∧ ∃ i, idealAll ⟨.x86_64, .gcc, true, .little, .w64⟩ (refused.zip switching)
    (.start none) = some ((runAll switching (start none)).1, i) := by
  refine npm ⟨.x86_64, .gcc, true, .little, .w64⟩ (fun _ => ⟨.wasm, .clang, false, .little, .w32⟩)
    (fun _ bs st => Ports.Shim.unlayout bs = st) none switching fun m hm e he => ?_
  -- the one module that is accepted
  have hcases : m = none ∨ m = some { packageExports with streamDigest := none } ∨
      m = some packageExports := by
    rcases hm with rfl | hm
    · exact .inl rfl
    · have hset : m = some { packageExports with streamDigest := none } ∨ m =
        some packageExports := by
        simpa [switching] using hm
      exact .inr hset
  rcases hcases with rfl | rfl | rfl
  · cases he
  · cases he
  · cases he
    exact ⟨package_wraps, page_le_firstPage⟩

end Hayahash.Main.Npm
