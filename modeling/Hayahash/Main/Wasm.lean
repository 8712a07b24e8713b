import Hayahash.Refine.Shim

/-! # Hashers on one engine, and one-shot calls between them

**`wasm`**: if the exports wrap the functions of the header and the memory grows when it is asked
to, no copy leaves the memory, no view of a detached buffer is used, and in every run, with any
number of hashers and in any order of calls, every digest is the header's value for what the hasher
has taken. -/

namespace Hayahash.Main.Wasm

open Hayahash.Lib.Bytes Hayahash.Lib.Effects Hayahash.Ports.Session Hayahash.Ports.Wasm
open Hayahash.Ports.Js.PureHasher (BigAnswer)
open Hayahash.Refine.Wasm
open Hayahash.C.Primitives (Target)
open Hayahash.C.Stream (State)

/-- **Every run returns what it should**, by the functions of the header on any target. -/
theorem wasm (A : Api) (t : Target) (rep : List Byte → State → Prop) (hA : Wraps A t rep)
    (host : ℕ → Bool) (hgrow : ∀ n, host n = true) (m : List Byte) (ops : List Op)
    (hops : Known 0 ops) (t' : Target) : ∃ sys logs answers, runAll A host ops ([], .start m) =
    (.ok answers, sys) ∧ expectRun t' [] ops = some (logs, answers) := by
  obtain ⟨answers, sys, hrun, logs, hexpect, -⟩ :=
    (runAll_does hA hgrow t' ops (.start m) .nil hops).run
  exact ⟨sys, logs, answers, hrun, hexpect⟩

/-- Two hashers and a one-shot call between them, on the module of the package: a page of memory, of
which the heap is the upper half. -/
theorem wasm_two : ∃ sys logs answers,
    runAll (Ports.Shim.api ⟨.wasm, .clang, false, .little, .w32⟩ 32768) (fun _ => true)
        [.new 1, .new 2, .call 0 (.update [1, 2, 3]), .call 1 (.update [4]), .hash64 [5] 7,
          .call 0 .digest64, .call 1 .digest128]
        ([], .start (List.replicate 65536 0)) = (.ok answers, sys) ∧
      expectRun ⟨.x86_64, .gcc, true, .little, .w64⟩ []
        [.new 1, .new 2, .call 0 (.update [1, 2, 3]), .call 1 (.update [4]), .hash64 [5] 7,
          .call 0 .digest64, .call 1 .digest128] = some (logs, answers) :=
  wasm _ _ _ (Refine.Shim.wraps ⟨.wasm, .clang, false, .little, .w32⟩ (by decide)) (fun _ => true)
    (fun _ => rfl) (List.replicate 65536 0) _ (by simp [Known]) ⟨.x86_64, .gcc, true, .little, .w64⟩

end Hayahash.Main.Wasm
