import Hayahash.Refine.Rust

/-! # The Rust port is the header

**`rust`**: no index, no range and no arithmetic of the port panics, the one-shot functions return
the header's values, and every run of calls on a `Digest` returns what it should. -/

namespace Hayahash.Main.Rust

open Hayahash.Lib.ReadProg Hayahash.Lib.Bytes Hayahash.Lib.Checked Hayahash.Lib.Arrays
open Hayahash.Ports.Session Hayahash.Refine.PortStream Hayahash.Refine.PortWalk
open Hayahash.Refine.Session

theorem rust_hashes (w : Width) :
    HashesAs (fun key => Ports.Rust.hayahash64 w (.all key))
      (fun key => Ports.Rust.hayahash128 w (.all key)) (fun key => key.length ≤ 2 * w.maxInt + 1) :=
  hashesAs_of_eq (fun _ seed hok => Refine.Rust.hayahash64_eq w (shows_all hok) le_rfl seed)
    (fun _ seed hok => Refine.Rust.hayahash128_eq w (shows_all hok) le_rfl seed)

/-- **The port is the header**, for a `usize` of any width, and chunks as long as an `isize` can
say. -/
theorem rust (w : Width) :
    HashesAs (fun key => Ports.Rust.hayahash64 w (.all key))
        (fun key => Ports.Rust.hayahash128 w (.all key))
        (fun key => key.length ≤ 2 * w.maxInt + 1) ∧
      StreamsAs (Ports.Rust.digest w) (.plain fun r _ => r)
        (fun p => p.length ≤ w.maxInt) arrayed :=
  ⟨rust_hashes w, (Refine.Rust.faithful w).streamsAs⟩

/-- A long run, with a `usize` of 64 bits. -/
theorem rust_long : ∃ st log,
    run (Ports.Rust.digest ⟨64, by decide⟩) ((Ports.Rust.digest ⟨64, by decide⟩).new 7)
    (longRun 8) = pure (st, longAnswers) ∧
    expectAll (.plain fun r _ => r) ⟨.x86_64, .gcc, true, .little, .w64⟩ ⟨7, []⟩ (longRun 8) =
      some (log, longAnswers) := by
  obtain ⟨st, log, as, hrun, hall, -⟩ := (rust ⟨64, by decide⟩).2 7 (longRun 8)
    (fun k hk => (length_longRun hk).trans (by decide)) ⟨.x86_64, .gcc, true, .little, .w64⟩
  have hanswers :
    (run (Ports.Rust.digest ⟨64, by decide⟩) ((Ports.Rust.digest ⟨64, by decide⟩).new 7)
    (longRun 8)).map Prod.snd = pure longAnswers := by decide +kernel
  rw [hrun] at hanswers
  obtain rfl := Except.ok.inj hanswers
  exact ⟨st, log, hrun, hall⟩

end Hayahash.Main.Rust
