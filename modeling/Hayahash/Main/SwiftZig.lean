import Hayahash.Refine.Swift
import Hayahash.Refine.Zig

/-! # The Swift and Zig ports are the header

**`swift_zig`**: nothing in either port traps on what is a range, the one-shot functions return the
header's values, every run of calls on a streaming object returns what it should, and its state is
the header's after the same updates. -/

namespace Hayahash.Main.SwiftZig

open Hayahash.Lib.ReadProg Hayahash.Lib.Bytes Hayahash.Lib.Checked Hayahash.Lib.Arrays
open Hayahash.Ports.Session Hayahash.Refine.PortStream Hayahash.Refine.PortWalk
open Hayahash.Refine.Session

theorem swift_hashes (w : Width) :
    HashesAs (fun key => Ports.Swift.hash64 w (.all key))
      (fun key => Ports.Swift.hash128 w (.all key)) (fun key => key.length ≤ w.maxInt) :=
  hashesAs_of_eq (fun _ seed hok => Refine.Swift.hash64_eq w (shows_all hok) le_rfl seed)
    (fun _ seed hok => Refine.Swift.hash128_eq w (shows_all hok) le_rfl seed)

theorem swift_ranges (w : Width) :
    HashesRangesAs (Ports.Swift.hash64Range w) (Ports.Swift.hash128Range w) w :=
  hashesRangesAs_of_eq (fun seed h hbs => Refine.Swift.hash64Range_eq w h hbs seed)
    (fun seed h hbs => Refine.Swift.hash128Range_eq w h hbs seed)
    (fun seed h hbs => Refine.Swift.hash64Range_none w h hbs seed)
    (fun seed h hbs => Refine.Swift.hash128Range_none w h hbs seed)

/-- The one-shot functions of the Zig port, on slices as long as a `usize` can say. -/
theorem zig_hashes (w : Width) :
    HashesAs (fun key => Ports.Zig.hayahash64 w (.all key))
      (fun key => Ports.Zig.hayahash128 w (.all key)) (fun key => key.length ≤ 2 * w.maxInt + 1) :=
  hashesAs_of_eq (fun _ seed hok => Refine.Zig.hayahash64_eq w (shows_all hok) le_rfl seed)
    (fun _ seed hok => Refine.Zig.hayahash128_eq w (shows_all hok) le_rfl seed)

/-- **Both ports are the header**, for integers of any width. -/
theorem swift_zig (w : Width) :
    (HashesAs (fun key => Ports.Swift.hash64 w (.all key))
        (fun key => Ports.Swift.hash128 w (.all key)) (fun key => key.length ≤ w.maxInt) ∧
      HashesRangesAs (Ports.Swift.hash64Range w) (Ports.Swift.hash128Range w) w ∧
      StreamsAs (Ports.Swift.hasher w) (.plain fun r s => r.getD s) (fun p => p.length ≤ w.maxInt)
        id) ∧
    (HashesAs (fun key => Ports.Zig.hayahash64 w (.all key))
        (fun key => Ports.Zig.hayahash128 w (.all key))
        (fun key => key.length ≤ 2 * w.maxInt + 1) ∧
      StreamsAs (Ports.Zig.hasher w) Ports.Zig.meaning (fun p => p.length ≤ w.maxInt) arrayed) :=
  ⟨⟨swift_hashes w, swift_ranges w, (Refine.Swift.faithful w).streamsAs⟩, zig_hashes w,
    (Refine.Zig.faithful w).streamsAs⟩

/-- Long runs, with integers of 64 bits. -/
theorem swift_zig_long :
    (∃ st log, run (Ports.Swift.hasher ⟨64, by decide⟩) ((Ports.Swift.hasher ⟨64, by decide⟩).new 7)
        (longRun (some 8)) = pure (st, longAnswers) ∧
      expectAll (.plain fun r s => r.getD s) ⟨.x86_64, .gcc, true, .little, .w64⟩ ⟨7, []⟩
        (longRun (some 8)) = some (log, longAnswers)) ∧
    ∃ st log, run (Ports.Zig.hasher ⟨64, by decide⟩)
        ((Ports.Zig.hasher ⟨64, by decide⟩).new (7, .replicate 448 0xaa))
        (longRun (8, .replicate 448 0xaa)) = pure (st, longAnswers) ∧
      expectAll Ports.Zig.meaning ⟨.x86_64, .gcc, true, .little, .w64⟩ ⟨7, []⟩
        (longRun (8, .replicate 448 0xaa)) = some (log, longAnswers) := by
  obtain ⟨⟨-, -, hswift⟩, -, hzig⟩ := swift_zig ⟨64, by decide⟩
  constructor
  · obtain ⟨st, log, as, hrun, hall, -⟩ := hswift 7 (longRun (some 8))
      (fun k hk => (length_longRun hk).trans (by decide)) ⟨.x86_64, .gcc, true, .little, .w64⟩
    have hanswers : (run (Ports.Swift.hasher ⟨64, by decide⟩)
      ((Ports.Swift.hasher ⟨64, by decide⟩).new 7) (longRun (some 8))).map Prod.snd =
        pure longAnswers := by decide +kernel
    rw [hrun] at hanswers
    obtain rfl := Except.ok.inj hanswers
    exact ⟨st, log, hrun, hall⟩
  · obtain ⟨st, log, as, hrun, hall, -⟩ :=
      hzig (7, .replicate 448 0xaa) (longRun (8, .replicate 448 0xaa))
      (fun k hk => (length_longRun hk).trans (by decide)) ⟨.x86_64, .gcc, true, .little, .w64⟩
    have hanswers : (run (Ports.Zig.hasher ⟨64, by decide⟩)
      ((Ports.Zig.hasher ⟨64, by decide⟩).new (7, .replicate 448 0xaa))
        (longRun (8, .replicate 448 0xaa))).map Prod.snd = pure longAnswers := by decide +kernel
    rw [hrun] at hanswers
    obtain rfl := Except.ok.inj hanswers
    exact ⟨st, log, hrun, hall⟩

end Hayahash.Main.SwiftZig
