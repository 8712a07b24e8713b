import Hayahash.Refine.CSharp
import Hayahash.Refine.Go

/-! # The Go and C# ports are the header

**`go_csharp`**: neither port panics, throws or overflows an `int` on what is a range, the one-shot
functions return the header's values, every run of calls on a streaming object returns what it
should, and its state is the header's after the same updates. -/

namespace Hayahash.Main.GoCSharp

open Hayahash.Lib.ReadProg Hayahash.Lib.Bytes Hayahash.Lib.Checked Hayahash.Lib.Arrays
open Hayahash.Ports.Session Hayahash.Refine.PortStream Hayahash.Refine.Session
open Hayahash.C.Primitives (Word)

theorem go_hashes (w : Width) :
    HashesAs (fun key => Ports.Go.hash64 w (.all key)) (fun key => Ports.Go.hash128 w (.all key))
      (fun key => key.length ≤ w.maxInt) :=
  hashesAs_of_eq (fun _ seed hok => Refine.Go.hash64_eq w (shows_all hok) le_rfl seed)
    (fun _ seed hok => Refine.Go.hash128_eq w (shows_all hok) le_rfl seed)

theorem csharp_hashes :
    HashesAs (fun key => Ports.CSharp.hash64 (.all key))
      (fun key => Ports.CSharp.hash128 (.all key))
      (fun key => key.length ≤ Ports.CSharp.int.maxInt) :=
  hashesAs_of_eq (fun _ seed hok => Refine.CSharp.hash64_eq (shows_all hok) le_rfl seed)
    (fun _ seed hok => Refine.CSharp.hash128_eq (shows_all hok) le_rfl seed)

theorem csharp_ranges :
    HashesRangesAs Ports.CSharp.hash64Range Ports.CSharp.hash128Range Ports.CSharp.int :=
  hashesRangesAs_of_eq (fun seed h hbs => Refine.CSharp.hash64Range_eq h hbs seed)
    (fun seed h hbs => Refine.CSharp.hash128Range_eq h hbs seed)
    (fun seed _ hbs => Refine.CSharp.hash64Range_none hbs seed)
    (fun seed _ hbs => Refine.CSharp.hash128Range_none hbs seed)

/-- **Both ports are the header**, for an `int` of any width in Go. -/
theorem go_csharp (w : Width) :
    (HashesAs (fun key => Ports.Go.hash64 w (.all key)) (fun key => Ports.Go.hash128 w (.all key))
        (fun key => key.length ≤ w.maxInt) ∧
      StreamsAs (Ports.Go.digest w) (.plain fun r s => r.getD s)
        (fun p => p.length ≤ w.maxInt) id) ∧
    (HashesAs (fun key => Ports.CSharp.hash64 (.all key))
        (fun key => Ports.CSharp.hash128 (.all key))
        (fun key => key.length ≤ Ports.CSharp.int.maxInt) ∧
      HashesRangesAs Ports.CSharp.hash64Range Ports.CSharp.hash128Range Ports.CSharp.int ∧
      StreamsAs Ports.CSharp.hasher Ports.CSharp.meaning Ports.CSharp.Input.IsInt id) :=
  ⟨⟨go_hashes w, (Refine.Go.faithful w).streamsAs⟩, csharp_hashes, csharp_ranges,
    Refine.CSharp.faithful.streamsAs⟩

/-- An update with a range that is none, between others. -/
def spans : List (Call Ports.CSharp.Input (Option Word)) :=
  [.update (.span (ramp 300)), .update (.range ⟨ramp 9, 5, 5⟩),
  .update (.range ⟨ramp 250, 50, 200⟩),
    .digest64, .reset none, .update (.span (ramp 20)), .digest128]

theorem isInt_spans {k : Ports.CSharp.Input} (h : .update k ∈ spans) : k.IsInt := by
  have hcases : k = .span (ramp 300) ∨ k = .range ⟨ramp 9, 5, 5⟩ ∨ k = .range ⟨ramp 250, 50, 200⟩ ∨
      k = .span (ramp 20) := by simpa [spans] using h
  rcases hcases with rfl | rfl | rfl | rfl
  · exact (length_ramp 300).le.trans (by decide)
  · exact ⟨(length_ramp 9).le.trans (by decide), by decide, by decide, by decide, by decide⟩
  · exact ⟨(length_ramp 250).le.trans (by decide), by decide, by decide, by decide, by decide⟩
  · exact (length_ramp 20).le.trans (by decide)

/-- Long runs, with an `int` of 64 bits in Go. -/
theorem go_csharp_long :
    (∃ st log, run (Ports.Go.digest ⟨64, by decide⟩) ((Ports.Go.digest ⟨64, by decide⟩).new 7)
        (longRun (some 8)) = pure (st, longAnswers) ∧
      expectAll (.plain fun r s => r.getD s) ⟨.x86_64, .gcc, true, .little, .w64⟩ ⟨7, []⟩
        (longRun (some 8)) = some (log, longAnswers)) ∧
    ∃ st log, run Ports.CSharp.hasher (Ports.CSharp.hasher.new 7) spans =
        pure (st, [.thrown, .word 0xe30c83a19d316809,
          .pair ⟨0xeeb40629b96355c7, 0xb013574087c1d4f5⟩]) ∧
      expectAll Ports.CSharp.meaning ⟨.x86_64, .gcc, true, .little, .w64⟩ ⟨7, []⟩ spans =
        some (log, [.thrown, .word 0xe30c83a19d316809,
          .pair ⟨0xeeb40629b96355c7, 0xb013574087c1d4f5⟩]) := by
  obtain ⟨⟨-, hgo⟩, -, -, hcsharp⟩ := go_csharp ⟨64, by decide⟩
  constructor
  · obtain ⟨st, log, as, hrun, hall, -⟩ := hgo 7 (longRun (some 8))
      (fun k hk => (length_longRun hk).trans (by decide)) ⟨.x86_64, .gcc, true, .little, .w64⟩
    have hanswers : (run (Ports.Go.digest ⟨64, by decide⟩) ((Ports.Go.digest ⟨64, by decide⟩).new 7)
      (longRun (some 8))).map Prod.snd = pure longAnswers := by decide +kernel
    rw [hrun] at hanswers
    obtain rfl := Except.ok.inj hanswers
    exact ⟨st, log, hrun, hall⟩
  · obtain ⟨st, log, as, hrun, hall, -⟩ := hcsharp 7 spans (fun k hk => isInt_spans hk)
      ⟨.x86_64, .gcc, true, .little, .w64⟩
    have hanswers : (run Ports.CSharp.hasher (Ports.CSharp.hasher.new 7) spans).map Prod.snd =
      pure [.thrown, .word 0xe30c83a19d316809,
        .pair ⟨0xeeb40629b96355c7, 0xb013574087c1d4f5⟩] := by decide +kernel
    rw [hrun] at hanswers
    obtain rfl := Except.ok.inj hanswers
    exact ⟨st, log, hrun, hall⟩

end Hayahash.Main.GoCSharp
