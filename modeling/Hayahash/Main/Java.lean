import Hayahash.Refine.Java

/-! # The Java port is the header

**`java`**: on a range of an array the one-shot functions overflow no index, read nothing but the
range and return the header's values; an update with what is no range throws and leaves the state as
it is, and every run of calls on a `Hasher` returns what it should. -/

namespace Hayahash.Main.Java

open Hayahash.Lib.ReadProg Hayahash.Lib.Bytes Hayahash.Lib.Checked Hayahash.Lib.Arrays
open Hayahash.C.Primitives Hayahash.Ports.Session Hayahash.Ports.Java Hayahash.Refine.Session

theorem java_ranges : HashesRangesAs (fun key => hash64Range (.all key))
    (fun key => hash128Range (.all key)) int :=
  hashesRangesAs_of_eq (fun seed h hbs => Refine.Java.hash64Range_eq h hbs seed)
    (fun seed h hbs => Refine.Java.hash128Range_eq h hbs seed)
    (fun seed _ hbs => Refine.Java.hash64Range_none hbs seed _ rfl)
    (fun seed _ hbs => Refine.Java.hash128Range_none hbs seed _ rfl)

theorem java_hashes : HashesAs hash64 hash128 (fun key => key.length ≤ int.maxInt) :=
  hashesAs_of_eq (fun _ seed hok => Refine.Java.hash64_eq hok seed)
    (fun _ seed hok => Refine.Java.hash128_eq hok seed)

/-- **The port is the header.** -/
theorem java :
    HashesAs hash64 hash128 (fun key => key.length ≤ int.maxInt) ∧
    HashesRangesAs (fun key => hash64Range (.all key)) (fun key => hash128Range (.all key)) int ∧
    -- nothing but the range is read
    (∀ (r : Range) (bs : List Byte) (seed : Word), r.IsInt int → r.bytes = some bs →
      hash64Range ⟨r.data, r.offset, r.length⟩ r.offset r.length seed =
          hash64Range (.all r.data) r.offset r.length seed ∧
        hash128Range ⟨r.data, r.offset, r.length⟩ r.offset r.length seed =
          hash128Range (.all r.data) r.offset r.length seed) ∧
    (∀ (r : Range) (st : Hasher), r.IsInt int → r.bytes = none →
      hasher.update st r = pure (st, [.thrown])) ∧
    StreamsAs hasher meaning (Range.IsInt int) id := by
  refine ⟨java_hashes, java_ranges, fun r bs seed h hbs => ⟨?_, ?_⟩,
    fun r st h hbs => Refine.Java.update_none h hbs st, Refine.Java.faithful.streamsAs⟩
  · rw [Refine.Java.hash64Range_fenced h hbs, Refine.Java.hash64Range_eq h hbs]
  · rw [Refine.Java.hash128Range_fenced h hbs, Refine.Java.hash128Range_eq h hbs]

/-- An update with a range that is none, between others. -/
def ranges : List (Call Range (Option Word)) :=
  [.update ⟨ramp 300, 0, 300⟩, .update ⟨ramp 9, 5, 5⟩, .update ⟨ramp 250, 50, 200⟩, .digest64,
    .reset none, .update ⟨ramp 21, 1, 20⟩, .digest128]

theorem isInt_ranges {k : Range} (h : .update k ∈ ranges) : k.IsInt int := by
  have hcases : k = ⟨ramp 300, 0, 300⟩ ∨ k = ⟨ramp 9, 5, 5⟩ ∨ k = ⟨ramp 250, 50, 200⟩ ∨
      k = ⟨ramp 21, 1, 20⟩ := by simpa [ranges] using h
  rcases hcases with rfl | rfl | rfl | rfl
  · exact ⟨(length_ramp 300).le.trans (by decide), by decide, by decide, by decide, by decide⟩
  · exact ⟨(length_ramp 9).le.trans (by decide), by decide, by decide, by decide, by decide⟩
  · exact ⟨(length_ramp 250).le.trans (by decide), by decide, by decide, by decide, by decide⟩
  · exact ⟨(length_ramp 21).le.trans (by decide), by decide, by decide, by decide, by decide⟩

/-- A long run, in which an update is rejected. -/
theorem java_long : ∃ st log, run hasher (hasher.new 7) ranges =
      pure (st, [.thrown, .word 0xe30c83a19d316809,
        .pair ⟨0x74dd3bb32616a2f2, 0xb89cdb5b6207e797⟩]) ∧
    expectAll meaning ⟨.x86_64, .gcc, true, .little, .w64⟩ ⟨7, []⟩ ranges =
      some (log, [.thrown, .word 0xe30c83a19d316809,
        .pair ⟨0x74dd3bb32616a2f2, 0xb89cdb5b6207e797⟩]) := by
  obtain ⟨st, log, as, hrun, hall, -⟩ := java.2.2.2.2 7 ranges (fun k hk => isInt_ranges hk)
    ⟨.x86_64, .gcc, true, .little, .w64⟩
  have hanswers : (run hasher (hasher.new 7) ranges).map Prod.snd = pure [.thrown,
    .word 0xe30c83a19d316809, .pair ⟨0x74dd3bb32616a2f2, 0xb89cdb5b6207e797⟩] := by decide +kernel
  rw [hrun] at hanswers
  obtain rfl := Except.ok.inj hanswers
  exact ⟨st, log, hrun, hall⟩

end Hayahash.Main.Java
