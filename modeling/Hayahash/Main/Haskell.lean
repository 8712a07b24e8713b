import Hayahash.Refine.Haskell
import Hayahash.Refine.Oneshot

/-! # The Haskell port is the header

**`haskell`**: updates act on the reachable hashers as concatenation does on strings, a hasher of
448 bytes or more holds 128 to 191 of them, and digests are the one-shot values, which are the
header's. -/

namespace Hayahash.Main.Haskell

open Hayahash.Lib.ReadProg Hayahash.Lib.Bytes Hayahash.Lib.Checked
open Hayahash.C.Primitives Hayahash.Ports.Haskell Hayahash.Refine.Oneshot
open Hayahash.Refine.Haskell (Holds newHasher_holds update_holds)

variable {seed : Word} {m : List Byte} {h : Hasher}

theorem exact_upto (n : ℕ) : Ints.exact.Upto ((640 + n : ℕ) : ℤ) := Ints.exact_upto _

theorem reachable_holds (hr : Reachable .exact seed m h) : Holds seed m h := by
  induction hr with
  | new => exact newHasher_holds seed
  | @update m c h h' _ hu ih => exact (update_holds (exact_upto c.length) ih le_rfl).get hu

/-- **Updates are an action of the strings** on the reachable hashers, and digests do not depend on
how the bytes were cut. -/
theorem haskell (hr : Reachable .exact seed m h) :
    update .exact h [] = pure h ∧
    (∀ a b, ∃ h₁ h₂, update .exact h a = pure h₁ ∧ update .exact h₁ b = pure h₂ ∧
      update .exact h (a ++ b) = pure h₂) ∧
    (448 ≤ m.length → h.bulk = true ∧ 128 ≤ h.buffer.length ∧ h.buffer.length ≤ 191) ∧
    ∀ t : Target, ∃ x y, digest64 .exact h = pure x ∧ hayahash64 .exact m seed = pure x ∧
      digest128 .exact h = pure y ∧ hayahash128 .exact m seed = pure y ∧
      value (ofList m) (C.Oneshot.hayahash64 t m.length seed) = some x ∧
      value (ofList m) (C.Oneshot.hayahash128 t m.length seed) = some y := by
  have hh := reachable_holds hr
  have h64 := Refine.Haskell.digest64_eq (exact_upto 0) hh (by decide)
  have h128 := Refine.Haskell.digest128_eq (exact_upto 0) hh (by decide)
  have hone64 := Refine.Haskell.hayahash64_eq (exact_upto m.length) (c := m) (by omega) seed
  have hone128 := Refine.Haskell.hayahash128_eq (exact_upto m.length) (c := m) (by omega) seed
  refine ⟨rfl, fun a b => ?_, fun hm => ?_, fun t => ⟨_, _, h64, hone64, h128, hone128,
    (runs_hayahash64 t (ofList m) m.length seed).value_eq,
    (runs_hayahash128 t (ofList m) m.length seed).value_eq⟩⟩
  · exact Refine.Haskell.update_append (exact_upto (a ++ b).length) hh le_rfl
  · have hwin := hh.window hm
    exact ⟨hh.bulk_iff.mpr hm, hwin.1, by omega⟩

/-- Three updates that come to 600 bytes, across the end of the undecided phase, and two more. -/
theorem haskell_three : ∃ h,
    [ramp 300, ramp 200, ramp 100].foldlM (update .exact) (newHasher 7) = pure h ∧
    h.bulk = true ∧ 128 ≤ h.buffer.length ∧ h.buffer.length ≤ 191 ∧
    (∃ h₁ h₂, update .exact h (ramp 30) = pure h₁ ∧ update .exact h₁ (ramp 500) = pure h₂ ∧
      update .exact h (ramp 30 ++ ramp 500) = pure h₂) ∧
    digest64 .exact h = pure 0xa28fb9ad26c41ddd ∧
    value (ofList (ramp 300 ++ ramp 200 ++ ramp 100)) (C.Oneshot.hayahash64
      ⟨.x86_64, .gcc, true, .little, .w64⟩ (ramp 300 ++ ramp 200 ++ ramp 100).length 7) =
        some 0xa28fb9ad26c41ddd := by
  obtain ⟨h₁, hu₁, hh₁⟩ := update_holds (exact_upto (ramp 300).length) (newHasher_holds 7) le_rfl
  obtain ⟨h₂, hu₂, hh₂⟩ := update_holds (exact_upto (ramp 200).length) hh₁ le_rfl
  obtain ⟨h, hu, -⟩ := update_holds (exact_upto (ramp 100).length) hh₂ le_rfl
  have hrun : [ramp 300, ramp 200, ramp 100].foldlM (update .exact) (newHasher 7) = pure h := by
    rw [List.foldlM_cons, hu₁, pure_bind, List.foldlM_cons, hu₂, pure_bind, List.foldlM_cons, hu]
    rfl
  have hdigest : digest64 .exact h = pure 0xa28fb9ad26c41ddd := by
    have hvalue : ([ramp 300, ramp 200, ramp 100].foldlM (update .exact) (newHasher 7) >>=
        digest64 .exact) = pure 0xa28fb9ad26c41ddd := by decide +kernel
    rwa [hrun] at hvalue
  have hreach : Reachable .exact 7 (ramp 300 ++ ramp 200 ++ ramp 100) h :=
    .update (.update (.update .new hu₁) hu₂) hu
  obtain ⟨-, hsplit, hlong, heq⟩ := haskell hreach
  obtain ⟨hbulk, hlo, hhi⟩ := hlong (by simp only [List.length_append, length_ramp]; decide)
  obtain ⟨x, y, hx, -, -, -, hc, -⟩ := heq ⟨.x86_64, .gcc, true, .little, .w64⟩
  rw [hdigest] at hx
  rw [← Except.ok.inj hx] at hc
  exact ⟨h, hrun, hbulk, hlo, hhi, hsplit _ _, hdigest, hc⟩

end Hayahash.Main.Haskell
