import Hayahash.Lib.Stdio
import Hayahash.Spec.Output

/-! # The writers of `hayasum`, call by call

Over any stream, a line is the calls `lineCalls` (`printDigest_eq`); on a file that takes everything
it is the line of the entry (`print_eq`). -/

namespace Hayahash.Refine.Output

open Hayahash.Lib.Bytes (Byte)
open Hayahash.Lib.Codec Hayahash.Lib.Stdio Hayahash.Cli.Output Hayahash.Spec.Output

theorem labelNeedsEscape_eq : ∀ {s : List Byte}, 0 ∉ s →
    labelNeedsEscape (s ++ [0]) = some (decide (escapes.escape s ≠ s))
  | [], _ => rfl
  | c :: s, h => by
    have hc : c ≠ 0 := fun hc => h (hc ▸ List.mem_cons_self)
    have ih := labelNeedsEscape_eq fun hs => h (List.mem_cons_of_mem c hs)
    rw [List.cons_append, labelNeedsEscape, if_neg hc]
    cases hl : escapes.letter c with
    | some d =>
      have hspecial := letter_isSome.mp (Option.isSome_of_eq_some hl)
      have hchanged : escapes.escape (c :: s) ≠ c :: s := by
        intro heq
        have hnone := Escapes.escape_eq_self_iff.mp heq c List.mem_cons_self
        rw [hl] at hnone
        cases hnone
      rw [if_pos hspecial, decide_eq_true hchanged]
    | none =>
      have hplain : ¬(c = backslash ∨ c = newline ∨ c = carriageReturn) := by
        intro hspecial
        have hsome := letter_isSome.mpr hspecial
        rw [hl] at hsome
        cases hsome
      rw [if_neg hplain, ih, Escapes.escape_cons, Escapes.write_none hl, List.singleton_append]
      simp

section Writers
variable {O : Type} (put : List Byte → O → O)

theorem writeEscaped_eq {s : List Byte} (h : 0 ∉ s) (out : O) :
    writeEscaped put out (s ++ [0]) = some (calls put (s.map escapes.write) out) := by
  induction s generalizing out with
  | nil => rw [List.nil_append, writeEscaped, if_pos rfl, List.map_nil, calls, List.foldl_nil]
  | cons c s ih =>
    have hc : c ≠ 0 := fun hc => h (hc ▸ List.mem_cons_self)
    have hs : 0 ∉ s := fun hs => h (List.mem_cons_of_mem c hs)
    rw [List.cons_append, writeEscaped, if_neg hc, ih hs, ih hs, ih hs, ih hs]
    simp only [calls, List.map_cons, List.foldl_cons, Escapes.write, escapes]
    split_ifs <;> rfl

/-- **The calls for a line.** -/
theorem printDigest_eq (r : Result) (out : O) :
    printDigest put out r.lo r.hi r.bits.toInt r.label.memory =
    some (calls put (lineCalls (entry r)) out) := by
  have hneeds := labelNeedsEscape_eq r.label.noNul
  have hwrite := fun out => writeEscaped_eq put r.label.noNul out
  rw [printDigest, CString.memory, hneeds]
  simp only [Option.bind_eq_bind, Option.bind_some, hwrite, lineCalls, calls_append, entry]
  by_cases hflag : escapes.escape r.label.bytes = r.label.bytes
  · cases hbits : r.bits <;> simp [hflag, Bits.toInt, field, calls]
  · cases hbits : r.bits <;> simp [hflag, Bits.toInt, field, calls]

end Writers

/-! ### On a file -/

theorem calls_fputs (ss : List (List Byte)) (out : File) :
    calls fputs ss out = out ++ ss.flatten := by
  induction ss generalizing out with
  | nil => exact (List.append_nil out).symm
  | cons s ss ih =>
    have hstep : calls fputs (s :: ss) out = calls fputs ss (out ++ s) := rfl
    rw [hstep, ih, List.flatten_cons, List.append_assoc]

/-- **The line of a result.** -/
theorem print_eq (out : File) (r : Result) :
    r.print out = some (out ++ (render (entry r) ++ [newline])) := by
  rw [Result.print, printDigest_eq, calls_fputs, flatten_lineCalls]

theorem name_eq (out : File) (r : Result) :
    writeEscaped fputs out r.label.memory = some (out ++ escapes.escape r.label.bytes) := by
  rw [CString.memory, writeEscaped_eq fputs r.label.noNul, calls_fputs, ← List.flatMap_def]
  rfl

/-- **The lines of some results.** -/
theorem printAll_eq (rs : List Result) : ∀ out : File, printAll out rs =
    some (out ++ ((rs.map entry).map render).flatMap (· ++ [newline])) := by
  induction rs with
  | nil =>
    intro out
    rw [List.map_nil, List.map_nil, List.flatMap_nil, List.append_nil]
    rfl
  | cons r rs ih =>
    intro out
    have hnext : printAll out (r :: rs) = (r.print out).bind fun out => printAll out rs := rfl
    rw [hnext, print_eq, Option.bind_some, ih, List.map_cons, List.map_cons, List.flatMap_cons,
      List.append_assoc]

end Hayahash.Refine.Output
