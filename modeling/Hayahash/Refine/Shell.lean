import Hayahash.Refine.Output
import Hayahash.Refine.Reader
import Hayahash.Spec.Shell

/-! # The program shell, function by function

* `perror_eq`: the calls that write a complaint.
* `hashPath_step`: an operand is one step of the run.
* `operandLoop_run`: the loop is a run over the operands, or over those before `stdout` broke.
* `stdoutFailed_eq`: what was deferred is found out. -/

namespace Hayahash.Refine.Shell

open Hayahash.Lib.Bytes (Byte ofList)
open Hayahash.Lib.Codec Hayahash.Lib.Libc Hayahash.Lib.Stdio
open Hayahash.C.Primitives Hayahash.C.Walk
open Hayahash.Cli.Stream (Read File Seen)
open Hayahash.Cli.Args (Opts)
open Hayahash.Cli.Shell
open Hayahash.Cli.Output (CString newline Bits Result)
open Hayahash.Spec.Output Hayahash.Spec.Reader Hayahash.Spec.Shell Hayahash.Spec.Reference
open Hayahash.Refine.Output Hayahash.Refine.Reader

variable {size : ℕ} {t : Target} {env : Env size} {frame : Frame}

/-! ### Calls that write -/

theorem toStdout_calls (ss : List (List Byte)) (p : Proc size) :
    (calls Proc.toStdout ss p).stdout = p.stdout.puts ss ∧
    (calls Proc.toStdout ss p).stderr = p.stderr ∧
    inputs (calls Proc.toStdout ss p) = inputs p := by
  induction ss generalizing p with
  | nil => exact ⟨rfl, rfl, rfl⟩
  | cons s ss ih => exact ih (p.toStdout s)

theorem toStderr_calls (ss : List (List Byte)) (p : Proc size) :
    (calls Proc.toStderr ss p).stderr = p.stderr.puts ss ∧
    (calls Proc.toStderr ss p).stdout = p.stdout ∧
    inputs (calls Proc.toStderr ss p) = inputs p := by
  induction ss generalizing p with
  | nil => exact ⟨rfl, rfl, rfl⟩
  | cons s ss ih => exact ih (p.toStderr s)

/-- **A complaint is one line**, and nothing else. -/
theorem perror_eq (env : Env size) {s : List Byte} (h : 0 ∉ s) (err : ℤ) (p : Proc size) :
    perror env (s ++ [0]) err p = some (calls Proc.toStderr (complaintCalls env s err) p) := by
  have hwrite := fun p : Proc size => writeEscaped_eq Proc.toStderr h p
  rw [perror]
  simp only [hwrite, Option.bind_eq_bind, Option.bind_some]
  rw [complaintCalls, ← List.singleton_append (l := _ ++ _), calls_append, calls_append]
  rfl

/-! ### Operands -/

variable {o : Opts} {seed : Word} {bits : Bits} {p : Proc size}

/-- **What is told of an operand**: its line on `stdout`, or a complaint on `stderr`. -/
structure Told (env : Env size) (seed : Word) (bits : Bits) (p : Proc size) (v : Visit)
    (p' : Proc size) : Prop where
  stdout : p'.stdout = p.stdout.puts (v.calls seed bits)
  stderr : p'.stderr = p.stderr.puts (v.complaintCalls env)
  inputs : inputs p' = inputs p

theorem Told.step {v : Visit} {p₀ p p' : Proc size} (h : Told env seed bits p v p')
    (hfound : visit env v.path (Spec.Shell.inputs p₀) = (v, Spec.Shell.inputs p))
    (hout : p.stdout = p₀.stdout) (herr : p.stderr = p₀.stderr) : Step env seed bits p₀ v p' where
  found := by rw [h.inputs, hfound]
  stdout := by rw [h.stdout, hout]
  stderr := by rw [h.stderr, herr]

theorem perror_told (env : Env size) (seed : Word) (bits : Bits) (path : CString) (e : ℤ)
    (p : Proc size) : ∃ p', perror env path.memory e p = some p' ∧
      Told env seed bits p ⟨path, .error e⟩ p' := by
  obtain ⟨herr, hout, hin⟩ := toStderr_calls (complaintCalls env path.bytes e) p
  exact ⟨_, perror_eq env path.noNul e p, hout, herr, hin⟩

theorem entry_published {seen : Seen} {data : List Byte} (path : CString)
    (h : ⟨seen.lo, seen.hi⟩ = published seed bits.toInt data) :
    entry ⟨seen.lo, seen.hi, bits, path⟩ = ⟨digestOf seed bits data, path.bytes⟩ := by
  obtain ⟨hlo, hhi⟩ := Hash128.mk.inj h
  rw [hlo, hhi]
  cases bits <;> rfl

/-- **What is published of an operand**: its line, or a complaint. -/
theorem publish_told (env : Env size) (hbits : o.bits = bits.toInt) (path : CString)
    {found : Except ℤ (List Byte)} {seen : Seen} {lo hi : Word}
    (h : Sees seed bits.toInt lo hi found seen) (p : Proc size) : ∃ p',
      publish env path o seen p = some (found.isOk, p') ∧ Told env seed bits p
        ⟨path, found⟩ p' := by
  cases found with
  | error e =>
    obtain rfl : seen = ⟨0, lo, hi, e⟩ := h
    obtain ⟨p', hrun, htold⟩ := perror_told env seed bits path e p
    refine ⟨p', ?_, htold⟩
    rw [publish, if_pos rfl, hrun]
    rfl
  | ok data =>
    obtain ⟨hret, hwords⟩ : seen.ret = 1 ∧ ⟨seen.lo, seen.hi⟩ = published seed bits.toInt data := h
    have hprint := printDigest_eq Proc.toStdout ⟨seen.lo, seen.hi, bits, path⟩ p
    rw [entry_published path hwords] at hprint
    obtain ⟨hout, herr, hin⟩ := toStdout_calls (lineCalls ⟨digestOf seed bits data, path.bytes⟩) p
    refine ⟨_, ?_, hout, herr, hin⟩
    rw [publish, if_neg (by rw [hret]; exact one_ne_zero), hbits, hprint]
    rfl

variable (t frame)

/-- **An operand is one step.** -/
theorem hashPath_step (B : Buffer t) (env : Env B.size) (hseed : o.seed = seed)
    (hbits : o.bits = bits.toInt)
    (path : CString) (p : Proc B.size) : ∃ v p', hashPath t env frame path o p =
    some (v.found.isOk, p') ∧ v.path = path ∧ Step env seed bits p v p' := by
  have hcmp : strcmp path.memory (text "-" ++ [0]) = some (decide (path.bytes = text "-")) :=
    strcmp_eq path.noNul dash_noNul
  rw [hashPath, hcmp, hseed, hbits]
  by_cases hdash : path.bytes = text "-"
  · obtain ⟨seen, w, hrun, hleft, hsees⟩ :=
      hashStream_content B p.stdin.reads frame.st p.iobuf 0 seed bits.toInt 0 0
    have hclear : clearerr p.stdin = .opened p.stdin.reads := rfl
    obtain ⟨p', hpublish, htold⟩ := publish_told env hbits path hsees
      { p with stdin := w.file, iobuf := w.iobuf, errno := seen.errno }
    refine ⟨⟨path, content 0 p.stdin.reads⟩, p', ?_, rfl, htold.step ?_ rfl rfl⟩
    · simp only [hdash, decide_true, if_true, hclear, hrun, Option.bind_eq_bind,
        Option.bind_some, hpublish]
    · rw [visit, if_pos hdash, inputs, inputs, hleft]
  · cases hopen : env.fopen p.opened path with
    | null e =>
      obtain ⟨p', hperror, htold⟩ := perror_told env seed bits path e
        { p with errno := e, opened := p.opened + 1 }
      refine ⟨⟨path, .error e⟩, p', ?_, rfl, htold.step ?_ rfl rfl⟩
      · simp [hdash, hperror, Except.isOk, Except.toBool]
      · have hnth : (inputs p).opened = p.opened := rfl
        rw [visit, if_neg hdash, hnth, hopen]
        rfl
    | file reads =>
      obtain ⟨seen, w, hrun, -, hsees⟩ :=
        hashStream_content B reads frame.st p.iobuf 0 seed bits.toInt 0 0
      obtain ⟨p', hpublish, htold⟩ := publish_told env hbits path hsees
        { p with iobuf := w.iobuf, errno := seen.errno, opened := p.opened + 1 }
      refine ⟨⟨path, content 0 reads⟩, p', ?_, rfl, htold.step ?_ rfl rfl⟩
      · simp only [hdash, decide_false, Bool.false_eq_true, if_false, hrun, Option.bind_eq_bind,
          Option.bind_some, hpublish]
      · have hnth : (inputs p).opened = p.opened := rfl
        rw [visit, if_neg hdash, hnth, hopen]
        rfl

/-- The status behind some operands. -/
def statusOf (status : Exit) (vs : List Visit) : Exit :=
  if vs.all fun v => v.found.isOk then status else .io

/-- **The loop is a run** over the operands, all of them or as far as `stdout` took it. -/
theorem operandLoop_run (B : Buffer t) {env : Env B.size} (hseed : o.seed = seed)
    (hbits : o.bits = bits.toInt) (paths : List CString) : ∀ (status : Exit) (p : Proc B.size),
      p.stdout.error = false → ∃ e vs p', operandLoop t env frame o paths status p =
          some (statusOf status vs, e, p') ∧
        Run env seed bits p vs p' ∧ vs.map Visit.path <+: paths ∧
        (vs.length < paths.length → p'.stdout.error = true) := by
  induction paths with
  | nil =>
      exact fun status p _ => ⟨0, [], p, rfl, .nil p, List.prefix_rfl, fun h => absurd h (by simp)⟩
  | cons path paths ih =>
    intro status p hclean
    obtain ⟨v, p₁, hrun, hpath, hstep⟩ := hashPath_step t frame B env hseed hbits path p
    rw [operandLoop, hrun]
    simp only [Option.bind_eq_bind, Option.bind_some]
    have hstatus : ∀ vs, statusOf (if v.found.isOk then status else .io) vs =
      statusOf status (v :: vs) := by
      intro vs
      by_cases hok : v.found.isOk = true
      · simp [statusOf, hok]
      · simp [statusOf, hok]
    by_cases herror : p₁.stdout.error = true
    · refine ⟨p₁.errno, [v], p₁, ?_, .cons hclean hstep (.nil p₁), ?_, fun _ => herror⟩
      · rw [if_pos herror, ← hstatus []]
        rfl
      · exact ⟨paths, by rw [List.map_singleton, hpath, List.singleton_append]⟩
    · obtain ⟨e, vs, p', hloop, hruns, hprefix, hbroken⟩ :=
        ih (if v.found.isOk then status else .io) p₁
        (Bool.eq_false_iff.mpr herror)
      refine ⟨e, v :: vs, p', ?_, .cons hclean hstep hruns, ?_, fun h => hbroken ?_⟩
      · rw [if_neg herror, hloop, hstatus]
      · rw [List.map_cons, hpath]
        exact (List.prefix_cons_inj path).mpr hprefix
      · exact Nat.lt_of_succ_lt_succ h

/-! ### The end -/

/-- **What was deferred is found out**: `stdout` is flushed, and there is a complaint if something
went wrong now or before. -/
theorem stdoutFailed_eq (env : Env size) (carried : ℤ) (p : Proc size) : ∃ p',
    stdoutFailed env carried p = some (p.stdout.flush.1 || p.stdout.flush.2.error, p') ∧
      p'.stdout = p.stdout.flush.2 ∧ inputs p' = inputs p ∧ ∃ e, p'.stderr.given = p.stderr.given ++
        (if p.stdout.flush.1 || p.stdout.flush.2.error then
          complaint env (text "standard output") e ++ [newline] else []) := by
  let q : Proc size := { p with errno := p.stdout.next.errno.getD 0, stdout := p.stdout.flush.2 }
  let bad := p.stdout.flush.1 || p.stdout.flush.2.error
  have hunfold : stdoutFailed env carried p =
      if bad then (perror env (text "standard output" ++ [0])
        (if q.errno ≠ 0 then q.errno else carried) q).bind fun p' => some (bad, p')
      else some (bad, q) := rfl
  have hlabel : 0 ∉ text "standard output" := by decide
  generalize (if q.errno ≠ 0 then q.errno else carried) = e at hunfold
  obtain ⟨herr, hout, hin⟩ := toStderr_calls (complaintCalls env (text "standard output") e) q
  rw [hunfold]
  by_cases hbad : bad = true
  · refine ⟨_, by rw [if_pos hbad, perror_eq env hlabel e q, Option.bind_some], hout, hin, e, ?_⟩
    rw [if_pos hbad, herr, given_puts, flatten_complaintCalls]
  · exact ⟨q, if_neg hbad, rfl, rfl, 0, by rw [if_neg hbad, List.append_nil]⟩

end Hayahash.Refine.Shell
