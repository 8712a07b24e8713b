import Hayahash.Cli.Args
import Hayahash.Cli.Stream
import Hayahash.Lib.Stdio

/-! # The program `hayasum`

The program shell of `hayasum.c`, from `hayasum_usage` to `main`. The process has its three streams,
`errno` and the read buffer; what the world makes of the calls is `Env` and what is in the streams.

`hayasum_set_binary` does nothing but on Windows. -/

namespace Hayahash.Cli.Shell

open Hayahash.Lib.Bytes (Byte)
open Hayahash.Lib.Libc Hayahash.Lib.Stdio
open Hayahash.C.Primitives Hayahash.C.Stream
open Hayahash.Cli.Stream Hayahash.Cli.Args
open Hayahash.Cli.Output (CString newline carriageReturn writeEscaped printDigest)

/-! ### The process -/

variable {size : ℕ}

/-- What `fopen` gives: `NULL` and `errno`, or a stream. -/
inductive Opened (size : ℕ) where
  | null (errno : ℤ)
  | file (reads : List (Read size))

/-- **The world**: the files, at each call of `fopen`, and the texts of `strerror`, which are no
more than a line; and the version that is built in. -/
structure Env (size : ℕ) where
  fopen : ℕ → CString → Opened size
  strerror : ℤ → CString
  line : ∀ e, newline ∉ (strerror e).bytes ∧ carriageReturn ∉ (strerror e).bytes
  version : CString

/-- **The process.** -/
structure Proc (size : ℕ) where
  stdin : File size
  stdout : Out Byte
  stderr : Out Byte
  errno : ℤ
  iobuf : List Byte
  /-- How often `fopen` was called. -/
  opened : ℕ

/-- The process at its start. -/
def Proc.start (stdin : List (Read size)) (stdout stderr : List Fate) : Proc size where
  stdin := .opened stdin
  stdout := .opened stdout
  stderr := .opened stderr
  errno := 0
  iobuf := List.replicate size 0
  opened := 0

/-- What is on the stack, where nothing was stored yet. -/
structure Frame where
  tok : Tok
  err : List Byte
  /-- `HAYASUM_ERRMAX`. -/
  errmax : err.length = 256
  st : State

/-- A call that writes to `stdout`. -/
def Proc.toStdout (s : List Byte) (p : Proc size) : Proc size :=
  { p with stdout := p.stdout.put s, errno := p.stdout.next.errno.getD p.errno }

/-- A call that writes to `stderr`. -/
def Proc.toStderr (s : List Byte) (p : Proc size) : Proc size :=
  { p with stderr := p.stderr.put s, errno := p.stderr.next.errno.getD p.errno }

/-- `fflush(stdout) != 0`. -/
def Proc.flushStdout (p : Proc size) : Bool × Proc size :=
  (p.stdout.flush.1, { p with
    stdout := p.stdout.flush.2, errno := p.stdout.next.errno.getD p.errno })

/-! ### The program shell -/

/-- **`hayasum_usage`.** -/
def usageText : List Byte := text <|
  "Usage: hayasum [-s SEED] [-b 64|128] [--] [FILE ...]\n" ++
  "  -s, --seed SEED   64-bit seed, decimal or 0x-hex; default 0\n" ++
  "  -b, --bits BITS   digest width: 64 (default) or 128\n" ++
  "  -h, --help        show this help\n" ++
  "  -V, --version     show the version\n" ++
  "With no FILE, or for a FILE of \"-\", read stdin. Options are\n" ++
  "recognized only before the first operand; \"--\" ends them.\n" ++
  "Exit status: 0 ok, 1 I/O error, 2 usage error.\n"

variable (t : Target) (env : Env size)

/-- `err != 0 ? strerror(err) : "I/O error"`. -/
def reason (err : ℤ) : List Byte := if err ≠ 0 then (env.strerror err).bytes else text "I/O error"

/-- **`hayasum_perror`.** -/
def perror (label : List Byte) (err : ℤ) (p : Proc size) : Option (Proc size) := do
  let p := p.toStderr (text "hayasum: ")
  let p ← writeEscaped Proc.toStderr p label
  return p.toStderr (text ": " ++ reason env err ++ [newline])

/-- `clearerr`. -/
def clearerr (f : File size) : File size := ⟨f.reads, false, false⟩

section Run
variable (frame : Frame)

/-- What `hayasum_hash_path` does once the stream was read. -/
def publish (path : CString) (o : Opts) (seen : Seen) (p : Proc size) :
    Option (Bool × Proc size) := do
  if seen.ret = 0 then
    return (false, ← perror env path.memory seen.errno p)
  return (true, ← printDigest Proc.toStdout p seen.lo seen.hi o.bits path.memory)

/-- **`hayasum_hash_path`.** What `fclose` returns is not looked at. -/
def hashPath (path : CString) (o : Opts) (p : Proc size) : Option (Bool × Proc size) := do
  if ← strcmp path.memory (text "-" ++ [0]) then
    let (seen, w) ← hashStream t frame.st ⟨p.iobuf, clearerr p.stdin, 0⟩ o.seed o.bits 0 0
    publish env path o seen { p with stdin := w.file, iobuf := w.iobuf, errno := seen.errno }
  else
    match env.fopen p.opened path with
    | .null errno =>
      return (false, ← perror env path.memory errno { p with errno, opened := p.opened + 1 })
    | .file reads =>
      let (seen, w) ← hashStream t frame.st ⟨p.iobuf, .opened reads, 0⟩ o.seed o.bits 0 0
      publish env path o seen
        { p with iobuf := w.iobuf, errno := seen.errno, opened := p.opened + 1 }

/-- **`hayasum_stdout_failed`.** -/
def stdoutFailed (carried : ℤ) (p : Proc size) : Option (Bool × Proc size) := do
  let (bad, p) := { p with errno := 0 }.flushStdout
  let carried := if p.errno ≠ 0 then p.errno else carried
  let bad := bad || p.stdout.error
  if bad then return (bad, ← perror env (text "standard output" ++ [0]) carried p)
  return (bad, p)

/-- `HAYASUM_EXIT_OK`, `HAYASUM_EXIT_IO` and `HAYASUM_EXIT_USAGE`. -/
inductive Exit where
  | ok
  | io
  | usage
deriving DecidableEq

/-- The loop of `main` over the operands: `status` and `out_err` behind it. -/
def operandLoop (o : Opts) : List CString → Exit → Proc size → Option (Exit × ℤ × Proc size)
  | [], status, p => some (status, 0, p)
  | path :: rest, status, p => do
    let (ok, p) ← hashPath t env frame path o p
    let status := if ok then status else .io
    if p.stdout.error then return (status, p.errno, p)
    operandLoop o rest status p

/-- `main`, when the arguments are read. -/
def runOperands (argv : List CString) (o : Opts) (p : Proc size) : Option (Exit × Proc size) := do
  let (status, p) ← if o.first ≥ argv.length then do
      let (ok, p) ← hashPath t env frame ⟨text "-", by decide⟩ o p
      pure (if ok then Exit.ok else Exit.io, p)
    else pure (Exit.ok, p)
  let (status, outErr, p) ← operandLoop t env frame o (argv.drop o.first) status p
  let (bad, p) ← stdoutFailed env outErr p
  return (if bad then .io else status, p)

/-- `main`, when something is printed and nothing else is done. -/
def printOnly (s : List Byte) (p : Proc size) : Option (Exit × Proc size) := do
  let (bad, p) ← stdoutFailed env 0 (p.toStdout s)
  return (if bad then .io else .ok, p)

/-- **`main`**: the exit status, and what the process leaves. -/
def main (argv : List CString) (p : Proc size) : Option (Exit × Proc size) := do
  let parsed ← parseArgs frame.tok 256 (argv.map some) frame.err
  match parsed.status with
  | .help => printOnly env usageText p
  | .showVersion => printOnly env (text "hayasum " ++ env.version.bytes ++ [newline]) p
  | .usageError =>
    let p := p.toStderr (text "hayasum: " ++ (← cstr parsed.err) ++ [newline])
    return (.usage, p.toStderr (text "Try 'hayasum --help' for more information.\n"))
  | .run => runOperands t env frame argv parsed.opts p

end Run

end Hayahash.Cli.Shell
