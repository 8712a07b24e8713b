import Hayahash.Cli.Shell
import Hayahash.Spec.Output
import Hayahash.Spec.Reader
import Hayahash.Spec.Reference

/-! # What `hayasum` is for

An operand names a stream: a file, or what is left of the standard input (`visit`). For each operand
there is either an entry of the checksum list or a complaint, each a line, and each written in some
calls (`Visit.calls`, `Visit.complaintCalls`). A run is these, one operand behind the other
(`Run`). -/

namespace Hayahash.Spec.Shell

open Hayahash.Lib.Bytes (Byte ofList)
open Hayahash.Lib.Libc Hayahash.Lib.Stdio Hayahash.C.Primitives Hayahash.Cli.Stream
  Hayahash.Cli.Shell
open Hayahash.Cli.Output (CString newline Bits)
open Hayahash.Spec.Output Hayahash.Spec.Reader Hayahash.Spec.Reference

variable {size : ℕ}

/-! ### Operands -/

/-- Where the inputs come from: what is left of the standard input, and how many files were
opened. -/
structure Inputs (size : ℕ) where
  stdin : List (Read size)
  opened : ℕ

/-- An operand, and what was found there. -/
structure Visit where
  path : CString
  found : Except ℤ (List Byte)

variable (env : Env size)

/-- **What is found at an operand.** -/
def visit (path : CString) (u : Inputs size) : Visit × Inputs size :=
  if path.bytes = text "-" then (⟨path, content 0 u.stdin⟩, { u with stdin := unread u.stdin })
  else
    match env.fopen u.opened path with
    | .null errno => (⟨path, .error errno⟩, { u with opened := u.opened + 1 })
    | .file reads => (⟨path, content 0 reads⟩, { u with opened := u.opened + 1 })

/-- What is found at some operands, one behind the other. -/
def visits : List CString → Inputs size → List Visit × Inputs size
  | [], u => ([], u)
  | path :: paths, u =>
    let (v, u) := visit env path u
    let (vs, u) := visits paths u
    (v :: vs, u)

theorem dash_noNul : 0 ∉ text "-" := by decide

/-- The operands of a run: without any, the standard input. -/
def operandsOf : List CString → List CString
  | [] => [⟨text "-", dash_noNul⟩]
  | path :: paths => path :: paths

/-! ### Lines -/

/-- The digest that is asked for. -/
def digestOf (seed : Word) (bits : Bits) (data : List Byte) : Digest :=
  match bits with
  | .b64 => .d64 (compact64 (ofList data) data.length seed)
  | .b128 =>
    let d := compact128 (ofList data) data.length seed
    .d128 d.lo d.hi

/-- The entry of an operand that could be read. -/
def Visit.entry (seed : Word) (bits : Bits) (v : Visit) : Option Entry :=
  match v.found with
  | .ok data => some ⟨digestOf seed bits data, v.path.bytes⟩
  | .error _ => none

/-- A complaint: about what, and why. -/
def complaint (label : List Byte) (err : ℤ) : List Byte :=
  text "hayasum: " ++ escapes.escape label ++ text ": " ++ reason env err

/-- The complaint about an operand that could not be read. -/
def Visit.complaint (v : Visit) : Option (List Byte) :=
  match v.found with
  | .ok _ => none
  | .error e => some (Shell.complaint env v.path.bytes e)

/-- Some lines. -/
def listing (ls : List (List Byte)) : List Byte := ls.flatMap (· ++ [newline])

/-- The text of the digests. -/
def digests (seed : Word) (bits : Bits) (vs : List Visit) : List Byte :=
  listing ((vs.filterMap (Visit.entry seed bits)).map render)

/-- The text of the complaints. -/
def complaints (vs : List Visit) : List Byte := listing (vs.filterMap (Visit.complaint env))

theorem listing_append (ls ls' : List (List Byte)) :
    listing (ls ++ ls') = listing ls ++ listing ls' := by
  rw [listing, List.flatMap_append]
  rfl

theorem digests_append (seed : Word) (bits : Bits) (vs vs' : List Visit) :
    digests seed bits (vs ++ vs') = digests seed bits vs ++ digests seed bits vs' := by
  rw [digests, List.filterMap_append, List.map_append, listing_append]
  rfl

theorem complaints_append (vs vs' : List Visit) :
    complaints env (vs ++ vs') = complaints env vs ++ complaints env vs' := by
  rw [complaints, List.filterMap_append, listing_append]
  rfl

/-! ### Calls -/

/-- The calls that write the line of an operand that could be read. -/
def Visit.calls (seed : Word) (bits : Bits) (v : Visit) : List (List Byte) :=
  ((v.entry seed bits).map lineCalls).getD []

/-- The calls that write a complaint: the name byte by byte. -/
def complaintCalls (label : List Byte) (err : ℤ) : List (List Byte) :=
  text "hayasum: " :: (label.map escapes.write ++ [text ": " ++ reason env err ++ [newline]])

/-- The calls that write the complaint about an operand that could not be read. -/
def Visit.complaintCalls (v : Visit) : List (List Byte) :=
  match v.found with
  | .ok _ => []
  | .error e => Shell.complaintCalls env v.path.bytes e

theorem flatten_calls (seed : Word) (bits : Bits) (v : Visit) :
    (v.calls seed bits).flatten = digests seed bits [v] := by
  rw [Visit.calls, digests]
  cases hentry : v.entry seed bits with
  | none => simp [hentry, listing]
  | some e => simp [hentry, listing, flatten_lineCalls]

theorem flatten_complaintCalls (label : List Byte) (err : ℤ) :
    (complaintCalls env label err).flatten = complaint env label err ++ [newline] := by
  have hname : (label.map escapes.write).flatten = escapes.escape label := List.flatMap_def.symm
  simp only [complaintCalls, complaint, List.flatten_cons, List.flatten_append, List.flatten_nil,
    List.append_nil, hname, List.append_assoc]

theorem Visit.flatten_complaintCalls (v : Visit) :
    (v.complaintCalls env).flatten = complaints env [v] := by
  rw [Visit.complaintCalls, complaints]
  cases hfound : v.found with
  | ok data => simp [Visit.complaint, hfound, listing]
  | error e => simp [Visit.complaint, hfound, listing, Shell.flatten_complaintCalls]

/-- The calls that write the lines of some operands. -/
def callsOf (seed : Word) (bits : Bits) (vs : List Visit) : List (List Byte) :=
  vs.flatMap (Visit.calls seed bits)

theorem flatten_callsOf (seed : Word) (bits : Bits) (vs : List Visit) :
    (callsOf seed bits vs).flatten = digests seed bits vs := by
  induction vs with
  | nil => rfl
  | cons v vs ih =>
    have hcons : callsOf seed bits (v :: vs) = v.calls seed bits ++ callsOf seed bits vs := rfl
    rw [hcons, List.flatten_append, flatten_calls, ih, ← digests_append, List.singleton_append]

/-! ### Runs -/

/-- Where the inputs of a process come from. -/
def inputs (p : Proc size) : Inputs size := ⟨p.stdin.reads, p.opened⟩

/-- **One operand**: it is found, and there is an entry of it, or a complaint. -/
structure Step (seed : Word) (bits : Bits) (p : Proc size) (v : Visit) (p' : Proc size) : Prop where
  found : visit env v.path (inputs p) = (v, inputs p')
  stdout : p'.stdout = p.stdout.puts (v.calls seed bits)
  stderr : p'.stderr = p.stderr.puts (v.complaintCalls env)

/-- **Operands, one behind the other**, as long as `stdout` has no error. -/
inductive Run (seed : Word) (bits : Bits) : Proc size → List Visit → Proc size → Prop
  | nil (p : Proc size) : Run seed bits p [] p
  | cons {p p₁ p₂ : Proc size} {v : Visit} {vs : List Visit} (hclean : p.stdout.error = false)
    (hv : Step env seed bits p v p₁) (h : Run seed bits p₁ vs p₂) : Run seed bits p (v :: vs) p₂

variable {env} {seed : Word} {bits : Bits} {p p' : Proc size} {vs : List Visit}

/-- What is found in a run is what there is to be found. -/
theorem Run.visits_eq (h : Run env seed bits p vs p') :
    visits env (vs.map Visit.path) (inputs p) = (vs, inputs p') := by
  induction h with
  | nil p => rfl
  | cons _ hv _ ih =>
    rw [List.map_cons, visits, hv.found]
    dsimp only
    rw [ih]

/-- **The calls of a run**, in order. -/
theorem Run.stdout_eq (h : Run env seed bits p vs p') :
    p'.stdout = p.stdout.puts (callsOf seed bits vs) := by
  induction h with
  | nil p => rfl
  | @cons p p₁ p₂ v vs _ hv _ ih =>
    rw [ih, hv.stdout, ← puts_append]
    rfl

theorem Run.stderr_given (h : Run env seed bits p vs p') :
    p'.stderr.given = p.stderr.given ++ complaints env vs := by
  induction h with
  | nil p => exact (List.append_nil _).symm
  | @cons p p₁ p₂ v vs _ hv _ ih =>
    rw [ih, hv.stderr, given_puts, Visit.flatten_complaintCalls,
      List.append_assoc, ← complaints_append, List.singleton_append]

/-- **Before each operand**, `stdout` had taken all calls so far. -/
theorem Run.clean (h : Run env seed bits p vs p') : ∀ k < vs.length,
    (p.stdout.puts (callsOf seed bits (vs.take k))).error = false := by
  induction h with
  | nil p => exact fun k hk => absurd hk (Nat.not_lt_zero k)
  | @cons p p₁ p₂ v vs hclean hv _ ih =>
    intro k hk
    cases k with
    | zero => exact hclean
    | succ k =>
      have hrest := ih k (Nat.lt_of_succ_lt_succ hk)
      rw [hv.stdout, ← puts_append] at hrest
      exact hrest

end Hayahash.Spec.Shell
