import Hayahash.C.Oneshot
import Hayahash.Cli.Output
import Hayahash.Lib.Libc
import Hayahash.Lib.Stdio

/-! # The generator of the corpus

`tests/differential/generate.c`: from a number, cases of pseudorandom bytes, and the digests of the
header for them, in a file. The environment decides what becomes of the file and of the memory that
is asked for; what is printed on `stderr` is the text. -/

namespace Hayahash.Cli.Generate

open Hayahash.Lib.Bytes (Byte ofList)
open Hayahash.Lib.ReadProg (value)
open Hayahash.Lib.Libc Hayahash.Lib.Stdio Hayahash.C.Primitives Hayahash.Cli.Output

/-! ### Constants -/

/-- `EXHAUSTIVE_LAST_LENGTH`. -/
def exhaustiveLastLength : ℕ := 384

/-- `MIN_CASES`. -/
def minCases : ℕ := 406

/-- `DEFAULT_CASES`. -/
def defaultCases : ℕ := 32768

/-- `MAX_CASES`. -/
def maxCases : ℕ := 1000000

/-- `MAX_RANDOM_LENGTH`. -/
def maxRandomLength : ℕ := 131073

def largeEdges : List ℕ := [
  511, 512, 513,
  1023, 1024, 1025,
  4095, 4096, 4097,
  16383, 16384, 16385,
  32767, 32768, 32769,
  65535, 65536, 65537,
  131071, 131072, 131073]

def dispatchBoundaries : List ℕ := [
  1, 4, 8, 16, 17, 32, 48, 64, 80, 96, 112, 128,
  144, 160, 176, 192, 224, 256, 288, 320, 384, 512,
  1024, 4096, 16384, 32768, 65536, 131072]

/-! ### Pseudorandom words -/

/-- `prng_next`: a word, and the state behind it. -/
def prngNext (state : Word) : Word × Word :=
  let state := state + 0x9E3779B97F4A7C15
  let z := state
  let z := (z ^^^ (z >>> 30)) * 0xBF58476D1CE4E5B9
  let z := (z ^^^ (z >>> 27)) * 0x94D049BB133111EB
  (z ^^^ (z >>> 31), state)

/-- The length of a case near a boundary. -/
def nearBoundary (boundary : BitVec 32) (delta : BitVec 32) : BitVec 32 :=
  if delta.slt 0 ∧ boundary < -delta then 0
  else
    let candidate : BitVec 32 := .ofInt 32 (boundary.toNat + delta.toInt)
    if candidate > .ofNat 32 maxRandomLength then .ofNat 32 maxRandomLength else candidate

/-- **`case_length`.** -/
def caseLength (caseIndex : BitVec 32) (p : Word) : BitVec 32 × Word :=
  if caseIndex ≤ .ofNat 32 exhaustiveLastLength then (caseIndex, p)
  else
    match largeEdges[(caseIndex - .ofNat 32 (exhaustiveLastLength + 1)).toNat]? with
    | some edge => (.ofNat 32 edge, p)
    | none =>
      let (r, p) := prngNext p
      let (x, p) := prngNext p
      match (r &&& 15).toNat with
      | 0 | 1 | 2 | 3 | 4 | 5 => ((x % 385).setWidth 32, p)
      | 6 | 7 | 8 | 9 | 10 => ((x % 4097).setWidth 32, p)
      | 11 | 12 | 13 => ((x % 16385).setWidth 32, p)
      | 14 =>
        let boundary := dispatchBoundaries.getD (x % .ofNat 64 dispatchBoundaries.length).toNat 0
        let (y, p) := prngNext p
        (nearBoundary (.ofNat 32 boundary) ((y % 15).setWidth 32 - 7), p)
      | _ => ((x % .ofNat 64 (maxRandomLength + 1)).setWidth 32, p)

/-- The inner loop of `fill_random`: `k` more bytes of the word, the next one being byte `i`. -/
def fillWord (len : ℕ) (word : Word) : ℕ → ℕ → ℕ → List Byte → Option (ℕ × List Byte)
  | 0, _, off, buf => some (off, buf)
  | k + 1, i, off, buf =>
    if off < len then do
      let buf ← store buf off ((word >>> (i * 8)).setWidth 8)
      fillWord len word k (i + 1) (off + 1) buf
    else some (off, buf)

/-- The outer loop, of so many turns at most. -/
def fillLoop (len : ℕ) : ℕ → ℕ → List Byte → Word → Option (List Byte × Word)
  | 0, _, _, _ => none
  | fuel + 1, off, buf, p =>
    if off < len then do
      let (word, p) := prngNext p
      let (off, buf) ← fillWord len word 8 0 off buf
      fillLoop len fuel off buf p
    else some (buf, p)

/-- **`fill_random`.** -/
def fillRandom (buf : List Byte) (len : ℕ) (p : Word) : Option (List Byte × Word) :=
  fillLoop len (len + 1) 0 buf p

/-! ### Writing -/

/-- `write_bytes`: whether it went well, and the file. -/
def writeBytes (s : List Byte) (f : Out Byte) : Bool × Out Byte :=
  if s = [] then (true, f) else (!f.next.fails, f.put s)

/-- The bytes of `write_u32le`. -/
def u32le (x : BitVec 32) : List Byte :=
  [x.setWidth 8, (x >>> 8).setWidth 8, (x >>> 16).setWidth 8, (x >>> 24).setWidth 8]

/-- The bytes of `write_u64le`. -/
def u64le (x : Word) : List Byte := (List.range 8).map fun i => (x >>> (i * 8)).setWidth 8

/-- Writes that are joined by `&&`. -/
def writeAll : List (List Byte) → Out Byte → Bool × Out Byte
  | [], f => (true, f)
  | s :: ss, f =>
    match writeBytes s f with
    | (true, f) => writeAll ss f
    | (false, f) => (false, f)

/-! ### Arguments -/

/-- The base that `strtoull` finds for itself, from what is behind the space and the sign. -/
def autoBase (s : List Byte) : Option ℕ := do
  let p ← skipSpace s
  let sign ← p[0]?
  let p := if sign = char '+' ∨ sign = char '-' then p.drop 1 else p
  if (← skip0x p) ≠ p then return 16
  return if p[0]? = some (char '0') then 8 else 10

/-- `parse_u64`: a number, or a message before `exit(2)`. -/
def parseU64 (s : CString) (name : String) : Option (Except (List Byte) Word) := do
  let base ← autoBase s.memory
  let r ← strtoull s.memory base
  if r.erange = true ∨ r.endptr = s.memory ∨ (← r.endptr[0]?) ≠ 0 then
    return .error (text "invalid " ++ text name ++ text ": " ++ s.bytes ++ [newline])
  else return .ok r.value

/-- `parse_count`. -/
def parseCount (s : CString) : Option (Except (List Byte) (BitVec 32)) := do
  match ← parseU64 s "case count" with
  | .error m => return .error m
  | .ok v =>
    if v.toNat < minCases ∨ v.toNat > maxCases then
      return .error (text "case count must be between 406 and 1000000\n")
    else return .ok (v.setWidth 32)

/-- The arguments: the path, the seed and the number of cases. -/
def parseArgs : List CString → Option (Except (List Byte) (CString × Word × BitVec 32))
  | [_, path, seed] => do
    match ← parseU64 seed "PRNG seed" with
    | .error m => return .error m
    | .ok masterSeed => return .ok (path, masterSeed, .ofNat 32 defaultCases)
  | [_, path, seed, count] => do
    match ← parseU64 seed "PRNG seed" with
    | .error m => return .error m
    | .ok masterSeed =>
      match ← parseCount count with
      | .error m => return .error m
      | .ok caseCount => return .ok (path, masterSeed, caseCount)
  | argv => some (.error (text "usage: " ++ (argv.head?.elim [] CString.bytes) ++
      text " OUTPUT PRNG_SEED [CASE_COUNT]\n"))

/-! ### The program -/

/-- **The environment.** -/
structure Env where
  /-- `fopen`: `errno`, or what becomes of the calls that write. -/
  fopen : CString → Except ℤ (List Fate)
  strerror : ℤ → CString
  /-- `realloc`, call by call: `NULL`, or what was in the memory before. -/
  realloc : ℕ → Option (ℕ → Byte)
  /-- Whether the file is closed without an error. -/
  closes : Bool

/-- What `main` has at hand. -/
structure Gen where
  random : Word
  input : List Byte
  /-- How often memory was asked for. -/
  grown : ℕ
  largest : ℕ
  output : Out Byte
  stderr : List Byte

/-- `realloc(input, len)`, of memory that held `fresh`. -/
def regrown (input : List Byte) (len : ℕ) (fresh : ℕ → Byte) : List Byte :=
  input ++ (List.range (len - input.length)).map fun j => fresh (input.length + j)

/-- `%u`. -/
def decimal (n : ℕ) : List Byte := text (toString n)

variable (t : Target) (env : Env)

/-- The message where there is no memory. -/
def cannotAllocate (len : ℕ) : List Byte :=
  text "cannot allocate " ++ decimal len ++ text " input bytes\n"

/-- Room for `len` bytes. -/
def grow (len : ℕ) (g : Gen) : Bool × Gen :=
  if len > g.input.length then
    match env.realloc g.grown with
    | none => (false, { g with
        grown := g.grown + 1
        stderr := g.stderr ++ cannotAllocate len })
    | some fresh => (true, { g with grown := g.grown + 1, input := regrown g.input len fresh })
  else (true, g)

/-- **A turn of the loop of `main`**: whether it goes on. -/
def turn (caseIndex : BitVec 32) (g : Gen) : Option (Bool × Gen) := do
  let (len, random) := caseLength caseIndex g.random
  let (hashSeed, random) := prngNext random
  match grow env len.toNat { g with random := random } with
  | (false, g) => return (false, g)
  | (true, g) =>
    let (input, random) ← fillRandom g.input len.toNat g.random
    let expected ← value (ofList input) (C.Oneshot.hayahash128 t len.toNat hashSeed)
    let (ok, output) := writeAll
      [u32le len, u64le hashSeed, u64le expected.lo, u64le expected.hi,
      input.take len.toNat] g.output
    return (ok, { g with random, input, output, largest := max g.largest len.toNat })

/-- The loop: `k` more cases, from `i` on. -/
def loop : ℕ → ℕ → Gen → Option (Bool × Gen)
  | 0, _, g => some (true, g)
  | k + 1, i, g => do
    match ← turn t env (.ofNat 32 i) g with
    | (true, g) => loop k (i + 1) g
    | (false, g) => return (false, g)

/-- What `main` leaves: the exit status, the file if it was opened, what was printed, and how often
memory was asked for. -/
structure Done where
  status : ℕ
  output : Option (Out Byte)
  stderr : List Byte
  grown : ℕ

/-- Behind `fopen`. -/
def run (path : CString) (masterSeed : Word) (caseCount : BitVec 32) (fates : List Fate) :
    Option Done := do
  let (ok, output) := writeAll [text "HAYAFZ02", u32le caseCount, u64le masterSeed] (.opened fates)
  let g : Gen := ⟨masterSeed, [], 0, 0, output, []⟩
  let (ok, g) ← if ok then loop t env caseCount.toNat 0 g else some (false, g)
  let (failed, output) := g.output.flush
  if ok && !failed && env.closes then
    return ⟨0, some output, g.stderr ++ (text "generated " ++ decimal caseCount.toNat ++
      text " differential cases: PRNG seed=0x" ++ hex016 masterSeed ++ text ", largest input=" ++
      decimal g.largest ++ text " bytes\n"), g.grown⟩
  else return ⟨1, some output,
    g.stderr ++ (text "failed to write corpus " ++ path.bytes ++ [newline]),
    g.grown⟩

/-- **`main`.** -/
def main (argv : List CString) : Option Done := do
  match ← parseArgs argv with
  | .error m => return ⟨2, none, m, 0⟩
  | .ok (path, masterSeed, caseCount) =>
    match env.fopen path with
    | .error e => return ⟨1, none, text "cannot open " ++ path.bytes ++ text ": " ++
        (env.strerror e).bytes ++ [newline], 0⟩
    | .ok fates => run t env path masterSeed caseCount fates

end Hayahash.Cli.Generate
