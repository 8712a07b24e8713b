import Hayahash.C.Stream

/-! # The reader of `hayasum`

`hayasum_hash_stream` of `hayasum.c`. A stream is what the reads of it deliver, one behind the
other: the bytes, and which flags are set then; a read that finds nothing left to deliver is short
and sets no flag. The flags stay set. -/

namespace Hayahash.Cli.Stream

open Hayahash.Lib.ReadProg Hayahash.Lib.Bytes Hayahash.C.Primitives Hayahash.C.Stream

/-- `EIO`. -/
def EIO : ℤ := 5

/-! ### Streams -/

/-- What a call of `fread` for `size` bytes delivers: as many, or fewer; only a short read sets a
flag. -/
structure Read (size : ℕ) where
  bytes : List Byte
  eof : Bool
  error : Bool
  /-- What the read sets `errno` to, if it does. -/
  errno : Option ℤ
  le : bytes.length ≤ size
  short : eof = true ∨ error = true → bytes.length < size

/-- A `FILE` to read from: what is still to come, and the flags. -/
structure File (size : ℕ) where
  reads : List (Read size)
  eof : Bool
  error : Bool

/-- A stream that was not read yet. -/
def File.opened {size : ℕ} (reads : List (Read size)) : File size := ⟨reads, false, false⟩

variable {size : ℕ}

/-- What a call leaves: the buffer, the stream, and `errno`. -/
structure World (size : ℕ) where
  iobuf : List Byte
  file : File size
  errno : ℤ

/-- `fread(hayasum_iobuf, 1, sizeof hayasum_iobuf, in)`. -/
def fread (w : World size) : ℕ × World size :=
  match w.file.reads with
  | [] => (0, w)
  | r :: rs => (r.bytes.length,
    { iobuf := r.bytes ++ w.iobuf.drop r.bytes.length
      file := ⟨rs, w.file.eof || r.eof, w.file.error || r.error⟩
      errno := r.errno.getD w.errno })

/-! ### `hayasum_hash_stream` -/

/-- How the loop is left: by `return 0` or by `break`. -/
inductive Left where
  | failed (errno : ℤ)
  | ended (st : State) (errno : ℤ)

variable (t : Target)

/-- `for (;;)`, for so many iterations; stuck after them. -/
def readLoop : ℕ → State → World size → Option (Left × World size)
  | 0, _, _ => none
  | fuel + 1, st, w => do
    let (n, w) := fread w
    let st ← if n > 0 then value (ofList w.iobuf) (hayahash64Update t st n) else some st
    if n = size then readLoop fuel st w
    else if w.file.error then return (.failed w.errno, w)
    else if w.file.eof then return (.ended st w.errno, w)
    else if n = 0 then return (.failed EIO, w)
    else readLoop fuel st w

/-- What the caller sees: the value returned, `*lo`, `*hi` and `errno`. -/
structure Seen where
  ret : ℤ
  lo : Word
  hi : Word
  errno : ℤ

/-- **`hayasum_hash_stream`**, with what is in `st`, `*lo` and `*hi` before, and what it leaves of
the stream. A loop of a finite stream reads it to its end once, and finds nothing left once more. -/
def hashStream (st : State) (w : World size) (seed : Word) (bits : ℤ) (lo hi : Word) :
    Option (Seen × World size) := do
  let st := hayahash64Init st seed
  match ← readLoop t (w.file.reads.length + 1) st w with
  | (.failed errno, w) => return (⟨0, lo, hi, errno⟩, w)
  | (.ended st errno, w) =>
    if bits = 128 then
      let dig ← value (bufMem st.buf) (hayahash128Digest t st)
      return (⟨1, dig.lo, dig.hi, errno⟩, w)
    else
      let lo ← value (bufMem st.buf) (hayahash64Digest t st)
      return (⟨1, lo, 0, errno⟩, w)

end Hayahash.Cli.Stream
