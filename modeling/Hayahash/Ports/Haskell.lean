import Hayahash.Ports.Stream

/-! # The Haskell port

`Hayahash.hs`. A `ByteString` is a list of bytes, and `unsafeIndex` outside of it a fault. `I` is
the arithmetic of `Int`, which wraps; over `Ints.exact` the code is what it would be with integers
without bounds. The streaming state is not that of the other ports: it is a value, its buffer is cut
to what it holds, and on the bulk path it is refilled to 192 bytes only. -/

namespace Hayahash.Ports.Haskell

open Hayahash.Lib.Bytes Hayahash.Lib.Checked Hayahash.Lib.Arrays
open Hayahash.C.Primitives (Word Lanes4 Lanes8)
open Hayahash.C.Walk (Hash128)
open Hayahash.Ports.Walk
open Hayahash.Ports.Stream (bufCap keep)

/-! ### Constants and mixers -/

/-- The multipliers. -/
def k : Word := 0x9E3779B97F4A7C15

def m1 : Word := 0x3C79AC492BA7B653

def m2 : Word := 0x1C69B3F74AC4AE35

def n1 : Word := 0xFF51AFD7ED558CCD

def n2 : Word := 0xC4CEB9FE1A85EC53

/-- `bulkMin`. -/
def bulkMin : ℤ := 320

/-- `rotateL`. -/
def rotateL : Word → ℕ → Word := shiftRotl

/-- `fmix`. -/
def fmix : Word → Word := finalizer 27 33 27 m1 m2

/-- `fmix128`. -/
def fmix128 : Word → Word := finalizer 30 31 33 n1 n2

/-- `longAvalanche`. -/
def longAvalanche : Word → Word := avalanche k

/-- `inj`. -/
def inj : Word → Word := injection rotateL 21 41

/-- `inj2`. -/
def inj2 : Word → Word := injection rotateL 11 50

/-- The lanes of `initialLanes`. -/
def iv : Word → Lanes8 := lanes8 k rotateL

/-- What the walk takes of them. -/
def mixers : Mixers where
  k := k
  m1 := m1
  bulkMin := bulkMin
  rotl := rotateL
  fmix := fmix
  fmix128 := fmix128
  longAvalanche := longAvalanche
  inj := inj
  inj2 := inj2
  iv := iv

variable (I : Ints)

/-! ### Loads -/

/-- `fromIntegral (unsafeIndex bytes (off + i))`. -/
def byte (bytes : List Byte) (off i : ℤ) : Chk Word := do
  return (← (View.all bytes).get (← I.add off i)).setWidth 64

/-- `load32LE`. -/
def load32LE (bytes : List Byte) (off : ℤ) : Chk Word := do
  let b0 ← byte I bytes off 0
  let b1 ← byte I bytes off 1
  let b2 ← byte I bytes off 2
  let b3 ← byte I bytes off 3
  return b0 ||| (b1 <<< 8) ||| (b2 <<< 16) ||| (b3 <<< 24)

/-- `load64LE`. -/
def load64LE (bytes : List Byte) (off : ℤ) : Chk Word := do
  let lo ← load32LE I bytes off
  let hi ← load32LE I bytes (← I.add off 4)
  return lo ||| (hi <<< 32)

/-- The loads on a string. -/
def reader (bytes : List Byte) : Reader where
  mix := mixers
  ints := I
  load64 := load64LE I bytes
  load32 := load32LE I bytes
  load8 i := do return (← (View.all bytes).get i).setWidth 64
  fromStart := pure
  fromEnd := I.sub bytes.length

/-! ### One-shot -/

/-- `initialLanes`. -/
def initialLanes (seed : Word) : Lanes8 × Word := (iv (seed ^^^ k), 0)

/-- `absorbBlocks`. -/
def absorbBlocks (bytes : List Byte) (off count : ℤ) (lanes : Lanes8 × Word) :
    Chk (Lanes8 × Word) :=
  downToZero I (block (reader I bytes)) 64 (count.toNat + 1) off count lanes

/-- `midLoop`. -/
def midLoop (bytes : List Byte) (off remaining : ℤ) (s : Lanes4 × Word) :
    Chk ((Lanes4 × Word) × ℤ × ℤ) :=
  whileGe I (round (reader I bytes)) 32 (remaining.toNat + 1) off remaining s

/-- The mid loop, the wall and the tail, as `finishLower` and `finishBulk` have them: the lanes
where the folds begin. -/
def finishLanes (bytes : List Byte) (off remaining : ℤ) (s : Lanes4 × Word) : Chk Lanes4 := do
  let (s, off, remaining) ← midLoop I bytes off remaining s
  tailFromLength (reader I bytes) off remaining (wall mixers s)

/-- `longTerms`, up to the folds. -/
def longTerms (bytes : List Byte) (seed : Word) : Chk Lanes4 := do
  let len : ℤ := bytes.length
  let start := initialLanes seed
  if len ≥ bulkMin then
    let blocks := len / 64 * 64
    let (h, wp) ← absorbBlocks I bytes 0 blocks start
    finishLanes I bytes blocks (← I.sub len blocks) (foldUpper mixers h, wp)
  else
    finishLanes I bytes 0 len (lower start.1, start.2)

/-- **`hayahash64`**. -/
def hayahash64 (bytes : List Byte) (seed : Word) : Chk Word := do
  let s := seed ^^^ k
  if bytes.length ≤ 16 then
    hashShort (reader I bytes) 0 bytes.length s
  else
    return foldLow mixers s (← longTerms I bytes seed) (lenmix mixers bytes.length)

/-- **`hayahash128`**. -/
def hayahash128 (bytes : List Byte) (seed : Word) : Chk Hash128 := do
  let s := seed ^^^ k
  if bytes.length ≤ 16 then
    hash128Short (reader I bytes) 0 bytes.length s
  else
    let h ← longTerms I bytes seed
    return ⟨foldLow mixers s h (lenmix mixers bytes.length),
      foldHigh mixers s h (lenmix mixers bytes.length)⟩

/-! ### Hasher -/

/-- `Hasher`. -/
structure Hasher where
  lanes : Lanes8 × Word
  buffer : List Byte
  seed : Word
  total : Word
  bulk : Bool
deriving DecidableEq

/-- `newHasher`. -/
def newHasher (seed : Word) : Hasher := ⟨initialLanes seed, [], seed, 0, false⟩

/-- `left <> right`, an error where the length of both is negative as an `Int`. -/
def append (left right : List Byte) : Chk (List Byte) := do
  if left.length = 0 then
    return right
  else if right.length = 0 then
    return left
  else if (← I.add left.length right.length) < 0 then
    throw .overflow
  else
    return left ++ right

/-- `copyAppend`. The copy has the bytes of what is copied. -/
def copyAppend (left right : List Byte) : Chk (List Byte) := append I left right

/-- `feedBulk`. It calls itself with less input, so a byte more than that is fuel enough. -/
def feedBulk : ℕ → Lanes8 × Word → List Byte → List Byte → Chk ((Lanes8 × Word) × List Byte)
  | 0, _, _, _ => throw .endless
  | fuel + 1, lanes, buffer, input => do
    if input.length = 0 then
      return (lanes, buffer)
    else if buffer.length > keep then
      let needed ← I.sub 192 buffer.length
      if input.length < needed then
        return (lanes, ← copyAppend I buffer input)
      else
        let joined ← copyAppend I buffer (input.take needed.toNat)
        let lanes ← absorbBlocks I joined 0 64 lanes
        feedBulk fuel lanes (joined.drop 64) (input.drop needed.toNat)
    else if input.length > bufCap then
      let lanes ← absorbBlocks I buffer 0 keep lanes
      let direct := (← I.sub input.length keep) / 64 * 64
      let lanes ← absorbBlocks I input 0 direct lanes
      return (lanes, input.drop direct.toNat)
    else
      let joined ← copyAppend I buffer input
      let consume ← if joined.length ≥ 192 then do
          pure ((← I.sub joined.length keep) / 64 * 64)
        else pure 0
      let lanes ← absorbBlocks I joined 0 consume lanes
      return (lanes, joined.drop consume.toNat)

/-- The guard of the branch of `update` that only fills the buffer. -/
def buffersOnly (h : Hasher) (input : List Byte) : Chk Bool := do
  if h.bulk = false then
    return (← I.add h.buffer.length input.length) < bufCap
  else
    return false

/-- **`update`**. -/
def update (h : Hasher) (input : List Byte) : Chk Hasher := do
  let total := h.total + .ofNat 64 input.length
  if input.length = 0 then
    return h
  else if ← buffersOnly I h input then
    return ⟨h.lanes, ← copyAppend I h.buffer input, h.seed, total, false⟩
  else if h.bulk = false then
    let needed ← I.sub bufCap h.buffer.length
    let pre ← copyAppend I h.buffer (input.take needed.toNat)
    let cut ← I.sub bufCap keep
    let lanes ← absorbBlocks I pre 0 cut h.lanes
    let rest := input.drop needed.toNat
    let (lanes, buffer) ← feedBulk I (rest.length + 1) lanes (pre.drop cut.toNat) rest
    return ⟨lanes, buffer, h.seed, total, true⟩
  else
    let (lanes, buffer) ← feedBulk I (input.length + 1) h.lanes h.buffer input
    return ⟨lanes, buffer, h.seed, total, true⟩

/-- `finishBulk`, up to the folds. -/
def finishBulk (h : Hasher) : Chk Lanes4 := do
  let len : ℤ := h.buffer.length
  let blocks := len / 64 * 64
  let (l, wp) ← absorbBlocks I h.buffer 0 blocks h.lanes
  finishLanes I h.buffer blocks (← I.sub len blocks) (foldUpper mixers l, wp)

/-- **`digest64`**. -/
def digest64 (h : Hasher) : Chk Word := do
  if h.bulk = false then
    hayahash64 I h.buffer h.seed
  else
    return foldLow mixers (h.seed ^^^ k) (← finishBulk I h) (h.total * k)

/-- **`digest128`**. -/
def digest128 (h : Hasher) : Chk Hash128 := do
  if h.bulk = false then
    hayahash128 I h.buffer h.seed
  else
    let l ← finishBulk I h
    let s := h.seed ^^^ k
    return ⟨foldLow mixers s l (h.total * k), foldHigh mixers s l (h.total * k)⟩

/-- **The hashers that updates reach** from a new one, with the bytes they absorbed. -/
inductive Reachable (seed : Word) : List Byte → Hasher → Prop where
  | new : Reachable seed [] (newHasher seed)
  | update {m c : List Byte} {h h' : Hasher} (hr : Reachable seed m h)
      (hu : update I h c = pure h') :
      Reachable seed (m ++ c) h'

end Hayahash.Ports.Haskell
