import Hayahash.Lib.Bigint
import Hayahash.Lib.Arrays
import Hayahash.Ports.Walk

/-! # The simulator of the website

`buildSteps` of `sim.js`: the hash in BigInts, and a step for the page after every load, absorb,
fold and finalizer. A step has its title, the bytes that it marks, how many bytes are done, and the
state; its narration, and the names of the rows of the page, are texts that nothing reads and are
left out. Integers and arrays are as in `Ports.Js`. -/

namespace Hayahash.Ports.Sim

open Hayahash.Lib.Bytes Hayahash.Lib.Checked Hayahash.Lib.Arrays Hayahash.Lib.Bigint

/-! ### Arithmetic -/

def K : ℤ := 0x9e3779b97f4a7c15
def M1 : ℤ := 0x3c79ac492ba7b653
def M2 : ℤ := 0x1c69b3f74ac4ae35
def N1 : ℤ := 0xff51afd7ed558ccd
def N2 : ℤ := 0xc4ceb9fe1a85ec53

/-- `mul`. -/
def mul (a b : ℤ) : ℤ := mask (a * b)

/-- `add`. -/
def add (a b : ℤ) : ℤ := mask (a + b)

/-- `shl`. -/
def shl (x : ℤ) (n : ℕ) : ℤ := mask (x * 2 ^ n)

/-- `rotl`. -/
def rotl (x : ℤ) (n : ℕ) : Chk ℤ := do maskedOr (x * 2 ^ n) (← shr x (64 - n))

/-- `BigInt(b[i])`. -/
def byte (b : View) (i : ℤ) : Chk ℤ := do return val ((← b.get i).setWidth 64)

/-- `for (let i = n - 1; i >= 0; i--) v = (v << 8n) | BigInt(b[off + i]);` -/
def loadLoop (b : View) (off : ℤ) : ℕ → ℤ → Chk ℤ
  | 0, v => pure v
  | i + 1, v => do loadLoop b off i (← bor (v * 2 ^ 8) (← byte b (off + i)))

/-- `load64`. -/
def load64 (b : View) (off : ℤ) : Chk ℤ := loadLoop b off 8 0

/-- `load32`. -/
def load32 (b : View) (off : ℤ) : Chk ℤ := loadLoop b off 4 0

/-- `inj`. -/
def inj (w : ℤ) : Chk ℤ := do bxor (← bxor w (← rotl w 21)) (← rotl w 41)

/-- `inj2`. -/
def inj2 (w : ℤ) : Chk ℤ := do bxor (← bxor w (← rotl w 11)) (← rotl w 50)

/-- `x ^ shr(x, n)`. -/
def xorshift (n : ℕ) (x : ℤ) : Chk ℤ := do bxor x (← shr x n)

/-! ### Steps -/

/-- The class of a highlight: read, the previous stripe, read again. -/
inductive Cls where
  | r
  | p
  | o
deriving DecidableEq

/-- `[start, count, cls]`. -/
structure Highlight where
  start : ℤ
  count : ℤ
  cls : Cls
deriving DecidableEq

/-- `st`. What is not set yet is 0. -/
structure St where
  s : ℤ
  lenmix : ℤ
  h : Fin 8 → ℤ
  folded : Bool
  t0 : ℤ
  t1 : ℤ
  a : ℤ
  b : ℤ
  y : ℤ
  m : ℤ
  x : ℤ
  hi : ℤ

/-- A step. -/
structure Step where
  title : String
  hl : List Highlight
  done : ℤ
  snap : St

/-- The variables of `buildSteps`. -/
structure Run where
  st : St
  steps : List Step
  done : ℤ
  wp : ℤ
  wpOff : ℤ
  p : ℤ
  l : ℤ
  stripeNo : ℕ
  block : ℕ

namespace Run

/-- `push`. -/
def push (σ : Run) (title : String) (hl : List Highlight) : Run :=
  { σ with steps := σ.steps ++ [⟨title, hl, σ.done, σ.st⟩] }

/-- `st.… = …`, and a step that marks nothing. -/
def set (σ : Run) (title : String) (f : St → St) : Run := push { σ with st := f σ.st } title []

/-- `st[h] = x`, for a lane. -/
def setLane (σ : Run) (li : Fin 8) (x : ℤ) : Run :=
  { σ with st := { σ.st with h := Function.update σ.st.h li x } }

end Run

open Run

/-- `st.v = f(st.v)`, and a step, for the functions `f` of a finalizer. -/
def finalize (label : String) (get : St → ℤ) (put : St → ℤ → St) :
    List (ℤ → Chk ℤ) → ℕ → Run → Chk Run
  | [], _, σ => pure σ
  | f :: fs, i, σ => do
    let v ← f (get σ.st)
    finalize label get put fs (i + 1) (set σ s!"{label} {i}/5" (put · v))

/-- `finishHigh`. -/
def finishHigh (σ : Run) (input : ℤ) : Chk Run :=
  let σ := set σ "128-bit high combine" ({ · with hi := input })
  finalize "finalize high" St.hi (fun st hi => { st with hi })
    [xorshift 30, fun v => pure (mul v N1), xorshift 31, fun v => pure (mul v N2), xorshift 33] 1 σ

/-! ### The short path -/

/-- The words of a short key, and their steps. -/
def shortLoads (bytes : View) (len : ℤ) (σ : Run) : Chk (ℤ × ℤ × Run) := do
  if len ≥ 8 then
    let a ← load64 bytes 0
    let b ← load64 bytes (len - 8)
    let σ := push { σ with st := { σ.st with a }, done := 8 } "load a" [⟨0, 8, .r⟩]
    let ov := max 0 (16 - len)
    let σ := push { σ with st := { σ.st with b }, done := len } "load b"
      (⟨len - 8, 8, .r⟩ :: if ov > 0 then [⟨len - 8, ov, .o⟩] else [])
    return (a, b, σ)
  else if len ≥ 4 then
    let a ← load32 bytes 0
    let b ← load32 bytes (len - 4)
    let σ := push { σ with st := { σ.st with a }, done := 4 } "load a" [⟨0, 4, .r⟩]
    let ov := 8 - len
    let σ := push { σ with st := { σ.st with b }, done := len } "load b"
      (⟨len - 4, 4, .r⟩ :: if ov > 0 then [⟨len - 4, ov, .o⟩] else [])
    return (a, b, σ)
  else if len > 0 then
    let a ← byte bytes 0
    let b ← bor ((← byte bytes (len / 2)) * 2 ^ 8) ((← byte bytes (len - 1)) * 2 ^ 16)
    let σ := push { σ with st := { σ.st with a }, done := 1 } "load a" [⟨0, 1, .r⟩]
    let σ := push { σ with st := { σ.st with b }, done := len } "load b"
      [⟨len / 2, 1, .r⟩, ⟨len - 1, 1, .r⟩]
    return (a, b, σ)
  else
    return (0, 0, set σ "load a, b" ({ · with a := 0, b := 0 }))

/-- `buildShort`. -/
def buildShort (bytes : View) (len s lenmix : ℤ) (σ : Run) : Chk Run := do
  let (a, b, σ) ← shortLoads bytes len σ
  let x := mul (← bxor (← bxor (← inj a) s) K) K
  let σ := set σ "mix a -> x" ({ · with x })
  let y := mul (← bxor (← bxor (← inj2 b) (← rotl s 23)) (← shr K 19)) M1
  let σ := set σ "mix b -> y" ({ · with y })
  let u ← bxor (← bxor (← rotl x 27) y) lenmix
  let σ := set σ "merge" ({ · with m := u })
  let σ ← finalize "finalize" St.m (fun st m => { st with m })
    [xorshift 27, fun m => pure (mul m M1), xorshift 33, fun m => pure (mul m M2), xorshift 27] 1 σ
  let σ ← finishHigh σ (add σ.st.x (← rotl u 32))
  return push σ "digests" []

/-! ### The long path -/

/-- `stripe`. -/
def stripe (bytes : View) (off : ℤ) (li : Fin 8) (σ : Run) : Chk Run := do
  let w ← load64 bytes off
  let t := add w (← rotl σ.wp 27)
  let σ := σ.setLane li (mul (← bxor (σ.st.h li) t) K)
  let σ := { σ with stripeNo := σ.stripeNo + 1 }
  let hl := ⟨off, 8, .r⟩ :: if σ.wpOff ≥ 0 then [⟨σ.wpOff, 8, .p⟩] else []
  let σ := { σ with done := off + 8, wp := w, wpOff := off }
  return push σ s!"stripe {σ.stripeNo} -> lane {li}" hl

/-- `for (let i = 0; i < n; i++) stripe(p + 8 * i, i);`, for the lanes `is`. -/
def stripes (bytes : View) (is : List (Fin 8)) (σ : Run) : Chk Run :=
  is.foldlM (fun τ i => stripe bytes (σ.p + 8 * i.val) i τ) σ

/-- `while (l >= d) …`. -/
def whileL (d : ℤ) (f : Run → Chk Run) : ℕ → Run → Chk Run
  | 0, _ => throw .endless
  | fuel + 1, σ => do if σ.l ≥ d then whileL d f fuel (← f σ) else return σ

/-- A block of the bulk path. -/
def blockStep (bytes : View) (σ : Run) : Chk Run := do
  let σ := { σ with block := σ.block + 1 }
  let σ ← stripes bytes [0, 1, 2, 3, 4, 5, 6, 7] σ
  let σ := σ.setLane 0 (add (σ.st.h 0) σ.wp)
  let σ := push σ s!"checkpoint (block {σ.block})" [⟨σ.wpOff, 8, .p⟩]
  return { σ with p := σ.p + 64, l := σ.l - 64 }

/-- `st[hi] = mul(st[hi] ^ rotl(st[hj], n), K)`. -/
def foldLane (i j : Fin 8) (n : ℕ) (σ : Run) : Chk Run := do
  return σ.setLane i (mul (← bxor (σ.st.h i) (← rotl (σ.st.h j) n)) K)

/-- The lanes folded, and their step. -/
def laneFold (σ : Run) : Chk Run := do
  let σ ← foldLane 0 4 11 σ
  let σ ← foldLane 1 5 19 σ
  let σ ← foldLane 2 6 31 σ
  let σ ← foldLane 3 7 47 σ
  return set σ "lane fold 8 -> 4" ({ · with folded := true })

/-- A round of the mid loop. -/
def roundStep (bytes : View) (σ : Run) : Chk Run := do
  let σ ← stripes bytes [0, 1, 2, 3] σ
  return { σ with p := σ.p + 32, l := σ.l - 32 }

/-- The wall. -/
def wall (σ : Run) : Chk Run := do
  if σ.wpOff ≥ 0 then
    let σ := σ.setLane 0 (add (σ.st.h 0) (← rotl σ.wp 27))
    return push σ "wall absorb" [⟨σ.wpOff, 8, .p⟩]
  else return σ

/-- `ovHl`. -/
def ovHl (σ : Run) (off : ℤ) : List Highlight :=
  let seen := min 8 (max 0 (σ.done - off))
  if seen > 0 then [⟨off, seen, .o⟩] else []

/-- `tailWord`. -/
def tailWord (bytes : View) (off : ℤ) (li : Fin 8) (extraHl : List Highlight) (σ : Run) :
    Chk Run := do
  let w ← load64 bytes off
  let σ := σ.setLane li (mul (add (σ.st.h li) (← inj w)) K)
  let σ := { σ with done := max σ.done (off + 8) }
  return push σ s!"tail word -> lane {li}" (⟨off, 8, .r⟩ :: extraHl)

/-- The next two words of the tail, when more than 16 bytes are left. -/
def tailHead (bytes : View) (σ : Run) : Chk Run := do
  if σ.l > 16 then
    let σ ← tailWord bytes σ.p 0 [] σ
    tailWord bytes (σ.p + 8) 1 [] σ
  else return σ

/-- The tail. -/
def tail (bytes : View) (len : ℤ) (σ : Run) : Chk Run := do
  let σ ← tailHead bytes σ
  if σ.l > 0 then
    let σ ← tailWord bytes (len - 16) 2 (ovHl σ (len - 16)) σ
    tailWord bytes (len - 8) 3 (ovHl σ (len - 8)) σ
  else return σ

/-- The first four lanes at first. -/
def lowerInit (s : ℤ) (σ : Run) : Chk Run := do
  let σ := σ.setLane 0 (← bxor s K)
  let σ := σ.setLane 1 (add (← rotl s 17) (shl K 21))
  let σ := σ.setLane 2 (← bxor (← rotl s 34) (← shr K 13))
  return σ.setLane 3 (add (← rotl s 51) (shl K 42))

/-- The other lanes at first, on the bulk path. -/
def upperInit (s : ℤ) (bulk : Bool) (σ : Run) : Chk Run := do
  if bulk then
    let σ := σ.setLane 4 (add s (← shr K 27))
    let σ := σ.setLane 5 (← bxor (← rotl s 13) (shl K 9))
    let σ := σ.setLane 6 (add (← rotl s 26) (← shr K 40))
    return σ.setLane 7 (← bxor (← rotl s 39) (shl K 30))
  else return σ

/-- The lanes at first, and their step. -/
def laneInit (s : ℤ) (bulk : Bool) (σ : Run) : Chk Run := do
  let σ ← lowerInit s σ
  let σ ← upperInit s bulk σ
  return push σ "lane init" []

/-- The folds and the finalizers of the long path. -/
def finish (s : ℤ) (σ : Run) : Chk Run := do
  let t0 := mul (← bxor (← bxor (σ.st.h 0) (← rotl (σ.st.h 1) 13)) σ.st.lenmix) K
  let t1 := mul (← bxor (σ.st.h 2) (← rotl (σ.st.h 3) 33)) K
  let σ := set σ "pair fold" ({ · with t0, t1 })
  let x ← bxor (← bxor s σ.st.t0) (← rotl σ.st.t1 29)
  let σ := set σ "combine" ({ · with x })
  let x ← xorshift 37 σ.st.x
  let σ := set σ "finalize 1/3" ({ · with x })
  let x := mul σ.st.x K
  let σ := set σ "finalize 2/3" ({ · with x })
  let x ← xorshift 32 σ.st.x
  let σ := set σ "finalize 3/3" ({ · with x })
  let σ ← finishHigh σ (← bxor (← rotl s 32) (add σ.st.t1 (← rotl σ.st.t0 47)))
  return push σ "digests" []

/-- The bulk path, down to four lanes. -/
def bulkWalk (bytes : View) (len : ℤ) (bulk : Bool) (σ : Run) : Chk Run := do
  if bulk then laneFold (← whileL 64 (blockStep bytes) (len.toNat + 1) { σ with block := 0 })
  else return σ

/-- The long path. -/
def buildLong (bytes : View) (len s : ℤ) (bulk : Bool) (σ : Run) : Chk Run := do
  let σ ← laneInit s bulk σ
  let σ ← bulkWalk bytes len bulk { σ with wp := 0, wpOff := -1, p := 0, l := len, stripeNo := 0 }
  let σ ← whileL 32 (roundStep bytes) (len.toNat + 1) σ
  let σ ← wall σ
  let σ ← tail bytes len σ
  finish s σ

/-! ### `buildSteps` -/

/-- `path`. -/
inductive Path where
  | short
  | mid
  | bulk
deriving DecidableEq

/-- What `buildSteps` returns. -/
structure Built where
  path : Path
  steps : List Step
  digest : ℤ
  lo : ℤ
  hi : ℤ

/-- `st`, with `s` and `lenmix`. -/
def St.premix (s lenmix : ℤ) : St := ⟨s, lenmix, fun _ => 0, false, 0, 0, 0, 0, 0, 0, 0, 0⟩

/-- **`buildSteps`**. -/
def buildSteps (bytes : View) (seedIn : ℤ) : Chk Built := do
  let len := bytes.len
  let seed := mask seedIn
  let lenmix := mul len K
  let s ← bxor seed K
  let σ := push ⟨.premix s lenmix, [], 0, 0, -1, 0, 0, 0, 0⟩ "premix" []
  if len ≤ 16 then
    let σ ← buildShort bytes len s lenmix σ
    return ⟨.short, σ.steps, σ.st.m, σ.st.m, σ.st.hi⟩
  else
    let bulk := decide (len ≥ 320)
    let σ ← buildLong bytes len s bulk σ
    return ⟨if bulk then .bulk else .mid, σ.steps, σ.st.x, σ.st.x, σ.st.hi⟩

end Hayahash.Ports.Sim
