import Hayahash.Lib.Mips
import Hayahash.C.Primitives

/-! # The MIPS64 assembly

`hayahash.S`, instruction by instruction. A macro is the list of its instructions; where the source
writes the same few instructions again with other registers and constants, they are one macro here.
The code from a label to the next one is a definition, and `text` has them in the order of the
source.

The key is at `$a0`, its length in `$a1` and the seed in `$a2`. -/

namespace Hayahash.Ports.Mips

open Hayahash.Lib.Mips Hayahash.Lib.Bytes Hayahash.Lib.ReadProg

/-- The labels. -/
inductive Label where
  | hayahash64 | hayahash128 | entry | short47 | short13 | shortEmpty | shortMix | midSetup | bulk
  | bulkLoop | midLoop | wall | tailEnd | fold | epilogue
deriving DecidableEq, Repr

/-! ### The frame -/

/-- `FRM`. -/
def frm : BitVec 16 := 128

/-- `OFF_N`. -/
def offN : BitVec 16 := 0

/-- `OFF_WIDE`. -/
def offWide : BitVec 16 := 120

/-- `OFF_RA` to `OFF_S7`: where the registers of the caller are saved. -/
def savedRegs : List (BitVec 16 × Reg) :=
  [(8, .ra), (16, .fp), (24, .s0), (32, .s1), (40, .s2), (48, .s3), (56, .s4), (64, .s5), (72, .s6),
    (80, .s7)]

/-- `OFF_H4` to `OFF_H7`: where the upper lanes are spilled, and the registers they are loaded
to. -/
def spilledRegs : List (BitVec 16 × Reg) := [(88, .a4), (96, .a5), (104, .a6), (112, .a7)]

/-! ### Macros -/

/-- `LOAD64LE`. -/
def load64le (rd base : Reg) (off : BitVec 16) : List Op :=
  [.lbu .t8 (off + 0) base,
    .lbu .t9 (off + 1) base,
    .lbu .at' (off + 2) base,
    .dsll .t9 .t9 8,
    .or .t8 .t8 .t9,
    .lbu .t9 (off + 3) base,
    .dsll .at' .at' 16,
    .or .t8 .t8 .at',
    .lbu .at' (off + 4) base,
    .dsll .t9 .t9 24,
    .or .t8 .t8 .t9,
    .lbu .t9 (off + 5) base,
    .dsll .at' .at' 32,
    .or .t8 .t8 .at',
    .lbu .at' (off + 6) base,
    .dsll .t9 .t9 40,
    .or .t8 .t8 .t9,
    .lbu .t9 (off + 7) base,
    .dsll .at' .at' 48,
    .or .t8 .t8 .at',
    .dsll .t9 .t9 56,
    .or rd .t8 .t9]

/-- `LOAD32LE`. -/
def load32le (rd base : Reg) (off : BitVec 16) : List Op :=
  [.lbu .t8 (off + 0) base,
    .lbu .t9 (off + 1) base,
    .lbu .at' (off + 2) base,
    .dsll .t9 .t9 8,
    .or .t8 .t8 .t9,
    .lbu .t9 (off + 3) base,
    .dsll .at' .at' 16,
    .or .t8 .t8 .at',
    .dsll .t9 .t9 24,
    .or rd .t8 .t9]

/-- `ROTL64`. -/
def rotl64 (rd rs : Reg) (n : ℕ) : List Op :=
  [.dsll .t8 rs n, .dsrl .t9 rs (64 - n), .or rd .t8 .t9]

/-- `MUL64`. -/
def mul64 (rd rs rt : Reg) : List Op := [.dmultu rs rt, .mflo rd]

/-- `INJ` with `21` and `41`, `INJ2` with `11` and `50`. -/
def injBy (j k : ℕ) (rd rs : Reg) : List Op :=
  rotl64 .a3 rs j ++ ([.xor .a3 rs .a3] ++ (rotl64 .t8 rs k ++ [.xor rd .a3 .t8]))

/-- `INJ`. -/
def inj (rd rs : Reg) : List Op := injBy 21 41 rd rs

/-- `INJ2`. -/
def inj2 (rd rs : Reg) : List Op := injBy 11 50 rd rs

/-- `STRIPE`. -/
def stripe (h base : Reg) (off : BitVec 16) : List Op :=
  load64le .t1 base off ++ (rotl64 .t8 .t0 27 ++ ([.daddu .t8 .t1 .t8, .xor h h .t8] ++
    (mul64 h h .s3 ++ [.move .t0 .t1])))

/-- `ABSORB_INJP`. -/
def absorbInjp (h base : Reg) (off : BitVec 16) : List Op :=
  load64le .t1 base off ++ (inj .t1 .t1 ++ ([.daddu h h .t1] ++ mul64 h h .s3))

/-- A constant from its quarters, of which the third is not negative. -/
def constant (rd rt : Reg) (a b c d : BitVec 16) : List Op :=
  [.lui rd a, .ori rd rd b, .dsll rd rd 32, .lui rt c, .ori rt rt d, .or rd rd rt]

/-- The same with any quarters: what `lui` has extended is cleared. -/
def constantCleared (rd rt : Reg) (a b c d : BitVec 16) : List Op :=
  [.lui rd a, .ori rd rd b, .dsll rd rd 32, .lui rt c, .ori rt rt d, .dsll rt rt 32, .dsrl rt rt 32,
    .or rd rd rt]

/-- `rd ^= rd >> n`. -/
def xorShift (rd : Reg) (n : ℕ) : List Op := [.dsrl .t1 rd n, .xor rd rd .t1]

/-- `FMIX128`. -/
def fmix128 (rd : Reg) : List Op :=
  xorShift rd 30 ++ (constantCleared .t3 .a4 0xFF51 0xAFD7 0xED55 0x8CCD ++ (mul64 rd rd .t3 ++
    (xorShift rd 31 ++ (constant .t3 .a4 0xC4CE 0xB9FE 0x1A85 0xEC53 ++ (mul64 rd rd .t3 ++
      xorShift rd 33)))))

/-! ### Entry -/

/-- `hayahash64`. -/
def hayahash64 : List (Instr Label) := ops [.move .a3 .zero] ++ .b .entry :: .op .nop :: []

/-- `hayahash128`. -/
def hayahash128 : List (Instr Label) := ops [.daddiu .a3 .zero 1]

/-- The frame, the constant `K` and `s`. -/
def prologue : List Op :=
  [.daddiu .sp .sp (-frm)] ++ (savedRegs.map (fun x => .sd x.2 x.1 .sp) ++
    ([.move .fp .a0, .move .s0 .a0, .move .s1 .a1, .sd .a1 offN .sp, .sd .a3 offWide .sp] ++
      (constant .s3 .t1 0x9E37 0x79B9 0x7F4A 0x7C15 ++ [.xor .s2 .a2 .s3])))

/-- `a` and `b` of eight bytes or more. -/
def short8 : List Op :=
  load64le .s4 .s0 0 ++ ([.daddiu .t1 .s1 (-8), .daddu .t1 .s0 .t1] ++ load64le .s5 .t1 0)

/-- `.Lentry`. -/
def entry : List (Instr Label) :=
  ops (prologue ++ [.sltiu .t1 .s1 17]) ++ .beqz .t1 .midSetup :: .op .nop ::
    .beqz .s1 .shortEmpty :: .op .nop ::
    (ops [.sltiu .t1 .s1 4] ++ .bnez .t1 .short13 :: .op .nop ::
    (ops [.sltiu .t1 .s1 8] ++ .bnez .t1 .short47 :: .op .nop ::
    (ops short8 ++ .b .shortMix :: .op .nop :: [])))

/-! ### A key of at most 16 bytes -/

/-- `a` and `b` of four to seven bytes. -/
def words47 : List Op :=
  load32le .s4 .s0 0 ++ ([.daddiu .t1 .s1 (-4), .daddu .t1 .s0 .t1] ++ load32le .s5 .t1 0)

/-- `.Lshort_4_7`. -/
def short47 : List (Instr Label) := ops words47 ++ .b .shortMix :: .op .nop :: []

/-- `a` and `b` of one to three bytes. -/
def words13 : List Op :=
  [.lbu .s4 0 .s0,
    .dsrl .t1 .s1 1,
    .daddu .t1 .s0 .t1,
    .lbu .t1 0 .t1,
    .daddiu .t2 .s1 (-1),
    .daddu .t2 .s0 .t2,
    .lbu .t2 0 .t2,
    .dsll .t1 .t1 8,
    .dsll .t2 .t2 16,
    .or .s5 .t1 .t2]

/-- `.Lshort_1_3`. -/
def short13 : List (Instr Label) := ops words13 ++ .b .shortMix :: .op .nop :: []

/-- `.Lshort_empty`. -/
def shortEmpty : List (Instr Label) := ops [.move .s4 .zero, .move .s5 .zero]

/-- `x`, in `$t1` and `$s4`. -/
def shortX : List Op :=
  inj .t1 .s4 ++ ([.xor .t1 .t1 .s2, .xor .t1 .t1 .s3] ++ (mul64 .t1 .t1 .s3 ++ [.move .s4 .t1]))

/-- `y`, in `$t2`, which leaves `M1` in `$t3`. -/
def shortY : List Op :=
  inj2 .t2 .s5 ++ (rotl64 .t3 .s2 23 ++ ([.xor .t2 .t2 .t3, .dsrl .t3 .s3 19, .xor .t2 .t2 .t3] ++
    (constant .t3 .a4 0x3C79 0xAC49 0x2BA7 0xB653 ++ mul64 .t2 .t2 .t3)))

/-- `u`, in `$s5` and `$v0`. -/
def shortU : List Op :=
  rotl64 .t1 .s4 27 ++ ([.xor .s5 .t1 .t2] ++ (mul64 .a4 .s1 .s3 ++
    [.xor .s5 .s5 .a4, .move .v0 .s5]))

/-- `fmix` of `$v0`, with `M1` in `$t3`. -/
def shortFmix : List Op :=
  xorShift .v0 27 ++ (mul64 .v0 .v0 .t3 ++ (xorShift .v0 33 ++
    (constant .t3 .a4 0x1C69 0xB3F7 0x4AC4 0xAE35 ++ (mul64 .v0 .v0 .t3 ++ xorShift .v0 27))))

/-- The high word. -/
def shortHigh : List Op := rotl64 .t1 .s5 32 ++ ([.daddu .v1 .s4 .t1] ++ fmix128 .v1)

/-- `.Lshort_mix`. -/
def shortMix : List (Instr Label) :=
  ops (shortX ++ (shortY ++ (shortU ++ (shortFmix ++ [.ld .t1 offWide .sp])))) ++
    .beqz .t1 .epilogue :: .op .nop :: (ops shortHigh ++ .b .epilogue :: .op .nop :: [])

/-! ### A longer key -/

/-- The lower four lanes, and no stripe yet. -/
def lowerSetup : List Op :=
  [.xor .s4 .s2 .s3] ++ (rotl64 .s5 .s2 17 ++ ([.dsll .t1 .s3 21, .daddu .s5 .s5 .t1] ++
    (rotl64 .s6 .s2 34 ++ ([.dsrl .t1 .s3 13, .xor .s6 .s6 .t1] ++
      (rotl64 .s7 .s2 51 ++ [.dsll .t1 .s3 42, .daddu .s7 .s7 .t1, .move .t0 .zero])))))

/-- `.Lmid_setup`. -/
def midSetup : List (Instr Label) :=
  ops (lowerSetup ++ [.sltiu .t1 .s1 320]) ++ .bnez .t1 .midLoop :: .op .nop :: []

/-- The upper four lanes. -/
def upperSetup : List Op :=
  [.dsrl .t1 .s3 27, .daddu .a4 .s2 .t1] ++
  (rotl64 .a5 .s2 13 ++ ([.dsll .t1 .s3 9, .xor .a5 .a5 .t1] ++
    (rotl64 .a6 .s2 26 ++ ([.dsrl .t1 .s3 40, .daddu .a6 .a6 .t1] ++
      (rotl64 .a7 .s2 39 ++ [.dsll .t1 .s3 30, .xor .a7 .a7 .t1])))))

/-- `.Lbulk`. -/
def bulk : List (Instr Label) := ops (upperSetup ++ spilledRegs.map fun x => .sd x.2 x.1 .sp)

/-- Four stripes to the lower lanes. -/
def lowerStripes : List Op :=
  stripe .s4 .s0 0 ++ (stripe .s5 .s0 8 ++ (stripe .s6 .s0 16 ++ stripe .s7 .s0 24))

/-- A stripe to a lane that is spilled. -/
def spilledStripe (h : Reg) (slot off : BitVec 16) : List Op :=
  [.ld h slot .sp] ++ (stripe h .s0 off ++ [.sd h slot .sp])

/-- Four stripes to the upper lanes. -/
def upperStripes : List Op :=
  spilledStripe .a4 88 32 ++ (spilledStripe .a5 96 40 ++ (spilledStripe .a6 104 48 ++
    spilledStripe .a7 112 56))

/-- `h = (h ^ rotl(upper, n)) * K`. -/
def foldLane (h upper : Reg) (slot : BitVec 16) (n : ℕ) : List Op :=
  [.ld upper slot .sp] ++ (rotl64 .t1 upper n ++ ([.xor h h .t1] ++ mul64 h h .s3))

/-- The fold of the upper lanes. -/
def foldUpper : List Op :=
  foldLane .s4 .a4 88 11 ++ (foldLane .s5 .a5 96 19 ++ (foldLane .s6 .a6 104 31 ++
    foldLane .s7 .a7 112 47))

/-- `.Lbulk_loop`, and the fold after it. -/
def bulkLoop : List (Instr Label) :=
  ops (lowerStripes ++ (upperStripes ++
    [.daddu .s4 .s4 .t0, .daddiu .s0 .s0 64, .daddiu .s1 .s1 (-64), .sltiu .t1 .s1 64])) ++
    .beqz .t1 .bulkLoop :: .op .nop :: ops foldUpper

/-- `.Lmid_loop`. -/
def midLoop : List (Instr Label) :=
  ops [.sltiu .t1 .s1 32] ++ .bnez .t1 .wall :: .op .nop ::
    (ops (lowerStripes ++ [.daddiu .s0 .s0 32, .daddiu .s1 .s1 (-32)]) ++
      .b .midLoop :: .op .nop :: [])

/-- `.Lwall`. -/
def wall : List (Instr Label) :=
  ops (rotl64 .t1 .t0 27 ++ [.daddu .s4 .s4 .t1, .sltiu .t1 .s1 17]) ++
    .bnez .t1 .tailEnd :: .op .nop ::
    ops (absorbInjp .s4 .s0 0 ++ absorbInjp .s5 .s0 8)

/-- The last 16 bytes. -/
def lastWords : List Op :=
  [.ld .t2 offN .sp, .daddiu .t1 .t2 (-16), .daddu .t1 .fp .t1] ++ (absorbInjp .s6 .t1 0 ++
    ([.daddiu .t1 .t2 (-8), .daddu .t1 .fp .t1] ++ absorbInjp .s7 .t1 0))

/-- `.Ltail_end`. -/
def tailEnd : List (Instr Label) := .beqz .s1 .fold :: .op .nop :: ops lastWords

/-- `t0`, in `$s4`. -/
def foldT0 : List Op :=
  rotl64 .t1 .s5 13 ++ ([.xor .t1 .s4 .t1, .ld .t2 offN .sp] ++ (mul64 .t2 .t2 .s3 ++
    ([.xor .t1 .t1 .t2] ++ (mul64 .t1 .t1 .s3 ++ [.move .s4 .t1]))))

/-- `t1`, in `$s5`. -/
def foldT1 : List Op :=
  rotl64 .t2 .s7 33 ++ ([.xor .t2 .s6 .t2] ++ (mul64 .t2 .t2 .s3 ++ [.move .s5 .t2]))

/-- The low word. -/
def foldLow : List Op :=
  rotl64 .t2 .s5 29 ++ ([.xor .v0 .s2 .s4, .xor .v0 .v0 .t2] ++ (xorShift .v0 37 ++
    (mul64 .v0 .v0 .s3 ++ xorShift .v0 32)))

/-- The high word. -/
def foldHigh : List Op :=
  rotl64 .v1 .s2 32 ++
    (rotl64 .t2 .s4 47 ++ ([.daddu .t2 .s5 .t2, .xor .v1 .v1 .t2] ++ fmix128 .v1))

/-- `.Lfold`. -/
def fold : List (Instr Label) :=
  ops (foldT0 ++ (foldT1 ++ (foldLow ++ [.ld .t1 offWide .sp]))) ++
    .beqz .t1 .epilogue :: .op .nop ::
    ops foldHigh

/-- `.Lepilogue`. -/
def epilogue : List (Instr Label) :=
  ops (savedRegs.map fun x => .ld x.2 x.1 .sp) ++ .jr .ra :: .op (.daddiu .sp .sp frm) :: []

/-- **The text.** -/
def text : Text Label :=
  [(.hayahash64, hayahash64), (.hayahash128, hayahash128), (.entry, entry), (.short47, short47),
    (.short13, short13), (.shortEmpty, shortEmpty), (.shortMix, shortMix), (.midSetup, midSetup),
    (.bulk, bulk), (.bulkLoop, bulkLoop), (.midLoop, midLoop), (.wall, wall), (.tailEnd, tailEnd),
    (.fold, fold), (.epilogue, epilogue)]

/-! ### Calls -/

/-- A call: the byte order of the machine, the length of the key, and the state the caller
leaves. -/
structure Call where
  big : Bool
  n : ℕ
  start : State

namespace Call

variable (c : Call)

/-- Where the key is. -/
def key : BitVec 64 := c.start.get .a0

/-- The seed. -/
def seed : BitVec 64 := c.start.get .a2

/-- Where the frame is. -/
def frame : BitVec 64 := c.start.get .sp - 128

/-- The address is in the key. -/
def inKey (a : BitVec 64) : Bool := (a - c.key).toNat < c.n

/-- The address is in the frame. -/
def inFrame (a : BitVec 64) : Bool := (a - c.frame).toNat < 128

/-- **The bus**: the key may be read, and the frame may be read and written. -/
def bus : Bus where
  big := c.big
  reads a := c.inKey a || c.inFrame a
  writes a := c.inFrame a

/-- The key, as the memory of the header. -/
def mem : Mem Byte := fun i => c.start.mem (c.key + .ofInt 64 i)

/-- **A call as the convention has it**: the length is in `$a1`, the stack pointer is aligned to
doublewords, and the frame below it is not in the key. -/
structure Valid : Prop where
  length : c.start.get .a1 = .ofNat 64 c.n
  lt : c.n < 2 ^ 63
  aligned : (c.start.get .sp).toNat % 8 = 0
  apart : ∀ a, c.inKey a = true → c.inFrame a = false

/-- What a call returns: at the return address, with the registers a callee has to keep and the
stack pointer as they were. -/
def Returns (a : BitVec 64) (s : State) : Prop :=
  a = c.start.get .ra ∧
    ∀ r ∈ [Reg.s0, .s1, .s2, .s3, .s4, .s5, .s6, .s7, .fp, .ra, .sp], s.get r = c.start.get r

/-- The run from a label on. -/
def enter (l : Label) : Config Label := .running (text.from l) none c.start

end Call

end Hayahash.Ports.Mips
