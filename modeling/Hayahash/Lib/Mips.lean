import Hayahash.Lib.Bytes

/-! # MIPS64

The user-level instructions of a MIPS64 processor that straight integer code needs, with their delay
slots: registers of 64 bits, a byte memory in either byte order, and a bus that says which addresses
may be read and written. An access that is not allowed, a doubleword at an address that is not a
multiple of eight, a branch in a delay slot and the end of the text are all stuck (`none`).

A text is a list of labelled pieces of code, each of which runs into the next. `Does` is about code
without branches, `Halts` about a run until it has left the text through `jr`; the rules are those
of a Hoare logic for total correctness. Code that stores nothing keeps what it does not name
(`Does.kept`). -/

namespace Hayahash.Lib.Mips

open Hayahash.Lib.Bytes

/-! ### The machine -/

/-- The registers, by their names in the n64 convention. -/
inductive Reg where
  | zero | at' | v0 | v1 | a0 | a1 | a2 | a3 | a4 | a5 | a6 | a7 | t0 | t1 | t2 | t3
  | s0 | s1 | s2 | s3 | s4 | s5 | s6 | s7 | t8 | t9 | k0 | k1 | gp | sp | fp | ra
deriving DecidableEq, Repr

/-- The byte order, and the addresses that may be read and written. -/
structure Bus where
  big : Bool
  reads : BitVec 64 → Bool
  writes : BitVec 64 → Bool

/-- The registers and the memory. -/
structure State where
  reg : Reg → BitVec 64
  hi : BitVec 64
  lo : BitVec 64
  mem : BitVec 64 → Byte

/-- Where the byte `i` of a doubleword is. -/
def place (big : Bool) (i : ℕ) : ℕ := if big then 7 - i else i

/-- The doubleword at `a`. -/
def dword (big : Bool) (mem : BitVec 64 → Byte) (a : BitVec 64) : BitVec 64 :=
  le64 fun i => mem (a + .ofNat 64 (place big i))

/-- The memory with the doubleword `x` at `a`. -/
def putDword (big : Bool) (mem : BitVec 64 → Byte) (a x : BitVec 64) : BitVec 64 → Byte := fun b =>
  if (b - a).toNat < 8 then byteOf x (place big (b - a).toNat) else mem b

/-- All of a doubleword may be accessed. -/
def whole (p : BitVec 64 → Bool) (a : BitVec 64) : Bool :=
  a.toNat % 8 = 0 && (List.range 8).all fun i => p (a + .ofNat 64 i)

namespace State

variable (s : State)

/-- What is in a register. -/
def get (r : Reg) : BitVec 64 := if r = .zero then 0 else s.reg r

/-- Write a register. -/
def set (r : Reg) (x : BitVec 64) : State :=
  { s with reg := fun r' => if r' = r then x else s.reg r' }

/-- `off(base)`. -/
def addr (base : Reg) (off : BitVec 16) : BitVec 64 := s.get base + off.signExtend 64

end State

/-- The instructions without a delay slot. -/
inductive Op where
  | lbu (rt : Reg) (off : BitVec 16) (base : Reg)
  | ld (rt : Reg) (off : BitVec 16) (base : Reg)
  | sd (rt : Reg) (off : BitVec 16) (base : Reg)
  | lui (rt : Reg) (imm : BitVec 16)
  | ori (rt rs : Reg) (imm : BitVec 16)
  | daddiu (rt rs : Reg) (imm : BitVec 16)
  | sltiu (rt rs : Reg) (imm : BitVec 16)
  | dsll (rd rt : Reg) (sa : ℕ)
  | dsrl (rd rt : Reg) (sa : ℕ)
  | daddu (rd rs rt : Reg)
  | or (rd rs rt : Reg)
  | xor (rd rs rt : Reg)
  | dmultu (rs rt : Reg)
  | mflo (rd : Reg)
  | move (rd rs : Reg)
  | nop
deriving DecidableEq, Repr

variable (bus : Bus)

/-- **An instruction without a delay slot.** -/
def exec (s : State) : Op → Option State
  | .lbu rt off base =>
    let a := s.addr base off
    if bus.reads a then some (s.set rt ((s.mem a).setWidth 64)) else none
  | .ld rt off base =>
    let a := s.addr base off
    if whole bus.reads a then some (s.set rt (dword bus.big s.mem a)) else none
  | .sd rt off base =>
    let a := s.addr base off
    if whole bus.writes a then some { s with mem := putDword bus.big s.mem a (s.get rt) } else none
  -- On a machine with 64-bit registers `lui` extends the sign.
  | .lui rt imm => some (s.set rt ((imm ++ (0 : BitVec 16)).signExtend 64))
  | .ori rt rs imm => some (s.set rt (s.get rs ||| imm.setWidth 64))
  | .daddiu rt rs imm => some (s.set rt (s.get rs + imm.signExtend 64))
  -- The immediate is sign-extended, and the comparison is unsigned.
  | .sltiu rt rs imm => some (s.set rt (if s.get rs < imm.signExtend 64 then 1 else 0))
  | .dsll rd rt sa => some (s.set rd (s.get rt <<< sa))
  | .dsrl rd rt sa => some (s.set rd (s.get rt >>> sa))
  | .daddu rd rs rt => some (s.set rd (s.get rs + s.get rt))
  | .or rd rs rt => some (s.set rd (s.get rs ||| s.get rt))
  | .xor rd rs rt => some (s.set rd (s.get rs ^^^ s.get rt))
  | .dmultu rs rt =>
    let p := (s.get rs).setWidth 128 * (s.get rt).setWidth 128
    some { s with hi := (p >>> 64).setWidth 64, lo := p.setWidth 64 }
  | .mflo rd => some (s.set rd s.lo)
  | .move rd rs => some (s.set rd (s.get rs))
  | .nop => some s

/-- Instructions one after another. -/
def execAll : List Op → State → Option State
  | [], s => some s
  | o :: os, s => (exec bus s o).bind (execAll os)

/-- The instructions, with labels of `L`. -/
inductive Instr (L : Type) where
  | op (o : Op)
  | beqz (rs : Reg) (l : L)
  | bnez (rs : Reg) (l : L)
  | b (l : L)
  | jr (rs : Reg)
deriving DecidableEq, Repr

/-- Labelled pieces of code. -/
abbrev Text (L : Type) := List (L × List (Instr L))

variable {L : Type} [DecidableEq L]

/-- The code from a label on. -/
def Text.from (P : Text L) (l : L) : List (Instr L) :=
  (P.dropWhile fun c => c.1 ≠ l).flatMap Prod.snd

/-- Where a branch goes: to a label, or to an address that is not in the text. -/
inductive Dest (L : Type) where
  | label (l : L)
  | address (a : BitVec 64)

/-- A machine that runs `code`, with the branch whose delay slot it is in, or that has left the
text. -/
inductive Config (L : Type) where
  | running (code : List (Instr L)) (pending : Option (Dest L)) (s : State)
  | left (a : BitVec 64) (s : State)

/-- Go on after an instruction: in a delay slot the branch is done now. -/
def proceed (P : Text L) (code : List (Instr L)) (pending : Option (Dest L)) (s : State) :
    Config L :=
  match pending with
  | none => .running code none s
  | some (.label l) => .running (P.from l) none s
  | some (.address a) => .left a s

/-- **A step.** -/
def step (P : Text L) : Config L → Option (Config L)
  | .running (.op o :: code) pending s => (exec bus s o).map (proceed P code pending)
  | .running (.beqz rs l :: code) none s =>
    some (.running code (if s.get rs = 0 then some (.label l) else none) s)
  | .running (.bnez rs l :: code) none s =>
    some (.running code (if s.get rs = 0 then none else some (.label l)) s)
  | .running (.b l :: code) none s => some (.running code (some (.label l)) s)
  | .running (.jr rs :: code) none s => some (.running code (some (.address (s.get rs))) s)
  | _ => none

/-- `k` steps. -/
def run (P : Text L) : ℕ → Config L → Option (Config L)
  | 0, c => some c
  | k + 1, c => (step bus P c).bind (run P k)

/-- **The run halts**: it leaves the text, at an address and in a state with `Q`. -/
def Halts (P : Text L) (c : Config L) (Q : BitVec 64 → State → Prop) : Prop :=
  ∃ k a s, run bus P k c = some (.left a s) ∧ Q a s

/-- **Code without branches does not get stuck**, and ends with `Q`. -/
def Does (os : List Op) (s : State) (Q : State → Prop) : Prop :=
  ∃ s', execAll bus os s = some s' ∧ Q s'

/-! ### Memory -/

theorem place_place (big : Bool) {i : ℕ} (hi : i < 8) : place big (place big i) = i := by
  unfold place
  cases big
  · rfl
  · simp only [if_true]
    omega

theorem place_lt (big : Bool) {i : ℕ} (hi : i < 8) : place big i < 8 := by
  unfold place
  split_ifs <;> omega

section Memory
variable (big : Bool) (mem : BitVec 64 → Byte) {a b x : BitVec 64}

theorem dword_putDword : dword big (putDword big mem a x) a = x := by
  rw [← le64_bytes x, dword]
  congr 1
  funext i
  have hlt := place_lt big i.isLt
  have hsub : a + BitVec.ofNat 64 (place big i) - a = BitVec.ofNat 64 (place big i) := by
    rw [add_sub_cancel_left]
  have hnat : (BitVec.ofNat 64 (place big i)).toNat = place big i := by
    rw [BitVec.toNat_ofNat, Nat.mod_eq_of_lt (by omega)]
  rw [putDword, hsub, hnat, if_pos hlt, place_place big i.isLt, le64_bytes]

theorem putDword_apart (h : 8 ≤ (b - a).toNat) : putDword big mem a x b = mem b :=
  if_neg (not_lt.mpr h)

theorem dword_putDword_of_ne (ha : a.toNat % 8 = 0) (hb : b.toNat % 8 = 0) (h : b ≠ a) :
    dword big (putDword big mem a x) b = dword big mem b := by
  unfold dword
  congr 1
  funext i
  have hlt := place_lt big i.isLt
  refine putDword_apart big mem ?_
  have hne : b.toNat ≠ a.toNat := fun heq => h (BitVec.eq_of_toNat_eq heq)
  generalize place big i = j at hlt
  bv_omega

theorem whole_of {p : BitVec 64 → Bool} (ha : a.toNat % 8 = 0)
    (h : ∀ i < 8, p (a + .ofNat 64 i) = true) :
    whole p a = true := by
  unfold whole
  rw [Bool.and_eq_true, decide_eq_true_iff, List.all_eq_true]
  exact ⟨ha, fun i hi => h i (List.mem_range.mp hi)⟩

end Memory

/-! ### Registers -/

section Registers
variable {s s' s'' : State} {r r' : Reg} {x : BitVec 64} {rs rs' : List Reg}

@[simp] theorem get_zero (s : State) : s.get .zero = 0 := rfl

theorem get_set (h : r ≠ .zero) : (s.set r x).get r = x := by
  rw [State.get, if_neg h]
  exact if_pos rfl

theorem get_set_of_ne (h : r' ≠ r) : (s.set r x).get r' = s.get r' := by
  have hreg : (s.set r x).reg r' = s.reg r' := if_neg h
  rw [State.get, hreg, State.get]

@[simp] theorem mem_set (s : State) (r : Reg) (x : BitVec 64) : (s.set r x).mem = s.mem := rfl

theorem addr_set {off : BitVec 16} (h : r' ≠ r) : (s.set r x).addr r' off = s.addr r' off := by
  rw [State.addr, get_set_of_ne h, State.addr]

/-- **What is kept**: all registers but `rs`, and the memory. -/
structure Keeps (rs : List Reg) (s s' : State) : Prop where
  mem : s'.mem = s.mem
  reg : ∀ r, r ∉ rs → s'.get r = s.get r

theorem Keeps.refl (rs : List Reg) (s : State) : Keeps rs s s := ⟨rfl, fun _ _ => rfl⟩

theorem Keeps.mono (h : Keeps rs s s') (hrs : rs ⊆ rs') : Keeps rs' s s' :=
  ⟨h.mem, fun r hr => h.reg r fun hr' => hr (hrs hr')⟩

theorem Keeps.trans (h : Keeps rs s s') (h' : Keeps rs' s' s'') : Keeps (rs ++ rs') s s'' where
  mem := h'.mem.trans h.mem
  reg r hr := by
    rw [List.mem_append, not_or] at hr
    rw [h'.reg r hr.2, h.reg r hr.1]

theorem keeps_set : Keeps [r] s (s.set r x) :=
  ⟨rfl, fun _ h => get_set_of_ne fun heq => h (List.mem_singleton.mpr heq)⟩

end Registers

/-! ### Code without branches -/

/-- The registers that an instruction writes. -/
def Op.dests : Op → List Reg
  | .lbu rt _ _ | .ld rt _ _ | .lui rt _ | .ori rt _ _ | .daddiu rt _ _ | .sltiu rt _ _ => [rt]
  | .dsll rd _ _ | .dsrl rd _ _ | .daddu rd _ _ | .or rd _ _ | .xor rd _ _ => [rd]
  | .mflo rd | .move rd _ => [rd]
  | .sd .. | .dmultu .. | .nop => []

/-- The instruction does not write the memory. -/
def Op.quiet : Op → Bool
  | .sd .. => false
  | _ => true

/-- The registers that code writes. -/
def dests (os : List Op) : List Reg := os.flatMap Op.dests

section Code
variable {bus} {s s' : State} {Q R : State → Prop} {o : Op} {os os' : List Op}

theorem exec_keeps (h : exec bus s o = some s') (hq : o.quiet = true) : Keeps o.dests s s' := by
  cases o with
  | lbu rt off base =>
    obtain ⟨-, heq⟩ := Option.ite_none_right_eq_some.1 h
    obtain rfl := Option.some.inj heq
    exact keeps_set
  | ld rt off base =>
    obtain ⟨-, heq⟩ := Option.ite_none_right_eq_some.1 h
    obtain rfl := Option.some.inj heq
    exact keeps_set
  | sd rt off base => cases hq
  | dmultu rs rt =>
    obtain rfl := Option.some.inj h
    exact ⟨rfl, fun _ _ => rfl⟩
  | nop =>
    obtain rfl := Option.some.inj h
    exact .refl _ _
  | lui | ori | daddiu | sltiu | dsll | dsrl | daddu | or | xor | mflo | move =>
    obtain rfl := Option.some.inj h
    exact keeps_set

theorem execAll_keeps (hq : os.all Op.quiet = true) (h : execAll bus os s = some s') :
    Keeps (dests os) s s' := by
  induction os generalizing s with
  | nil =>
    obtain rfl := Option.some.inj h
    exact .refl _ _
  | cons o os ih =>
    rw [List.all_cons, Bool.and_eq_true] at hq
    rw [execAll, Option.bind_eq_some_iff] at h
    obtain ⟨s1, ho, hos⟩ := h
    exact (exec_keeps ho hq.1).trans (ih hq.2 hos)

theorem execAll_append (os os' : List Op) (s : State) :
    execAll bus (os ++ os') s = (execAll bus os s).bind (execAll bus os') := by
  induction os generalizing s with
  | nil => rfl
  | cons o os ih =>
    rw [List.cons_append, execAll, execAll, Option.bind_assoc]
    exact congrArg _ (funext ih)

theorem Does.mono (h : Does bus os s R) (hQ : ∀ s', R s' → Q s') : Does bus os s Q := by
  obtain ⟨s', hrun, hR⟩ := h
  exact ⟨s', hrun, hQ s' hR⟩

theorem Does.append (h : Does bus os s R) (hs : ∀ s', R s' → Does bus os' s' Q) :
    Does bus (os ++ os') s Q := by
  obtain ⟨s', hrun, hR⟩ := h
  obtain ⟨s'', hrun', hQ⟩ := hs s' hR
  refine ⟨s'', ?_, hQ⟩
  rw [execAll_append, hrun, Option.bind_some, hrun']

/-- **The frame rule**: code that stores nothing keeps the memory and the registers it does not
name. -/
theorem Does.kept (h : Does bus os s Q) (hq : os.all Op.quiet = true) :
    Does bus os s fun s' => Q s' ∧ Keeps (dests os) s s' := by
  obtain ⟨s', hrun, hQ⟩ := h
  exact ⟨s', hrun, hQ, execAll_keeps hq hrun⟩

theorem Does.keeping {rs : List Reg} (h : Does bus os s Q) (hq : os.all Op.quiet = true)
    (hrs : dests os ⊆ rs) : Does bus os s fun s' => Q s' ∧ Keeps rs s s' :=
  (h.kept hq).mono fun _ hs' => ⟨hs'.1, hs'.2.mono hrs⟩

theorem Does.then (h : Does bus os s R) (hq : os.all Op.quiet = true)
    (hs : ∀ s', R s' → Keeps (dests os) s s' → Does bus os' s' Q) : Does bus (os ++ os') s Q :=
  (h.kept hq).append fun s' hs' => hs s' hs'.1 hs'.2

/-! Instructions one by one. -/

theorem does_nil : Does bus [] s Q ↔ Q s := by
  constructor
  · rintro ⟨s', h, hQ⟩
    obtain rfl := Option.some.inj h
    exact hQ
  · exact fun h => ⟨s, rfl, h⟩

theorem does_cons (h : exec bus s o = some s') : Does bus (o :: os) s Q ↔ Does bus os s' Q := by
  rw [Does, execAll, h, Option.bind_some]
  exact Iff.rfl

variable {rd rs rt base : Reg} {off imm : BitVec 16} {sa : ℕ}

theorem does_lbu (h : bus.reads (s.addr base off) = true) : Does bus (.lbu rt off base :: os) s Q ↔
    Does bus os (s.set rt ((s.mem (s.addr base off)).setWidth 64)) Q := does_cons (if_pos h)

theorem does_ld (h : whole bus.reads (s.addr base off) = true) :
    Does bus (.ld rt off base :: os) s Q ↔
    Does bus os (s.set rt (dword bus.big s.mem (s.addr base off))) Q := does_cons (if_pos h)

theorem does_sd (h : whole bus.writes (s.addr base off) = true) :
    Does bus (.sd rt off base :: os) s Q ↔
    Does bus os { s with mem := putDword bus.big s.mem (s.addr base off) (s.get rt) } Q :=
  does_cons (if_pos h)

theorem does_lui : Does bus (.lui rt imm :: os) s Q ↔
    Does bus os (s.set rt ((imm ++ (0 : BitVec 16)).signExtend 64)) Q := does_cons rfl

theorem does_ori : Does bus (.ori rt rs imm :: os) s Q ↔
    Does bus os (s.set rt (s.get rs ||| imm.setWidth 64)) Q := does_cons rfl

theorem does_daddiu : Does bus (.daddiu rt rs imm :: os) s Q ↔
    Does bus os (s.set rt (s.get rs + imm.signExtend 64)) Q := does_cons rfl

theorem does_sltiu : Does bus (.sltiu rt rs imm :: os) s Q ↔
    Does bus os (s.set rt (if s.get rs < imm.signExtend 64 then 1 else 0)) Q := does_cons rfl

theorem does_dsll : Does bus (.dsll rd rt sa :: os) s Q ↔
    Does bus os (s.set rd (s.get rt <<< sa)) Q := does_cons rfl

theorem does_dsrl : Does bus (.dsrl rd rt sa :: os) s Q ↔
    Does bus os (s.set rd (s.get rt >>> sa)) Q := does_cons rfl

theorem does_daddu : Does bus (.daddu rd rs rt :: os) s Q ↔
    Does bus os (s.set rd (s.get rs + s.get rt)) Q := does_cons rfl

theorem does_or : Does bus (.or rd rs rt :: os) s Q ↔
    Does bus os (s.set rd (s.get rs ||| s.get rt)) Q := does_cons rfl

theorem does_xor : Does bus (.xor rd rs rt :: os) s Q ↔
    Does bus os (s.set rd (s.get rs ^^^ s.get rt)) Q := does_cons rfl

theorem does_move : Does bus (.move rd rs :: os) s Q ↔ Does bus os (s.set rd (s.get rs)) Q :=
  does_cons rfl

end Code

/-! ### Runs -/

section Runs
variable {bus} {P : Text L} {c d : Config L} {s : State} {Q : BitVec 64 → State → Prop}
variable {R : State → Prop} {os : List Op} {code : List (Instr L)} {r : Reg} {l : L}

theorem Halts.after (h : step bus P c = some d) (hd : Halts bus P d Q) : Halts bus P c Q := by
  obtain ⟨k, a, s, hrun, hQ⟩ := hd
  refine ⟨k + 1, a, s, ?_, hQ⟩
  rw [run, h, Option.bind_some, hrun]

theorem Halts.mono {Q' : BitVec 64 → State → Prop} (h : Halts bus P c Q)
    (hQ : ∀ a s, Q a s → Q' a s) :
    Halts bus P c Q' := by
  obtain ⟨k, a, s, hrun, hQa⟩ := h
  exact ⟨k, a, s, hrun, hQ a s hQa⟩

/-- Code without branches, as instructions. -/
def ops (os : List Op) : List (Instr L) := os.map .op

/-- **Code without branches, at the beginning.** -/
theorem Halts.ops (h : Does bus os s R)
    (hs : ∀ s', R s' → Halts bus P (.running code none s') Q) :
    Halts bus P (.running (ops os ++ code) none s) Q := by
  obtain ⟨s', hrun, hR⟩ := h
  have hhalts := hs s' hR
  clear hs hR
  induction os generalizing s with
  | nil =>
    obtain rfl := Option.some.inj hrun
    exact hhalts
  | cons o os ih =>
    rw [execAll, Option.bind_eq_some_iff] at hrun
    obtain ⟨s1, ho, hos⟩ := hrun
    refine .after (d := .running (Lib.Mips.ops os ++ code) none s1) ?_ (ih hos)
    change (exec bus s o).map (proceed P _ none) = _
    rw [ho]
    rfl

theorem Halts.beqz (hzero : s.get r = 0 → Halts bus P (.running (P.from l) none s) Q)
    (hne : s.get r ≠ 0 → Halts bus P (.running code none s) Q) :
    Halts bus P (.running (.beqz r l :: .op .nop :: code) none s) Q := by
  by_cases h : s.get r = 0
  · refine .after (d := .running (.op .nop :: code) (some (.label l)) s) ?_ (.after rfl (hzero h))
    rw [step, if_pos h]
  · refine .after (d := .running (.op .nop :: code) none s) ?_ (.after rfl (hne h))
    rw [step, if_neg h]

theorem Halts.bnez (hne : s.get r ≠ 0 → Halts bus P (.running (P.from l) none s) Q)
    (hzero : s.get r = 0 → Halts bus P (.running code none s) Q) :
    Halts bus P (.running (.bnez r l :: .op .nop :: code) none s) Q := by
  by_cases h : s.get r = 0
  · refine .after (d := .running (.op .nop :: code) none s) ?_ (.after rfl (hzero h))
    rw [step, if_pos h]
  · refine .after (d := .running (.op .nop :: code) (some (.label l)) s) ?_ (.after rfl (hne h))
    rw [step, if_neg h]

theorem Halts.b (h : Halts bus P (.running (P.from l) none s) Q) :
    Halts bus P (.running (.b l :: .op .nop :: code) none s) Q :=
  .after rfl (.after rfl h)

theorem Halts.jr {o : Op} (h : Does bus [o] s (Q (s.get r))) :
    Halts bus P (.running (.jr r :: .op o :: code) none s) Q := by
  obtain ⟨s', hrun, hQ⟩ := h
  have ho : exec bus s o = some s' := by
    have hend : execAll bus [] = some := rfl
    rwa [execAll, hend, Option.bind_fun_some] at hrun
  refine .after rfl (.after (d := .left (s.get r) s') ?_ ⟨0, _, _, rfl, hQ⟩)
  rw [step, ho]
  rfl

end Runs

end Hayahash.Lib.Mips
