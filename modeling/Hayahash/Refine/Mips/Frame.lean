import Hayahash.Ports.Mips
import Hayahash.C.Loads
import Hayahash.Spec.Reference

/-! # The macros, the key and the frame of the MIPS64 assembly

One lemma a macro: which value is where after it. The bytes of the key are the ones the caller left
(`Holds`), the frame is doublewords (`slot`), and what a piece of code changes is a list of
registers and a list of doublewords (`Changes`). `Ready` is what holds between the pieces of the
code: the frame is set up, and the position, the rest of the length, `s`, `K` and the key are in
their registers. -/

namespace Hayahash.Refine.Mips.Frame

open Hayahash.Lib.ReadProg Hayahash.Lib.Bytes Hayahash.Lib.Mips
open Hayahash.Ports.Mips Hayahash.Spec.Reference
open Hayahash.C.Primitives (Word)

/-! ### Macros -/

section Macros
variable {bus : Bus} {s : State} {rd rs rt base : Reg} {off : BitVec 16}

theorem rotl64_does {n : ℕ} (h : rd ≠ .zero ∧ rs ≠ .t8 ∧ 0 < n ∧ n < 64) :
    Does bus (rotl64 rd rs n) s fun s' => s'.get rd = C.Primitives.rotl (s.get rs) n := by
  obtain ⟨hrd, hrs, h0, hn⟩ := h
  unfold rotl64
  simp only [does_dsll, does_dsrl, does_or, does_nil, get_set hrd]
  rw [get_set_of_ne (by decide), get_set (by decide), get_set (by decide), get_set_of_ne hrs,
    C.Primitives.rotl, Nat.mod_eq_of_lt (a := 64 - n) (by omega)]

theorem mul64_does (hrd : rd ≠ .zero) :
    Does bus (mul64 rd rs rt) s fun s' => s'.get rd = s.get rs * s.get rt := by
  have hlow : ((s.get rs).setWidth 128 * (s.get rt).setWidth 128).setWidth 64 =
    s.get rs * s.get rt := by
    rw [BitVec.setWidth_mul _ _ (by decide), BitVec.setWidth_setWidth_of_le _ (by decide),
      BitVec.setWidth_setWidth_of_le _ (by decide), BitVec.setWidth_eq, BitVec.setWidth_eq]
  exact ⟨_, rfl, (get_set hrd).trans hlow⟩

/-- The registers that a load uses. -/
def loadTemps : List Reg := [.t8, .t9, .at']

theorem load64le_dests : dests (load64le rd base off) ⊆ rd :: loadTemps := by
  simp [load64le, loadTemps, dests, Op.dests]

theorem load32le_dests : dests (load32le rd base off) ⊆ rd :: loadTemps := by
  simp [load32le, loadTemps, dests, Op.dests]

theorem load64le_does (hrd : rd ≠ .zero) (hbase : base ∉ loadTemps) {b : Fin 8 → Byte}
    (h : ∀ i : Fin 8, bus.reads (s.addr base (off + .ofNat 16 i)) = true ∧
      s.mem (s.addr base (off + .ofNat 16 i)) = b i) :
    Does bus (load64le rd base off) s fun s' => s'.get rd = le64 b := by
  simp only [loadTemps, List.mem_cons, List.not_mem_nil, or_false, not_or] at hbase
  obtain ⟨h8, h9, hat⟩ := hbase
  have r0 : bus.reads (s.addr base (off + 0)) = true := (h 0).1
  have r1 : bus.reads (s.addr base (off + 1)) = true := (h 1).1
  have r2 : bus.reads (s.addr base (off + 2)) = true := (h 2).1
  have r3 : bus.reads (s.addr base (off + 3)) = true := (h 3).1
  have r4 : bus.reads (s.addr base (off + 4)) = true := (h 4).1
  have r5 : bus.reads (s.addr base (off + 5)) = true := (h 5).1
  have r6 : bus.reads (s.addr base (off + 6)) = true := (h 6).1
  have r7 : bus.reads (s.addr base (off + 7)) = true := (h 7).1
  have m0 : s.mem (s.addr base (off + 0)) = b 0 := (h 0).2
  have m1 : s.mem (s.addr base (off + 1)) = b 1 := (h 1).2
  have m2 : s.mem (s.addr base (off + 2)) = b 2 := (h 2).2
  have m3 : s.mem (s.addr base (off + 3)) = b 3 := (h 3).2
  have m4 : s.mem (s.addr base (off + 4)) = b 4 := (h 4).2
  have m5 : s.mem (s.addr base (off + 5)) = b 5 := (h 5).2
  have m6 : s.mem (s.addr base (off + 6)) = b 6 := (h 6).2
  have m7 : s.mem (s.addr base (off + 7)) = b 7 := (h 7).2
  rw [← C.Loads.decode64_eq .unknown]
  simp only [load64le, does_lbu, does_dsll, does_or, does_nil, addr_set, mem_set, get_set,
    get_set_of_ne, ne_eq, reduceCtorEq, not_false_eq_true, h8, h9, hat, hrd, r0, r1, r2, r3, r4,
    r5, r6, r7, m0, m1, m2, m3, m4, m5, m6, m7, C.Primitives.decode64]

theorem load32le_does (hrd : rd ≠ .zero) (hbase : base ∉ loadTemps) {b : Fin 4 → Byte}
    (h : ∀ i : Fin 4, bus.reads (s.addr base (off + .ofNat 16 i)) = true ∧
      s.mem (s.addr base (off + .ofNat 16 i)) = b i) :
    Does bus (load32le rd base off) s fun s' => s'.get rd = (le32 b).setWidth 64 := by
  simp only [loadTemps, List.mem_cons, List.not_mem_nil, or_false, not_or] at hbase
  obtain ⟨h8, h9, hat⟩ := hbase
  have r0 : bus.reads (s.addr base (off + 0)) = true := (h 0).1
  have r1 : bus.reads (s.addr base (off + 1)) = true := (h 1).1
  have r2 : bus.reads (s.addr base (off + 2)) = true := (h 2).1
  have r3 : bus.reads (s.addr base (off + 3)) = true := (h 3).1
  have m0 : s.mem (s.addr base (off + 0)) = b 0 := (h 0).2
  have m1 : s.mem (s.addr base (off + 1)) = b 1 := (h 1).2
  have m2 : s.mem (s.addr base (off + 2)) = b 2 := (h 2).2
  have m3 : s.mem (s.addr base (off + 3)) = b 3 := (h 3).2
  rw [← C.Loads.decode32_eq .unknown]
  simp only [load32le, does_lbu, does_dsll, does_or, does_nil, addr_set, mem_set, get_set,
    get_set_of_ne, ne_eq, reduceCtorEq, not_false_eq_true, h8, h9, hat, hrd, r0, r1, r2, r3, m0,
    m1, m2, m3, C.Primitives.decode32]

theorem injBy_does (h : rd ≠ .zero ∧ rs ∉ [Reg.t8, .t9, .a3]) {j k : ℕ}
    (hjk : (0 < j ∧ j < 64) ∧ 0 < k ∧ k < 64) : Does bus (injBy j k rd rs) s fun s' =>
      s'.get rd = s.get rs ^^^ C.Primitives.rotl (s.get rs) j ^^^ C.Primitives.rotl
        (s.get rs) k := by
  simp only [List.mem_cons, List.not_mem_nil, or_false, not_or] at h
  obtain ⟨hrd, h8, h9, h3⟩ := h
  unfold injBy
  refine (rotl64_does ⟨by decide, h8, hjk.1⟩).then
    rfl fun s1 v1 (k1 : Keeps [.t8, .t9, .a3] s s1) => ?_
  have hkeep1 : s1.get rs = s.get rs := k1.reg rs (by simp [h8, h9, h3])
  simp only [List.cons_append, List.nil_append, does_xor]
  refine (rotl64_does ⟨by decide, h8, hjk.2⟩).then
    rfl fun s2 v2 (k2 : Keeps [.t8, .t9, .t8] _ s2) => ?_
  have hkeep2 := k2.reg .a3 (by decide)
  rw [get_set_of_ne h3, hkeep1] at v2
  rw [get_set (by decide), hkeep1, v1] at hkeep2
  rw [does_xor, does_nil, get_set hrd, hkeep2, v2]

theorem inj_does (h : rd ≠ .zero ∧ rs ∉ [Reg.t8, .t9, .a3]) : Does bus (inj rd rs) s fun s' =>
    s'.get rd = C.Primitives.inj (s.get rs) :=
  injBy_does h (by decide)

theorem inj2_does (h : rd ≠ .zero ∧ rs ∉ [Reg.t8, .t9, .a3]) : Does bus (inj2 rd rs) s fun s' =>
    s'.get rd = C.Primitives.inj2 (s.get rs) :=
  injBy_does h (by decide)

theorem constant_does {a b c d : BitVec 16} (h : rd ≠ .zero ∧ rt ≠ .zero ∧ rd ≠ rt) :
    Does bus (constant rd rt a b c d) s fun s' => s'.get rd =
      (((a ++ (0 : BitVec 16)).signExtend 64 ||| b.setWidth 64) <<< 32) |||
        ((c ++ (0 : BitVec 16)).signExtend 64 ||| d.setWidth 64) := by
  simp only [constant, does_lui, does_ori, does_dsll, does_or, does_nil, get_set,
    get_set_of_ne, ne_eq, not_false_eq_true, h]

theorem constantCleared_does {a b c d : BitVec 16} (h : rd ≠ .zero ∧ rt ≠ .zero ∧ rd ≠ rt) :
    Does bus (constantCleared rd rt a b c d) s fun s' => s'.get rd =
      (((a ++ (0 : BitVec 16)).signExtend 64 ||| b.setWidth 64) <<< 32) |||
        (((c ++ (0 : BitVec 16)).signExtend 64 ||| d.setWidth 64) <<< 32 >>> 32) := by
  simp only [constantCleared, does_lui, does_ori, does_dsll, does_dsrl, does_or, does_nil, get_set,
    get_set_of_ne, ne_eq, not_false_eq_true, h]

theorem xorShift_does (hrd : rd ∉ [Reg.zero, .t1]) {n : ℕ} : Does bus (xorShift rd n) s fun s' =>
    s'.get rd = s.get rd ^^^ (s.get rd >>> n) := by
  simp only [List.mem_cons, List.not_mem_nil, or_false, not_or] at hrd
  simp only [xorShift, does_dsrl, does_xor, does_nil, get_set, get_set_of_ne, ne_eq, reduceCtorEq,
    not_false_eq_true, hrd]

theorem fmix128_does : Does bus (fmix128 .v1) s fun s' =>
    s'.get .v1 = C.Primitives.fmix128 (s.get .v1) := by
  unfold fmix128
  refine (xorShift_does (by decide)).then rfl fun s1 v1 k1 => ?_
  refine (constantCleared_does (by decide)).then rfl fun s2 v2 k2 => ?_
  refine (mul64_does (by decide)).then rfl fun s3 v3 k3 => ?_
  refine (xorShift_does (by decide)).then rfl fun s4 v4 k4 => ?_
  refine (constant_does (by decide)).then rfl fun s5 v5 k5 => ?_
  refine (mul64_does (by decide)).then rfl fun s6 v6 k6 => ?_
  refine (xorShift_does (by decide)).mono fun s7 v7 => ?_
  have hN1 : s2.get .t3 = C.Primitives.N1 := v2.trans (by decide)
  have hN2 : s5.get .t3 = C.Primitives.N2 := v5.trans (by decide)
  rw [v7, v6, hN2, k5.reg .v1 (by decide), v4, v3, hN1, k2.reg .v1 (by decide), v1,
    C.Primitives.fmix128]

end Macros

/-! ### The key -/

section Key
variable {c : Call} {s : State} {q : ℕ}

/-- The key is still in the memory. -/
def Holds (c : Call) (s : State) : Prop := ∀ a, c.inKey a = true → s.mem a = c.start.mem a

theorem signExtend_ofNat {m : ℕ} (hm : m < 2 ^ 15) :
    (BitVec.ofNat 16 m).signExtend 64 = BitVec.ofNat 64 m := by
  have hmsb : (BitVec.ofNat 16 m).msb = false := by
    rw [BitVec.msb_eq_decide, BitVec.toNat_ofNat, Nat.mod_eq_of_lt (by omega)]
    exact decide_eq_false (by omega)
  rw [BitVec.signExtend_eq_setWidth_of_msb_false hmsb, BitVec.setWidth_ofNat_of_le_of_lt (by decide)
    (by omega)]

theorem addr_key {base : Reg} (hbase : s.get base = c.key + .ofNat 64 q) {o i : ℕ}
    (ho : o + i < 2 ^ 15) : s.addr base (.ofNat 16 o + .ofNat 16 i) =
      c.key + .ofNat 64 (q + o + i) := by
  rw [State.addr, hbase, ← BitVec.ofNat_add, signExtend_ofNat ho,
    BitVec.add_assoc, ← BitVec.ofNat_add, Nat.add_assoc]

theorem inKey_of_lt (hn : c.n < 2 ^ 63) (hq : q < c.n) : c.inKey (c.key + .ofNat 64 q) = true := by
  have hsub : c.key + BitVec.ofNat 64 q - c.key = BitVec.ofNat 64 q := by
    rw [add_sub_cancel_left]
  rw [Call.inKey, hsub, BitVec.toNat_ofNat, Nat.mod_eq_of_lt (by omega)]
  exact decide_eq_true hq

/-- **The bytes of the key** may be read, and are there. -/
theorem key_read (hn : c.n < 2 ^ 63) (hs : Holds c s) (hq : q < c.n) :
    c.bus.reads (c.key + .ofNat 64 q) = true ∧ s.mem (c.key + .ofNat 64 q) = c.mem q := by
  have hin := inKey_of_lt hn hq
  constructor
  · change (c.inKey _ || c.inFrame _) = true
    rw [hin, Bool.true_or]
  · rw [hs _ hin, Call.mem, BitVec.ofInt_natCast]

/-- **A word of the key.** -/
theorem word64_does (hn : c.n < 2 ^ 63) (hs : Holds c s) {rd base : Reg} {o : ℕ}
    (h : rd ≠ .zero ∧ base ∉ loadTemps ∧ o < 2 ^ 14) (hq : s.get base = c.key + .ofNat 64 q)
    (hfit : q + o + 8 ≤ c.n) : Does c.bus (load64le rd base (.ofNat 16 o)) s fun s' =>
      s'.get rd = word64 c.mem (q + o : ℕ) ∧ Keeps (rd :: loadTemps) s s' := by
  have hword : word64 c.mem (q + o : ℕ) = le64 fun i => c.mem (q + o + i : ℕ) := by
    unfold word64
    push_cast
    rfl
  rw [hword]
  have hload : Does c.bus (load64le rd base (.ofNat 16 o)) s fun s' =>
      s'.get rd = le64 fun i => c.mem (q + o + i : ℕ) := by
    have ho := h.2.2
    refine load64le_does h.1 h.2.1 fun i => ?_
    rw [addr_key hq (by omega)]
    exact key_read hn hs (by omega)
  exact hload.keeping rfl load64le_dests

/-- **A half word of the key.** -/
theorem word32_does (hn : c.n < 2 ^ 63) (hs : Holds c s) {rd base : Reg} {o : ℕ}
    (h : rd ≠ .zero ∧ base ∉ loadTemps ∧ o < 2 ^ 14) (hq : s.get base = c.key + .ofNat 64 q)
    (hfit : q + o + 4 ≤ c.n) : Does c.bus (load32le rd base (.ofNat 16 o)) s fun s' =>
      s'.get rd = (word32 c.mem (q + o : ℕ)).setWidth 64 ∧ Keeps (rd :: loadTemps) s s' := by
  have hword : word32 c.mem (q + o : ℕ) = le32 fun i => c.mem (q + o + i : ℕ) := by
    unfold word32
    push_cast
    rfl
  rw [hword]
  have hload : Does c.bus (load32le rd base (.ofNat 16 o)) s fun s' =>
      s'.get rd = (le32 fun i => c.mem (q + o + i : ℕ)).setWidth 64 := by
    have ho := h.2.2
    refine load32le_does h.1 h.2.1 fun i => ?_
    rw [addr_key hq (by omega)]
    exact key_read hn hs (by omega)
  exact hload.keeping rfl load32le_dests

end Key

/-! ### The frame -/

section Frame
variable {c : Call} {s s' : State} {w x : Word} {off off' : BitVec 16} {rs : List Reg}

/-- The offset is one of a doubleword of the frame. -/
def IsSlot (off : BitVec 16) : Prop := off.toNat % 8 = 0 ∧ off.toNat < 128

instance (off : BitVec 16) : Decidable (IsSlot off) :=
  inferInstanceAs (Decidable (_ ∧ _))

/-- A doubleword of the frame. -/
def slot (c : Call) (s : State) (off : BitVec 16) : Word :=
  dword c.big s.mem (c.frame + off.signExtend 64)

theorem toNat_slot (h : IsSlot off) : (off.signExtend 64).toNat = off.toNat := by
  have hlt := h.2
  have hoff : BitVec.ofNat 16 off.toNat = off := by rw [BitVec.ofNat_toNat, BitVec.setWidth_eq]
  rw [← hoff, signExtend_ofNat (by omega), BitVec.toNat_ofNat, BitVec.toNat_ofNat]
  omega

theorem frame_aligned (hc : c.Valid) : c.frame.toNat % 8 = 0 := by
  have hsp := hc.aligned
  unfold Call.frame
  generalize c.start.get .sp = sp at hsp
  bv_omega

/-- **A doubleword of the frame** may be read and written. -/
theorem slot_access (hc : c.Valid) (h : IsSlot off) :
    whole c.bus.reads (c.frame + off.signExtend 64) = true ∧
      whole c.bus.writes (c.frame + off.signExtend 64) = true := by
  have hfr := frame_aligned hc
  have hoff := toNat_slot h
  obtain ⟨h8, h128⟩ := h
  have hal : (c.frame + off.signExtend 64).toNat % 8 = 0 := by
    rw [BitVec.toNat_add, hoff]
    omega
  have hin : ∀ i < 8, c.inFrame (c.frame + off.signExtend 64 + .ofNat 64 i) = true := by
    intro i hi
    unfold Call.inFrame
    refine decide_eq_true ?_
    bv_omega
  refine ⟨whole_of hal fun i hi => ?_, whole_of hal hin⟩
  change (c.inKey _ || c.inFrame _) = true
  rw [hin i hi, Bool.or_true]

/-- The state with a doubleword of the frame written. -/
def put (c : Call) (s : State) (off : BitVec 16) (x : Word) : State :=
  { s with mem := putDword c.big s.mem (c.frame + off.signExtend 64) x }

@[simp] theorem get_put (r : Reg) : (put c s off x).get r = s.get r := rfl

theorem slot_put (hc : c.Valid) (h : IsSlot off) (h' : IsSlot off') :
    slot c (put c s off x) off' = if off' = off then x else slot c s off' := by
  have hfr := frame_aligned hc
  have hoff := toNat_slot h
  have hoff' := toNat_slot h'
  unfold slot put
  dsimp only
  split_ifs with heq
  · rw [heq, dword_putDword]
  · have hne : c.frame + off'.signExtend 64 ≠ c.frame + off.signExtend 64 := by
      intro he
      refine heq (BitVec.eq_of_toNat_eq ?_)
      rw [← hoff, ← hoff', add_left_cancel he]
    refine dword_putDword_of_ne c.big s.mem ?_ ?_ hne
    · rw [BitVec.toNat_add, hoff]
      have := h.1
      omega
    · rw [BitVec.toNat_add, hoff']
      have := h'.1
      omega

theorem holds_put (hc : c.Valid) (h : IsSlot off) (hs : Holds c s) : Holds c (put c s off x) := by
  intro a ha
  have hout := hc.apart a ha
  have hoff := toNat_slot h
  have hlt := h.2
  unfold Call.inFrame at hout
  have hge := of_decide_eq_false hout
  rw [← hs a ha]
  refine putDword_apart c.big s.mem ?_
  have h8 := h.1
  bv_omega

theorem does_slot (hc : c.Valid) (hsp : s.get .sp = c.frame) (h : IsSlot off) {rt : Reg}
    {os : List Op} {Q : State → Prop} : Does c.bus (.ld rt off .sp :: os) s Q ↔
      Does c.bus os (s.set rt (slot c s off)) Q := by
  have haddr : s.addr .sp off = c.frame + off.signExtend 64 := by rw [State.addr, hsp]
  rw [does_ld (by rw [haddr]; exact (slot_access hc h).1), haddr]
  exact Iff.rfl

theorem does_put (hc : c.Valid) (hsp : s.get .sp = c.frame) (h : IsSlot off) {rt : Reg}
    {os : List Op} {Q : State → Prop} : Does c.bus (.sd rt off .sp :: os) s Q ↔
      Does c.bus os (put c s off (s.get rt)) Q := by
  have haddr : s.addr .sp off = c.frame + off.signExtend 64 := by rw [State.addr, hsp]
  rw [does_sd (by rw [haddr]; exact (slot_access hc h).2), haddr]
  exact Iff.rfl

/-! What a piece of code changes. -/

/-- **What is changed**: the registers `rs` and the doublewords `offs` of the frame, and not the
key. -/
structure Changes (c : Call) (rs : List Reg) (offs : List (BitVec 16)) (s s' : State) : Prop where
  reg : ∀ r, r ∉ rs → s'.get r = s.get r
  slot : ∀ off, IsSlot off → off ∉ offs → slot c s' off = slot c s off
  holds : Holds c s → Holds c s'

theorem changes_keeps (k : Keeps rs s s') : Changes c rs [] s s' where
  reg := k.reg
  slot off _ _ := by rw [Frame.slot, k.mem, Frame.slot]
  holds h a ha := by rw [k.mem]; exact h a ha

theorem changes_put (hc : c.Valid) (h : IsSlot off) : Changes c [] [off] s (put c s off x) where
  reg _ _ := rfl
  slot off' h' hne := by
    rw [slot_put hc h h', if_neg fun heq => hne (List.mem_singleton.mpr heq)]
  holds := holds_put hc h

theorem Changes.trans {s'' : State} {rs' : List Reg} {offs offs' : List (BitVec 16)}
    (h : Changes c rs offs s s') (h' : Changes c rs' offs' s' s'') :
    Changes c (rs ++ rs') (offs ++ offs') s s'' where
  reg r hr := by
    rw [List.mem_append, not_or] at hr
    rw [h'.reg r hr.2, h.reg r hr.1]
  slot off hoff hnot := by
    rw [List.mem_append, not_or] at hnot
    rw [h'.slot off hoff hnot.2, h.slot off hoff hnot.1]
  holds hs := h'.holds (h.holds hs)

theorem Changes.mono {rs' : List Reg} {offs offs' : List (BitVec 16)} (h : Changes c rs offs s s')
    (hrs : rs ⊆ rs') (hoffs : offs ⊆ offs') : Changes c rs' offs' s s' :=
  ⟨fun r hr => h.reg r fun hr' => hr (hrs hr'), fun off hoff hnot => h.slot off hoff fun ho =>
  hnot (hoffs ho), h.holds⟩

theorem stores_does (hc : c.Valid) : ∀ (xs : List (BitVec 16 × Reg)) {s : State},
    (∀ x ∈ xs, IsSlot x.1) → (xs.map Prod.fst).Nodup → s.get .sp = c.frame →
    Does c.bus (xs.map fun x => .sd x.2 x.1 .sp) s fun s' =>
      Changes c [] (xs.map Prod.fst) s s' ∧ ∀ x ∈ xs, slot c s' x.1 = s.get x.2 := by
  intro xs
  induction xs with
  | nil =>
    intro s _ _ _
    exact does_nil.2 ⟨changes_keeps (.refl _ _), by rintro x ⟨⟩⟩
  | cons x xs ih =>
    intro s hslots hnodup hsp
    rw [List.map_cons, List.nodup_cons] at hnodup
    have hx := hslots x List.mem_cons_self
    rw [List.map_cons, does_put hc hsp hx]
    have hrest :=
      ih (s := put c s x.1 (s.get x.2)) (fun y hy => hslots y (List.mem_cons_of_mem _ hy))
      hnodup.2 hsp
    refine hrest.mono ?_
    rintro s' ⟨hch, hput⟩
    refine ⟨(changes_put hc hx).trans hch, fun y hy => ?_⟩
    rcases List.mem_cons.1 hy with rfl | hy
    · rw [hch.slot _ hx hnodup.1, slot_put hc hx hx, if_pos rfl]
    · exact hput y hy

theorem loads_does (hc : c.Valid) : ∀ (xs : List (BitVec 16 × Reg)) {s : State},
    (∀ x ∈ xs, IsSlot x.1 ∧ x.2 ≠ .zero ∧ x.2 ≠ .sp) → (xs.map Prod.snd).Nodup →
    s.get .sp = c.frame → Does c.bus (xs.map fun x => .ld x.2 x.1 .sp) s fun s' =>
      (∀ x ∈ xs, s'.get x.2 = slot c s x.1) ∧ Keeps (xs.map Prod.snd) s s' := by
  intro xs
  induction xs with
  | nil =>
    intro s _ _ _
    exact does_nil.2 ⟨by rintro x ⟨⟩, .refl _ _⟩
  | cons x xs ih =>
    intro s hslots hnodup hsp
    rw [List.map_cons, List.nodup_cons] at hnodup
    obtain ⟨hx, hzero, hnsp⟩ := hslots x List.mem_cons_self
    rw [List.map_cons, does_slot hc hsp hx]
    have hsp' : (s.set x.2 (slot c s x.1)).get .sp = c.frame := by rw [get_set_of_ne hnsp.symm, hsp]
    refine (ih (fun y hy => hslots y (List.mem_cons_of_mem _ hy)) hnodup.2 hsp').mono ?_
    rintro s' ⟨hget, hkeep⟩
    refine ⟨fun y hy => ?_, keeps_set.trans hkeep⟩
    rcases List.mem_cons.1 hy with rfl | hy
    · rw [hkeep.reg _ hnodup.1, get_set hzero]
    · exact hget y hy

end Frame

/-! ### The states between the pieces -/

section Ready
variable {c : Call} {s s' : State} {w : Word} {p l : ℕ} {rs : List Reg} {offs : List (BitVec 16)}

/-- **The frame is set up.** -/
structure Framed (c : Call) (w : Word) (s : State) : Prop where
  sp : s.get .sp = c.frame
  holds : Holds c s
  len : slot c s offN = .ofNat 64 c.n
  wide : slot c s offWide = w
  saved : ∀ x ∈ savedRegs, slot c s x.1 = c.start.get x.2

/-- **Ready for the next `l` bytes**, the first of which is at `p`. -/
structure Ready (c : Call) (w : Word) (p l : ℕ) (s : State) : Prop extends Framed c w s where
  s0 : s.get .s0 = c.key + .ofNat 64 p
  s1 : s.get .s1 = .ofNat 64 l
  s2 : s.get .s2 = c.seed ^^^ C.Primitives.K
  s3 : s.get .s3 = C.Primitives.K
  fp : s.get .fp = c.key

/-- The registers that `Ready` is about. -/
def fixed : List Reg := [.sp, .s0, .s1, .s2, .s3, .fp]

/-- The offsets that `Framed` is about. -/
def kept : List (BitVec 16) := offN :: offWide :: savedRegs.map Prod.fst

theorem kept_apart : ∀ off ∈ kept, off ∉ spilledRegs.map Prod.fst := by
  have h : ∀ x ∈ spilledRegs, x.1 ∉ kept := by decide
  intro off hoff hmem
  obtain ⟨x, hx, rfl⟩ := List.mem_map.1 hmem
  exact h x hx hoff

theorem Framed.changes (h : Framed c w s) (k : Changes c rs offs s s') (hsp : .sp ∉ rs)
    (hoffs : ∀ off ∈ kept, off ∉ offs) : Framed c w s' where
  sp := (k.reg _ hsp).trans h.sp
  holds := k.holds h.holds
  len := (k.slot _ (by decide) (hoffs _ (by decide))).trans h.len
  wide := (k.slot _ (by decide) (hoffs _ (by decide))).trans h.wide
  saved x hx := by
    have hslot : ∀ y ∈ savedRegs, IsSlot y.1 := by decide
    have hmem : x.1 ∈ kept :=
      List.mem_cons_of_mem _ (List.mem_cons_of_mem _ (List.mem_map_of_mem hx))
    rw [k.slot _ (hslot x hx) (hoffs _ hmem), h.saved x hx]

theorem Framed.keeps (h : Framed c w s) (k : Keeps rs s s') (hsp : .sp ∉ rs) : Framed c w s' :=
  h.changes (changes_keeps k) hsp fun _ _ => List.not_mem_nil

theorem Ready.changes (h : Ready c w p l s) (k : Changes c rs offs s s') (hrs : ∀ r ∈ fixed, r ∉ rs)
    (hoffs : ∀ off ∈ kept, off ∉ offs) : Ready c w p l s' where
  toFramed := h.toFramed.changes k (hrs _ (by decide)) hoffs
  s0 := (k.reg _ (hrs _ (by decide))).trans h.s0
  s1 := (k.reg _ (hrs _ (by decide))).trans h.s1
  s2 := (k.reg _ (hrs _ (by decide))).trans h.s2
  s3 := (k.reg _ (hrs _ (by decide))).trans h.s3
  fp := (k.reg _ (hrs _ (by decide))).trans h.fp

theorem Ready.keeps (h : Ready c w p l s) (k : Keeps rs s s') (hrs : ∀ r ∈ fixed, r ∉ rs) :
    Ready c w p l s' :=
  h.changes (changes_keeps k) hrs fun _ _ => List.not_mem_nil

theorem Ready.kept {os : List Op} {Q : State → Prop} (hr : Ready c w p l s) (h : Does c.bus os s Q)
    (hq : os.all Op.quiet = true) (hrs : ∀ r ∈ fixed, r ∉ dests os) :
    Does c.bus os s fun s' => Ready c w p l s' ∧ Q s' :=
  (h.kept hq).mono fun _ hs' => ⟨hr.keeps hs'.2 hrs, hs'.1⟩

theorem Ready.nothing_left (hr : Ready c w p l s) (hl : l < 2 ^ 63) : s.get .s1 = 0 ↔ l = 0 := by
  rw [hr.s1]
  constructor
  · intro h0
    have hnat := congrArg BitVec.toNat h0
    rwa [BitVec.toNat_ofNat, Nat.mod_eq_of_lt (by omega)] at hnat
  · rintro rfl
    rfl

end Ready

end Hayahash.Refine.Mips.Frame
