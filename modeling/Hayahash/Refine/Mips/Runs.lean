import Hayahash.Refine.Mips.Pieces
import Hayahash.Spec.Stripes

/-! # The runs of the MIPS64 assembly

`Goes`: the run from a label on leaves the text at the caller, with the registers of the caller
restored and the words in `$v0` and `$v1`. One lemma a label, from the last one backwards, in every
state in which the label can be reached; the loops are by induction on the length that is left. -/

namespace Hayahash.Refine.Mips.Runs

open Hayahash.Lib.ReadProg Hayahash.Lib.Bytes Hayahash.Lib.Mips
open Hayahash.Ports.Mips Hayahash.Spec.Reference Hayahash.Spec.Stripes
open Hayahash.Refine.Mips.Frame Hayahash.Refine.Mips.Pieces
open Hayahash.C.Primitives (Word Lanes4 Lanes8)

variable {c : Call} {s : State} {w lo hi : Word} {p l : ℕ}

/-! ### The text from each label

The code of a label runs on into that of the next one. -/

theorem from_hayahash64 : text.from .hayahash64 = hayahash64 ++ text.from .hayahash128 := rfl

theorem from_hayahash128 : text.from .hayahash128 = hayahash128 ++ text.from .entry := rfl

theorem from_entry : text.from .entry = entry ++ text.from .short47 := rfl

theorem from_short47 : text.from .short47 = short47 ++ text.from .short13 := rfl

theorem from_short13 : text.from .short13 = short13 ++ text.from .shortEmpty := rfl

theorem from_shortEmpty : text.from .shortEmpty = shortEmpty ++ text.from .shortMix := rfl

theorem from_shortMix : text.from .shortMix = shortMix ++ text.from .midSetup := rfl

theorem from_midSetup : text.from .midSetup = midSetup ++ text.from .bulk := rfl

theorem from_bulk : text.from .bulk = bulk ++ text.from .bulkLoop := rfl

theorem from_bulkLoop : text.from .bulkLoop = bulkLoop ++ text.from .midLoop := rfl

theorem from_midLoop : text.from .midLoop = midLoop ++ text.from .wall := rfl

theorem from_wall : text.from .wall = wall ++ text.from .tailEnd := rfl

theorem from_tailEnd : text.from .tailEnd = tailEnd ++ text.from .fold := rfl

theorem from_fold : text.from .fold = fold ++ text.from .epilogue := rfl

theorem from_epilogue : text.from .epilogue = epilogue ++ [] := rfl

/-! ### The frame is set up and taken down -/

/-- **The registers of the caller are saved**, and still what they were. -/
structure Saved (c : Call) (w : Word) (s : State) : Prop where
  reg : ∀ r, r ≠ .sp → r ≠ .a3 → s.get r = c.start.get r
  a3 : s.get .a3 = w
  sp : s.get .sp = c.frame
  holds : Holds c s
  saved : ∀ x ∈ savedRegs, slot c s x.1 = c.start.get x.2

theorem saves_does (hc : c.Valid) (k : Keeps [.a3] c.start s) (hw : s.get .a3 = w) :
    Does c.bus ([.daddiu .sp .sp (-frm)] ++ savedRegs.map fun x => .sd x.2 x.1 .sp) s
      (Saved c w) := by
  have hframe : s.get .sp + (-frm).signExtend 64 = c.frame := by
    rw [k.reg _ (by decide), Call.frame, sub_eq_add_neg]
    rfl
  rw [List.singleton_append, does_daddiu, hframe]
  have k1 : Keeps [.sp] s (s.set .sp c.frame) := keeps_set
  have hsp1 : (s.set .sp c.frame).get .sp = c.frame := get_set (by decide)
  have hreg1 : ∀ r, r ≠ .sp → r ≠ .a3 → (s.set .sp c.frame).get r = c.start.get r :=
    fun r hsp h3 => by
    rw [k1.reg r (by simp [hsp]), k.reg r (by simp [h3])]
  refine (stores_does hc savedRegs (by decide) (by decide) hsp1).mono ?_
  rintro s2 ⟨k2, hput⟩
  refine ⟨fun r hsp h3 => ?_, ?_, ?_, ?_, fun x hx => ?_⟩
  · rw [k2.reg r List.not_mem_nil, hreg1 r hsp h3]
  · rw [k2.reg _ List.not_mem_nil, k1.reg _ (by decide), hw]
  · rw [k2.reg _ List.not_mem_nil, hsp1]
  · exact k2.holds fun a _ => by rw [k1.mem, k.mem]
  · have hregs : ∀ y ∈ savedRegs, y.2 ≠ .sp ∧ y.2 ≠ .a3 := by decide
    rw [hput x hx, hreg1 _ (hregs x hx).1 (hregs x hx).2]

theorem prologue_does (hc : c.Valid) (k : Keeps [.a3] c.start s) (hw : s.get .a3 = w) :
    Does c.bus prologue s (Ready c w 0 c.n) := by
  unfold prologue
  rw [← List.append_assoc]
  refine (saves_does hc k hw).append fun s2 hs2 => ?_
  change Does c.bus ([.move .fp .a0, .move .s0 .a0, .move .s1 .a1] ++
    ([(offN, Reg.a1), (offWide, Reg.a3)].map (fun x => .sd x.2 x.1 .sp) ++ _)) _ _
  have hmoves : Does c.bus [.move .fp .a0, .move .s0 .a0, .move .s1 .a1] s2 fun s3 =>
      s3.get .fp = c.key ∧ s3.get .s0 = c.key ∧ s3.get .s1 = .ofNat 64 c.n := by
    rw [does_move, does_move, does_move, does_nil]
    refine ⟨?_, ?_, ?_⟩
    · simp [get_set, get_set_of_ne, hs2.reg, Call.key]
    · simp [get_set, get_set_of_ne, hs2.reg, Call.key]
    · simp [get_set, get_set_of_ne, hs2.reg, hc.length]
  refine hmoves.then rfl fun s3 hm (k3 : Keeps [.fp, .s0, .s1] s2 s3) => ?_
  have hsp3 : s3.get .sp = c.frame := by rw [k3.reg _ (by decide), hs2.sp]
  refine (stores_does hc [(offN, Reg.a1), (offWide, Reg.a3)] (by decide) (by decide) hsp3).append ?_
  rintro s4 ⟨k4, hput4⟩
  refine (constant_does (by decide)).then rfl fun s5 v5 k5 => ?_
  have k5 : Keeps [.s3, .t1] s4 s5 := k5.mono (by decide)
  have hK : s5.get .s3 = C.Primitives.K := v5.trans (by decide)
  rw [does_xor, does_nil]
  have k6 : Keeps [.s2] s5 (s5.set .s2 (s5.get .a2 ^^^ s5.get .s3)) := keeps_set
  have k23 : Changes c [.fp, .s0, .s1] [] s2 s3 := changes_keeps k3
  have k46 : Changes c ([.s3, .t1] ++ [.s2]) [] s4 (s5.set .s2 (s5.get .a2 ^^^ s5.get .s3)) :=
    changes_keeps (k5.trans k6)
  refine ⟨⟨?_, ?_, ?_, ?_, fun x hx => ?_⟩, ?_, ?_, ?_, ?_, ?_⟩
  · rw [k46.reg _ (by decide), k4.reg _ List.not_mem_nil, hsp3]
  · exact ((k23.trans k4).trans k46).holds hs2.holds
  · rw [k46.slot _ (by decide) List.not_mem_nil, hput4 (offN, .a1) (by decide),
      k3.reg _ (by decide), hs2.reg _ (by decide) (by decide), hc.length]
  · rw [k46.slot _ (by decide) List.not_mem_nil, hput4 (offWide, .a3) (by decide),
      k3.reg _ (by decide), hs2.a3]
  · have hslot : ∀ y ∈ savedRegs, IsSlot y.1 ∧ y.1 ∉ [offN, offWide] := by decide
    obtain ⟨hoff, hnot⟩ := hslot x hx
    rw [k46.slot _ hoff List.not_mem_nil, k4.slot _ hoff hnot, k23.slot _ hoff List.not_mem_nil,
      hs2.saved x hx]
  · rw [k46.reg _ (by decide), k4.reg _ List.not_mem_nil, hm.2.1]
    exact (add_zero _).symm
  · rw [k46.reg _ (by decide), k4.reg _ List.not_mem_nil, hm.2.2]
  · rw [get_set (by decide), k5.reg _ (by decide), k4.reg _ List.not_mem_nil, k3.reg _ (by decide),
      hs2.reg _ (by decide) (by decide), hK, Call.seed]
  · rw [k6.reg _ (by decide), hK]
  · rw [k46.reg _ (by decide), k4.reg _ List.not_mem_nil, hm.1]

/-- The run of a call ends as it should: back at the caller, with the low word, and the high word if
that was asked for. -/
def Ends (c : Call) (w lo hi : Word) (a : BitVec 64) (s : State) : Prop :=
  c.Returns a s ∧ s.get .v0 = lo ∧ (w ≠ 0 → s.get .v1 = hi)

/-- **The run from a label on ends as it should.** -/
def Goes (c : Call) (w lo hi : Word) (l : Label) (s : State) : Prop :=
  Halts c.bus text (.running (text.from l) none s) (Ends c w lo hi)

/-- The lanes where the folds begin are the ones the words come from. -/
def Fits (c : Call) (lo hi : Word) (h : Lanes4) : Prop :=
  long64 (c.seed ^^^ C.Primitives.K) h c.n = lo ∧ longHi (c.seed ^^^ C.Primitives.K) h c.n = hi

theorem epilogue_goes (hc : c.Valid) (hs : Framed c w s) (hlo : s.get .v0 = lo)
    (hhi : w ≠ 0 → s.get .v1 = hi) :
    Goes c w lo hi .epilogue s := by
  rw [Goes, from_epilogue, epilogue, List.append_assoc]
  refine Halts.ops (loads_does hc savedRegs (by decide) (by decide) hs.sp) ?_
  rintro s1 ⟨hget, k1⟩
  refine Halts.jr (does_daddiu.2 (does_nil.2 ?_))
  have k2 : Keeps [.sp] s1 (s1.set .sp (s1.get .sp + frm.signExtend 64)) := keeps_set
  refine ⟨⟨?_, ?_⟩, ?_, fun hw => ?_⟩
  · rw [hget (8, .ra) (by decide), hs.saved _ (by decide)]
  · intro r hr
    by_cases hsp : r = .sp
    · rw [hsp, get_set (by decide), k1.reg .sp (by decide), hs.sp, Call.frame]
      exact sub_add_cancel _ _
    · have hall : ∀ r ∈ [Reg.s0, .s1, .s2, .s3, .s4, .s5, .s6, .s7, .fp, .ra, .sp], r ≠ .sp →
          ∃ x ∈ savedRegs, x.2 = r := by decide
      obtain ⟨x, hx, rfl⟩ := hall r hr hsp
      rw [get_set_of_ne hsp, hget x hx, hs.saved x hx]
  · rw [k2.reg _ (by decide), k1.reg _ (by decide), hlo]
  · rw [k2.reg _ (by decide), k1.reg _ (by decide), hhi hw]

/-! ### The runs from every label -/

theorem does_last (hc : c.Valid) (hsp : s.get .sp = c.frame) {off : BitVec 16} {rt : Reg}
    (h : IsSlot off ∧ rt ≠ .zero) : Does c.bus [.ld rt off .sp] s fun s' =>
      s'.get rt = slot c s off ∧ Keeps [rt] s s' := by
  rw [does_slot hc hsp h.1, does_nil, get_set h.2]
  exact ⟨rfl, keeps_set⟩

theorem fold_goes (hc : c.Valid) (hr : Ready c w p l s) {h : Lanes4 × Word} (hl : Lower h s)
    (hfits : Fits c lo hi h.1) : Goes c w lo hi .fold s := by
  rw [Goes, from_fold, fold, List.append_assoc, List.cons_append, List.cons_append]
  have hwords : Does c.bus (foldT0 ++ (foldT1 ++ (foldLow ++ [.ld .t1 offWide .sp]))) s fun s' =>
      Ready c w p l s' ∧ s'.get .s4 = C.Walk.foldT0 h.1 (C.Oneshot.lenmix c.n) ∧
        s'.get .s5 = C.Walk.foldT1 h.1 ∧ s'.get .v0 = lo ∧ s'.get .t1 = w := by
    refine (foldT0_does hc hr hl).append ?_
    rintro s1 ⟨v1, k1⟩
    have hr1 := hr.keeps k1 (by decide)
    refine (foldT1_does hr1 ((k1.reg _ (by decide)).trans hl.s6)
      ((k1.reg _ (by decide)).trans hl.s7)).append ?_
    rintro s2 ⟨v2, k2⟩
    have hr2 := hr1.keeps k2 (by decide)
    have h4 : s2.get .s4 = C.Walk.foldT0 h.1 (C.Oneshot.lenmix c.n) :=
      (k2.reg _ (by decide)).trans v1
    refine (foldLow_does hr2 h4 v2).append ?_
    rintro s3 ⟨v3, k3⟩
    have hr3 := hr2.keeps k3 (by decide)
    refine (does_last hc hr3.sp (by decide)).mono ?_
    rintro s4 ⟨v4, k4⟩
    refine ⟨hr3.keeps k4 (by decide), ?_, ?_, ?_, v4.trans hr3.wide⟩
    · rw [k4.reg _ (by decide), k3.reg _ (by decide), h4]
    · rw [k4.reg _ (by decide), k3.reg _ (by decide), v2]
    · rw [k4.reg _ (by decide), v3, ← hfits.1, long64]
  refine Halts.ops hwords ?_
  rintro s1 ⟨hr1, h4, h5, hv0, ht1⟩
  refine Halts.beqz (fun hzero => ?_) fun _ => ?_
  · exact epilogue_goes hc hr1.toFramed hv0 fun hw => absurd (ht1.symm.trans hzero) hw
  · refine Halts.ops (foldHigh_does hr1 h4 h5) ?_
    rintro s2 ⟨v2, hv, hr2⟩
    exact epilogue_goes hc hr2.toFramed (hv.trans hv0) fun _ => by rw [v2, ← hfits.2, longHi]

/-- **What is left**: the last words, when there are any. -/
theorem tailEnd_goes (hc : c.Valid) (hr : Ready c w p l s) {h : Lanes4 × Word} (hl : Lower h s)
    (hn : 16 ≤ c.n) (hfit : p + l = c.n) (hfits : Fits c lo hi (lastStep c.mem p l h.1)) :
    Goes c w lo hi .tailEnd s := by
  rw [Goes, from_tailEnd, tailEnd, List.cons_append, List.cons_append]
  have hlt := hc.lt
  have hzero := hr.nothing_left (by omega)
  refine Halts.beqz (fun h0 => ?_) fun hne => ?_
  · have hl0 : lastStep c.mem p l h.1 = h.1 := by
      rw [hzero.1 h0, lastStep, if_neg (by omega)]
    rw [hl0] at hfits
    exact fold_goes hc hr hl hfits
  · have hpos : 0 < l := Nat.pos_of_ne_zero fun h0 => hne (hzero.2 h0)
    refine Halts.ops (lastWords_does hc hr hl hpos hn hfit) ?_
    rintro s1 ⟨hr1, hl1⟩
    exact fold_goes hc hr1 hl1 hfits

theorem wall_goes (hc : c.Valid) (hr : Ready c w p l s) {h : Lanes4 × Word} (hl : Lower h s)
    (hn : 16 ≤ c.n) (hfit : p + l = c.n) (hfits : Fits c lo hi (tailStep c.mem p l (wallStep h))) :
    Goes c w lo hi .wall s := by
  rw [Goes, from_wall, wall, List.append_assoc, List.cons_append, List.cons_append]
  refine Halts.ops (wall_does hc hr hl hfit) ?_
  rintro s1 ⟨hr1, hl1, ht1⟩
  refine Halts.bnez (fun hne => ?_) fun hzero => ?_
  · have hle : ¬17 ≤ l := fun h17 => hne (ht1.2 h17)
    have hhead : headStep c.mem p l (wallStep h) = wallStep h := by rw [headStep, if_neg (by omega)]
    rw [tailStep, hhead] at hfits
    exact tailEnd_goes hc hr1 hl1 hn hfit hfits
  · refine Halts.ops (headWords_does hc hr1 hl1 (ht1.1 hzero) hfit) ?_
    rintro s2 ⟨hr2, hl2⟩
    exact tailEnd_goes hc hr2 hl2 hn hfit hfits

/-- The lanes at the end of the mid loop and the tail. -/
def midEnd (c : Call) (p l : ℕ) (h : Lanes4 × Word) : Lanes4 :=
  tailStep c.mem (p + 32 * (l / 32) : ℕ) (l % 32 : ℕ) (wallStep (rounds c.mem (l / 32) p h))

theorem midEnd_of_lt (hlt : l < 32) (h : Lanes4 × Word) :
    midEnd c p l h = tailStep c.mem p l (wallStep h) := by
  have hdiv : l / 32 = 0 := by omega
  rw [midEnd, hdiv, Nat.mod_eq_of_lt hlt]
  rfl

theorem midEnd_step (hle : 32 ≤ l) (h : Lanes4 × Word) :
    midEnd c p l h = midEnd c (p + 32) (l - 32) (roundStep c.mem p h) := by
  have hdiv : l / 32 = (l - 32) / 32 + 1 := by omega
  have hmod : l % 32 = (l - 32) % 32 := by omega
  have hpos : p + 32 * ((l - 32) / 32 + 1) = p + 32 + 32 * ((l - 32) / 32) := by omega
  rw [midEnd, hdiv, hmod, hpos, rounds_succ]
  rfl

theorem midLoop_goes (hc : c.Valid) (hn : 16 ≤ c.n) : ∀ {l p : ℕ} {s : State} {h : Lanes4 × Word},
    Ready c w p l s → Lower h s → p + l = c.n → Fits c lo hi (midEnd c p l h) →
    Goes c w lo hi .midLoop s := by
  intro l
  induction l using Nat.strong_induction_on with
  | _ l ih =>
    intro p s h hr hl hfit hfits
    rw [Goes, from_midLoop, midLoop, List.append_assoc, List.cons_append, List.cons_append,
      List.append_assoc, List.cons_append, List.cons_append, List.nil_append]
    have hlt := hc.lt
    have htest : Does c.bus [.sltiu .t1 .s1 32] s fun s' =>
        (s'.get .t1 = 0 ↔ 32 ≤ l) ∧ Ready c w p l s' ∧ Lower h s' := by
      rw [does_sltiu, does_nil, get_set (by decide), hr.s1]
      exact ⟨below (by omega) (by decide), hr.keeps keeps_set (by decide),
        hl.keeps keeps_set (by decide)⟩
    refine Halts.ops htest ?_
    rintro s1 ⟨ht1, hr1, hl1⟩
    refine Halts.bnez (fun hne => ?_) fun hzero => ?_
    · have hless : l < 32 := not_le.mp fun h32 => hne (ht1.2 h32)
      rw [midEnd_of_lt hless] at hfits
      exact wall_goes hc hr1 hl1 hn hfit hfits
    · have hle := ht1.1 hzero
      rw [midEnd_step hle] at hfits
      refine Halts.ops (round_does hc hr1 hl1 hle hfit) ?_
      rintro s2 ⟨hr2, hl2⟩
      exact Halts.b (ih (l - 32) (by omega) hr2 hl2 (by omega) hfits)

/-- The lanes at the end of the bulk loop, the mid loop and the tail. -/
def bulkEnd (c : Call) (p l : ℕ) (h : Lanes8 × Word) : Lanes4 :=
  midEnd c (p + 64 * (l / 64)) (l % 64)
    (C.Walk.foldUpper (blocks c.mem (l / 64) p h).1, (blocks c.mem (l / 64) p h).2)

theorem bulkEnd_of_lt (hlt : l < 64) (h : Lanes8 × Word) :
    bulkEnd c p l h = midEnd c p l (C.Walk.foldUpper h.1, h.2) := by
  have hdiv : l / 64 = 0 := by omega
  rw [bulkEnd, hdiv, Nat.mod_eq_of_lt hlt]
  rfl

theorem bulkEnd_step (hle : 64 ≤ l) (h : Lanes8 × Word) :
    bulkEnd c p l h = bulkEnd c (p + 64) (l - 64) (blockStep c.mem p h) := by
  have hdiv : l / 64 = (l - 64) / 64 + 1 := by omega
  have hmod : l % 64 = (l - 64) % 64 := by omega
  have hpos : p + 64 * ((l - 64) / 64 + 1) = p + 64 + 64 * ((l - 64) / 64) := by omega
  rw [bulkEnd, hdiv, hmod, hpos, blocks_succ]
  rfl

theorem bulkLoop_goes (hc : c.Valid) (hn : 16 ≤ c.n) : ∀ {l p : ℕ} {s : State} {h : Lanes8 × Word},
    Ready c w p l s → Lower (lowerOf h) s → Upper c h.1 s → 64 ≤ l → p + l = c.n →
    Fits c lo hi (bulkEnd c p l h) → Goes c w lo hi .bulkLoop s := by
  intro l
  induction l using Nat.strong_induction_on with
  | _ l ih =>
    intro p s h hr hl hu hle hfit hfits
    rw [Goes, from_bulkLoop, bulkLoop, List.append_assoc, List.cons_append, List.cons_append]
    rw [bulkEnd_step hle] at hfits
    refine Halts.ops (block_does hc hr hl hu hle hfit) ?_
    rintro s1 ⟨hr1, hl1, hu1, ht1⟩
    refine Halts.beqz (fun hzero => ?_) fun hne => ?_
    · exact ih (l - 64) (by omega) hr1 hl1 hu1 (ht1.1 hzero) (by omega) hfits
    · have hless : l - 64 < 64 := not_le.mp fun h64 => hne (ht1.2 h64)
      rw [bulkEnd_of_lt hless] at hfits
      refine Halts.ops (foldUpper_does hc hr1 hl1 hu1) ?_
      rintro s2 ⟨hr2, hl2⟩
      exact midLoop_goes hc hn hr2 hl2 (by omega) hfits

theorem midEnd_all (hlt : c.n < 320) (h : Lanes4 × Word)
    (hh : h = (C.Walk.iv4 (c.seed ^^^ C.Primitives.K), 0)) :
    midEnd c 0 c.n h = foldLanes c.mem c.n (c.seed ^^^ C.Primitives.K) := by
  rw [midEnd, foldLanes, walkState, if_pos hlt, Nat.zero_add, hh]
  rfl

theorem bulkEnd_all (hle : 320 ≤ c.n) (h : Lanes8 × Word)
    (hh : h = (C.Walk.iv8 (c.seed ^^^ C.Primitives.K), 0)) :
    bulkEnd c 0 c.n h = foldLanes c.mem c.n (c.seed ^^^ C.Primitives.K) := by
  have hpos : 64 * (c.n / 64) + 32 * (c.n % 64 / 32) = 32 * (c.n / 32) := by omega
  have hmod : c.n % 64 % 32 = c.n % 32 := by omega
  rw [bulkEnd, midEnd, foldLanes, walkState, if_neg (by omega), Nat.zero_add, hpos, hmod, hh]
  rfl

theorem midSetup_goes (hc : c.Valid) (hn : 17 ≤ c.n) (hr : Ready c w 0 c.n s)
    (hfits : Fits c lo hi (foldLanes c.mem c.n (c.seed ^^^ C.Primitives.K))) :
    Goes c w lo hi .midSetup s := by
  have hlt := hc.lt
  rw [Goes, from_midSetup, midSetup, List.append_assoc, List.cons_append, List.cons_append]
  have hsetup : Does c.bus (lowerSetup ++ [.sltiu .t1 .s1 320]) s fun s' =>
    (s'.get .t1 = 0 ↔ 320 ≤ c.n) ∧
      Ready c w 0 c.n s' ∧ Lower (C.Walk.iv4 (c.seed ^^^ C.Primitives.K), 0) s' := by
    refine (lowerSetup_does hr).append ?_
    rintro s1 ⟨hr1, hl1⟩
    rw [does_sltiu, does_nil, get_set (by decide), hr1.s1]
    exact ⟨below (by omega) (by decide), hr1.keeps keeps_set (by decide),
      hl1.keeps keeps_set (by decide)⟩
  refine Halts.ops hsetup ?_
  rintro s1 ⟨ht1, hr1, hl1⟩
  refine Halts.bnez (fun hne => ?_) fun hzero => ?_
  · have hless : c.n < 320 := not_le.mp fun h320 => hne (ht1.2 h320)
    rw [← midEnd_all hless _ rfl] at hfits
    exact midLoop_goes hc (by omega) hr1 hl1 (by omega) hfits
  · have hle := ht1.1 hzero
    rw [← bulkEnd_all hle _ rfl] at hfits
    rw [List.nil_append, from_bulk, bulk]
    refine Halts.ops (upperSetup_does hc hr1 hl1) ?_
    rintro s2 ⟨hr2, hl2, hu2⟩
    have hl3 : Lower (lowerOf (C.Walk.iv8 (c.seed ^^^ C.Primitives.K), 0)) s2 := hl2
    exact bulkLoop_goes hc (by omega) hr2 hl3 hu2 (by omega) (by omega) hfits

theorem shortMix_goes (hc : c.Valid) (hn : c.n ≤ 16) (hw : Words c w s)
    (hlo : compact64 c.mem c.n c.seed = lo) (hhi : compactHi c.mem c.n c.seed = hi) :
    Goes c w lo hi .shortMix s := by
  rw [compact64, if_pos hn] at hlo
  rw [compactHi, if_pos hn] at hhi
  have hr := hw.toReady
  have hmix : Does c.bus (Ports.Mips.shortX ++ (Ports.Mips.shortY ++ (Ports.Mips.shortU ++
      (shortFmix ++ [.ld .t1 offWide .sp])))) s fun s' => Ready c w 0 c.n s' ∧
        s'.get .s4 = Spec.Reference.shortX (shortA c.mem c.n) (c.seed ^^^ C.Primitives.K) ∧
        s'.get .s5 = Spec.Reference.shortU
          (Spec.Reference.shortX (shortA c.mem c.n) (c.seed ^^^ C.Primitives.K))
          (Spec.Reference.shortY (shortB c.mem c.n) (c.seed ^^^ C.Primitives.K)) c.n ∧
        s'.get .v0 = lo ∧ s'.get .t1 = w := by
    refine (shortX_does hr).append ?_
    rintro s1 ⟨v1, k1⟩
    have hr1 := hr.keeps k1 (by decide)
    rw [hw.s4] at v1
    refine (shortY_does hr1).append ?_
    rintro s2 ⟨v2, hM1, k2⟩
    have hr2 := hr1.keeps k2 (by decide)
    rw [k1.reg _ (by decide), hw.s5] at v2
    have h4 := (k2.reg .s4 (by decide)).trans v1
    refine (shortU_does hr2 hr2.s1 h4 v2).append ?_
    rintro s3 ⟨v3, hv3, k3⟩
    have hr3 := hr2.keeps k3 (by decide)
    refine (shortFmix_does hv3 ((k3.reg _ (by decide)).trans hM1)).append ?_
    rintro s4 ⟨v4, k4⟩
    have hr4 := hr3.keeps k4 (by decide)
    refine (does_last hc hr4.sp (by decide)).mono ?_
    rintro s5 ⟨v5, k5⟩
    refine ⟨hr4.keeps k5 (by decide), ?_, ?_, ?_, v5.trans hr4.wide⟩
    · rw [k5.reg _ (by decide), k4.reg _ (by decide), k3.reg _ (by decide), h4]
    · rw [k5.reg _ (by decide), k4.reg _ (by decide), v3]
    · rw [k5.reg _ (by decide), v4, hlo]
  rw [Goes, from_shortMix, shortMix, List.append_assoc, List.cons_append, List.cons_append,
    List.append_assoc]
  refine Halts.ops hmix ?_
  rintro s1 ⟨hr1, h4, h5, hv0, ht1⟩
  refine Halts.beqz (fun hzero => ?_) fun _ => ?_
  · exact epilogue_goes hc hr1.toFramed hv0 fun hw => absurd (ht1.symm.trans hzero) hw
  · refine Halts.ops (shortHigh_does hr1 h4 h5) ?_
    rintro s2 ⟨v2, hv, hr2⟩
    exact Halts.b (epilogue_goes hc hr2.toFramed (hv.trans hv0) fun _ => by rw [v2, hhi])

/-- **The words of a short key**, by its length. -/
theorem entry_goes (hc : c.Valid) (k : Keeps [.a3] c.start s) (hw : s.get .a3 = w)
    (hlo : compact64 c.mem c.n c.seed = lo) (hhi : compactHi c.mem c.n c.seed = hi) :
    Goes c w lo hi .entry s := by
  have hlt := hc.lt
  have htest : ∀ {m : ℕ} {s : State}, m < 2 ^ 15 → Ready c w 0 c.n s →
      Does c.bus [.sltiu .t1 .s1 (.ofNat 16 m)] s fun s' =>
      (s'.get .t1 = 0 ↔ m ≤ c.n) ∧ Ready c w 0 c.n s' := by
    intro m s hm hr
    rw [does_sltiu, does_nil, get_set (by decide), hr.s1]
    exact ⟨below hlt hm, hr.keeps keeps_set (by decide)⟩
  have hbegin : Does c.bus (prologue ++ [.sltiu .t1 .s1 17]) s fun s' =>
      (s'.get .t1 = 0 ↔ 17 ≤ c.n) ∧ Ready c w 0 c.n s' :=
    (prologue_does hc k hw).append fun s' hr => htest (m := 17) (by decide) hr
  rw [Goes, from_entry, entry, List.append_assoc]
  refine Halts.ops hbegin ?_
  rintro s1 ⟨ht1, hr1⟩
  refine Halts.beqz (fun hlong => ?_) fun hshort => ?_
  · have hn := ht1.1 hlong
    refine midSetup_goes hc hn hr1 ⟨?_, ?_⟩
    · rw [← hlo, compact64, if_neg (by omega)]
    · rw [← hhi, compactHi, if_neg (by omega)]
  have hn : c.n ≤ 16 := by
    by_contra hgt
    exact hshort (ht1.2 (by omega))
  refine Halts.beqz (fun hempty => ?_) fun hsome => ?_
  · have h0 := (hr1.nothing_left hlt).1 hempty
    rw [from_shortEmpty, shortEmpty]
    exact Halts.ops (empty_does hr1 h0) fun s2 hw2 => shortMix_goes hc hn hw2 hlo hhi
  have h0 : 0 < c.n := Nat.pos_of_ne_zero fun h => hsome ((hr1.nothing_left hlt).2 h)
  refine Halts.ops (htest (m := 4) (by decide) hr1) ?_
  rintro s2 ⟨ht2, hr2⟩
  refine Halts.bnez (fun hfew => ?_) fun hmore => ?_
  · have h4 : c.n < 4 := not_le.mp fun h => hfew (ht2.2 h)
    rw [from_short13, short13, List.append_assoc]
    exact Halts.ops (words13_does hc hr2 h0 h4) fun s3 hw3 =>
      Halts.b (shortMix_goes hc hn hw3 hlo hhi)
  refine Halts.ops (htest (m := 8) (by decide) hr2) ?_
  rintro s3 ⟨ht3, hr3⟩
  refine Halts.bnez (fun hfew => ?_) fun hmost => ?_
  · have h8 : c.n < 8 := not_le.mp fun h => hfew (ht3.2 h)
    rw [from_short47, short47, List.append_assoc]
    exact Halts.ops (words47_does hc hr3 (ht2.1 hmore) h8) fun s4 hw4 =>
      Halts.b (shortMix_goes hc hn hw4 hlo hhi)
  · exact Halts.ops (short8_does hc hr3 (ht3.1 hmost)) fun s4 hw4 =>
      Halts.b (shortMix_goes hc hn hw4 hlo hhi)

/-! ### The calls -/

theorem hayahash64_goes (hc : c.Valid) : Halts c.bus text (c.enter .hayahash64)
    (Ends c 0 (compact64 c.mem c.n c.seed) (compactHi c.mem c.n c.seed)) := by
  rw [Call.enter, from_hayahash64, hayahash64, List.append_assoc]
  refine Halts.ops (does_move.2 (does_nil.2 rfl)) ?_
  rintro s rfl
  exact Halts.b (entry_goes hc keeps_set (get_set (by decide)) rfl rfl)

theorem hayahash128_goes (hc : c.Valid) : Halts c.bus text (c.enter .hayahash128)
    (Ends c 1 (compact64 c.mem c.n c.seed) (compactHi c.mem c.n c.seed)) := by
  rw [Call.enter, from_hayahash128, hayahash128]
  refine Halts.ops (does_daddiu.2 (does_nil.2 rfl)) ?_
  rintro s rfl
  exact entry_goes hc keeps_set (get_set (by decide)) rfl rfl

end Hayahash.Refine.Mips.Runs
