import Hayahash.Refine.Mips.Frame

/-! # The pieces of the MIPS64 assembly

One lemma for each piece of code without branches, from a state that is `Ready`: the rounds and the
blocks of stripes, the initial lanes, the wall and the tail, the folds, and the words and products
of a short key. `Lower` and `Upper` say where the lanes are. -/

namespace Hayahash.Refine.Mips.Pieces

open Hayahash.Lib.ReadProg Hayahash.Lib.Bytes Hayahash.Lib.Mips
open Hayahash.Ports.Mips Hayahash.Spec.Reference Hayahash.Refine.Mips.Frame
open Hayahash.C.Primitives (Word Lanes4 Lanes8)

variable {c : Call} {s : State} {w : Word} {p l : ℕ}

/-! ### Stripes -/

/-- The registers that a stripe uses besides the lane. -/
def stripeTemps : List Reg := [.t0, .t1, .t8, .t9, .at']

theorem stripe_does (hc : c.Valid) (hr : Ready c w p l s) {h : Reg} {o : ℕ}
    (hh : h ∉ Reg.zero :: .s3 :: .s0 :: stripeTemps ∧ o < 2 ^ 14) {q : ℤ} (hq : q = (p + o : ℕ))
    (hfit : p + o + 8 ≤ c.n) : Does c.bus (stripe h .s0 (.ofNat 16 o)) s fun s' =>
      s'.get h = mix (s.get h) (chain (word64 c.mem q) (s.get .t0)) ∧
        s'.get .t0 = word64 c.mem q ∧ Keeps (h :: stripeTemps) s s' := by
  subst hq
  have hk : dests (stripe h .s0 (.ofNat 16 o)) ⊆ h :: stripeTemps := by
    rw [stripe, dests, List.flatMap_append]
    refine List.append_subset.mpr ⟨List.Subset.trans load64le_dests ?_, ?_⟩
    · simp [loadTemps, stripeTemps]
    · simp [rotl64, mul64, Op.dests, stripeTemps]
  simp only [stripeTemps, List.mem_cons, List.not_mem_nil, or_false, not_or] at hh
  obtain ⟨⟨hz, h3, -, h0, h1, h8, h9, hat⟩, ho⟩ := hh
  have hrun : Does c.bus (stripe h .s0 (.ofNat 16 o)) s fun s' =>
      s'.get h = mix (s.get h) (chain (word64 c.mem (p + o : ℕ)) (s.get .t0)) ∧
        s'.get .t0 = word64 c.mem (p + o : ℕ) := by
    unfold stripe
    refine (word64_does hc.lt hr.holds ⟨by decide, by decide, ho⟩ hr.s0 hfit).append ?_
    rintro s1 ⟨v1, k1⟩
    refine (rotl64_does (by decide)).then rfl fun s2 v2 (k2 : Keeps [.t8, .t9, .t8] s1 s2) => ?_
    simp only [List.cons_append, List.nil_append, does_daddu, does_xor]
    refine (mul64_does hz).then rfl fun s3 v3 k3 => ?_
    have hlane : s2.get h = s.get h := by
      rw [k2.reg h (by simp [h8, h9]), k1.reg h (by simp [loadTemps, h8, h9, hat, h1])]
    have hlast : s1.get .t0 = s.get .t0 := k1.reg _ (by decide)
    have hword : s2.get .t1 = word64 c.mem (p + o : ℕ) := (k2.reg _ (by decide)).trans v1
    have hK :
      s2.get .s3 = C.Primitives.K := by rw [k2.reg _ (by decide), k1.reg _ (by decide), hr.s3]
    rw [get_set hz, get_set_of_ne h8, hlane, get_set (by decide), hword, v2, hlast,
      get_set_of_ne (Ne.symm h3), get_set_of_ne (by decide), hK] at v3
    have hword3 : s3.get .t1 = word64 c.mem (p + o : ℕ) := by
      rw [k3.reg _ (by simp [dests, mul64, Op.dests, Ne.symm h1]), get_set_of_ne (Ne.symm h1),
        get_set_of_ne (by decide), hword]
    rw [does_move, does_nil, get_set_of_ne h0, get_set (by decide), v3, hword3]
    exact ⟨rfl, rfl⟩
  exact (hrun.keeping rfl hk).mono fun s' hs' => and_assoc.mp hs'

/-- **The lower lanes and the last stripe** are in registers. -/
structure Lower (h : Lanes4 × Word) (s : State) : Prop where
  s4 : s.get .s4 = h.1.h0
  s5 : s.get .s5 = h.1.h1
  s6 : s.get .s6 = h.1.h2
  s7 : s.get .s7 = h.1.h3
  t0 : s.get .t0 = h.2

/-- The same of lanes given one by one, so that no lane has to be unfolded to see which it is. -/
theorem lower_of {a b c d wp : Word} (h4 : s.get .s4 = a) (h5 : s.get .s5 = b) (h6 : s.get .s6 = c)
    (h7 : s.get .s7 = d) (h0 : s.get .t0 = wp) : Lower (⟨a, b, c, d⟩, wp) s :=
  ⟨h4, h5, h6, h7, h0⟩

/-- The registers that `Lower` is about. -/
def lanes : List Reg := [.s4, .s5, .s6, .s7, .t0]

theorem lowerStripes_does (hc : c.Valid) (hr : Ready c w p l s) {h : Lanes4 × Word} (hl : Lower h s)
    (hfit : p + 32 ≤ c.n) : Does c.bus lowerStripes s fun s' =>
      Lower (roundStep c.mem p h) s' ∧ Keeps (lanes ++ stripeTemps) s s' := by
  refine (stripe_does hc hr (by decide) (o := 0) (q := p) rfl (by omega)).append ?_
  rintro s1 ⟨v1, w1, k1⟩
  have hr1 := hr.keeps k1 (by decide)
  refine (stripe_does hc hr1 (by decide) (o := 8) (q := p + 8) rfl (by omega)).append ?_
  rintro s2 ⟨v2, w2, k2⟩
  have hr2 := hr1.keeps k2 (by decide)
  refine (stripe_does hc hr2 (by decide) (o := 16) (q := p + 16) rfl (by omega)).append ?_
  rintro s3 ⟨v3, w3, k3⟩
  have hr3 := hr2.keeps k3 (by decide)
  refine (stripe_does hc hr3 (by decide) (o := 24) (q := p + 24) rfl (by omega)).mono ?_
  rintro s4 ⟨v4, w4, k4⟩
  have k12 := k1.trans k2
  have k34 := k3.trans k4
  refine ⟨⟨?_, ?_, ?_, ?_, w4⟩, (k12.trans k34).mono (by decide)⟩
  · rw [(k2.trans k34).reg _ (by decide), v1, hl.s4, hl.t0]
    rfl
  · rw [k34.reg _ (by decide), v2, w1, k1.reg _ (by decide), hl.s5]
    rfl
  · rw [k4.reg _ (by decide), v3, w2, k12.reg _ (by decide), hl.s6]
    rfl
  · rw [v4, w3, (k12.trans k3).reg _ (by decide), hl.s7]
    rfl

theorem spilledStripe_does (hc : c.Valid) (hr : Ready c w p l s) {h : Reg} {off : BitVec 16} {o : ℕ}
    (hside : h ∉ Reg.zero :: (fixed ++ stripeTemps) ∧ IsSlot off ∧ off ∉ kept ∧ o < 2 ^ 14) {q : ℤ}
    (hq : q = (p + o : ℕ)) (hfit : p + o + 8 ≤ c.n) :
    Does c.bus (spilledStripe h off (.ofNat 16 o)) s fun s' =>
      slot c s' off = mix (slot c s off) (chain (word64 c.mem q) (s.get .t0)) ∧
        s'.get .t0 = word64 c.mem q ∧ Ready c w p l s' ∧ Changes c (h :: stripeTemps)
          [off] s s' := by
  obtain ⟨hh, hoff, hkept, ho⟩ := hside
  have hlane : h ∉ Reg.zero :: .s3 :: .s0 :: stripeTemps := fun hmem => hh (by
    revert hmem
    simp only [fixed, List.mem_cons, List.mem_append]
    tauto)
  have hfixed : ∀ r ∈ fixed, r ∉ h :: stripeTemps := by
    intro r hr hmem
    rcases List.mem_cons.1 hmem with rfl | hmem
    · exact hh (List.mem_cons_of_mem _ (List.mem_append_left _ hr))
    · exact absurd hmem ((show ∀ r ∈ fixed, r ∉ stripeTemps by decide) r hr)
  have hfixed0 : ∀ r ∈ fixed, r ∉ [h] := fun r hr hmem =>
    hfixed r hr (List.mem_cons.2 (.inl (List.mem_singleton.1 hmem)))
  have hz : h ≠ .zero := fun he => hh (List.mem_cons.2 (.inl he))
  have ht0 : .t0 ≠ h := fun he => hlane (by rw [← he]; decide)
  unfold spilledStripe
  rw [List.singleton_append, does_slot hc hr.sp hoff]
  have k0 : Keeps [h] s (s.set h (slot c s off)) := keeps_set
  refine (stripe_does hc (hr.keeps k0 hfixed0) ⟨hlane, ho⟩ hq hfit).append ?_
  rintro s1 ⟨v1, w1, k1⟩
  have hr1 := (hr.keeps k0 hfixed0).keeps k1 hfixed
  have hch :=
    ((changes_keeps k0).trans (changes_keeps k1)).trans (changes_put hc hoff (x := s1.get h))
  have hch' : Changes c (h :: stripeTemps) [off] s (put c s1 off (s1.get h)) :=
    hch.mono (by simp) (by simp)
  rw [does_put hc hr1.sp hoff, does_nil]
  refine ⟨?_, w1, hr.changes hch' hfixed fun o ho hmem =>
    hkept (by rwa [← List.mem_singleton.1 hmem]), hch'⟩
  rw [slot_put hc hoff hoff, if_pos rfl, v1, get_set hz, get_set_of_ne ht0]

/-- **The upper lanes** are in the frame. -/
structure Upper (c : Call) (h : Lanes8) (s : State) : Prop where
  h4 : slot c s 88 = h.h4
  h5 : slot c s 96 = h.h5
  h6 : slot c s 104 = h.h6
  h7 : slot c s 112 = h.h7

/-- The registers that the upper lanes go through. -/
def spilled : List Reg := [.a4, .a5, .a6, .a7]

/-- **Four stripes to the upper lanes**, the first of which is after the stripe `wp`. -/
theorem upperStripes_does (hc : c.Valid) (hr : Ready c w p l s) {h : Lanes8} (hu : Upper c h s)
    {wp : Word} (hwp : s.get .t0 = wp) (hfit : p + 64 ≤ c.n) : Does c.bus upperStripes s fun s' =>
      (slot c s' 88 = mix h.h4 (chain (word64 c.mem (p + 32)) wp) ∧
        slot c s' 96 = mix h.h5 (chain (word64 c.mem (p + 40)) (word64 c.mem (p + 32))) ∧
        slot c s' 104 = mix h.h6 (chain (word64 c.mem (p + 48)) (word64 c.mem (p + 40))) ∧
        slot c s' 112 = mix h.h7 (chain (word64 c.mem (p + 56)) (word64 c.mem (p + 48))) ∧
        s'.get .t0 = word64 c.mem (p + 56)) ∧
      Ready c w p l s' ∧ Changes c (spilled ++ stripeTemps) (spilledRegs.map Prod.fst) s s' := by
  refine (spilledStripe_does hc hr (by decide) (o := 32) (q := p + 32) rfl (by omega)).append ?_
  rintro s1 ⟨v1, w1, hr1, k1⟩
  refine (spilledStripe_does hc hr1 (by decide) (o := 40) (q := p + 40) rfl (by omega)).append ?_
  rintro s2 ⟨v2, w2, hr2, k2⟩
  refine (spilledStripe_does hc hr2 (by decide) (o := 48) (q := p + 48) rfl (by omega)).append ?_
  rintro s3 ⟨v3, w3, hr3, k3⟩
  refine (spilledStripe_does hc hr3 (by decide) (o := 56) (q := p + 56) rfl (by omega)).mono ?_
  rintro s4 ⟨v4, w4, hr4, k4⟩
  have k12 := k1.trans k2
  have k34 := k3.trans k4
  refine ⟨⟨?_, ?_, ?_, ?_, w4⟩, hr4, (k12.trans k34).mono (by decide) (by decide)⟩
  · rw [(k2.trans k34).slot _ (by decide) (by decide), v1, hu.h4, hwp]
  · rw [k34.slot _ (by decide) (by decide), v2, k1.slot _ (by decide) (by decide), hu.h5, w1]
  · rw [k4.slot _ (by decide) (by decide), v3, k12.slot _ (by decide) (by decide), hu.h6, w2]
  · rw [v4, (k12.trans k3).slot _ (by decide) (by decide), hu.h7, w3]

/-! The position and the length. -/

theorem ofNat_back {k : ℕ} {off : BitVec 16} (hk : k ≤ l) (hoff : off.signExtend 64 =
    -BitVec.ofNat 64 k) : BitVec.ofNat 64 l + off.signExtend 64 = .ofNat 64 (l - k) := by
  obtain ⟨d, rfl⟩ := Nat.exists_eq_add_of_le hk
  rw [hoff, Nat.add_sub_cancel_left, Nat.add_comm, BitVec.ofNat_add, add_neg_cancel_right]

theorem key_on {k : ℕ} (hk : k < 2 ^ 15) :
    c.key + BitVec.ofNat 64 p + (BitVec.ofNat 16 k).signExtend 64 = c.key + .ofNat 64 (p + k) := by
  rw [signExtend_ofNat hk, BitVec.add_assoc, BitVec.ofNat_add]

/-- **The unsigned comparison** of a length and a constant. -/
theorem below {k : ℕ} (hl : l < 2 ^ 63) (hk : k < 2 ^ 15) :
    (if BitVec.ofNat 64 l < (BitVec.ofNat 16 k).signExtend 64 then (1 : Word) else 0) = 0 ↔
    k ≤ l := by
  have hiff : BitVec.ofNat 64 l < (BitVec.ofNat 16 k).signExtend 64 ↔ l < k := by
    rw [signExtend_ofNat hk, BitVec.lt_def, BitVec.toNat_ofNat, BitVec.toNat_ofNat,
      Nat.mod_eq_of_lt (by omega), Nat.mod_eq_of_lt (by omega)]
  by_cases h : l < k
  · simp [hiff, h]
  · simp [hiff, not_lt.mp h]

theorem advance_does (hr : Ready c w p l s) {k : ℕ} {back : BitVec 16}
    (hk : k < 2 ^ 15 ∧ back.signExtend 64 = -BitVec.ofNat 64 k) (hl : k ≤ l) :
    Does c.bus [.daddiu .s0 .s0 (.ofNat 16 k), .daddiu .s1 .s1 back] s fun s' =>
      Ready c w (p + k) (l - k) s' ∧ Keeps [.s0, .s1] s s' := by
  have hrun : Does c.bus [.daddiu .s0 .s0 (.ofNat 16 k), .daddiu .s1 .s1 back] s fun s' =>
      s'.get .s0 = c.key + .ofNat 64 (p + k) ∧ s'.get .s1 = .ofNat 64 (l - k) := by
    rw [does_daddiu, does_daddiu, does_nil, get_set_of_ne (by decide), get_set (by decide),
      get_set (by decide), get_set_of_ne (by decide), hr.s0, key_on hk.1, hr.s1, ofNat_back hl hk.2]
    exact ⟨rfl, rfl⟩
  refine (hrun.kept rfl).mono ?_
  rintro s' ⟨⟨h0, h1⟩, (k1 : Keeps [.s0, .s1] s s')⟩
  refine ⟨⟨hr.toFramed.keeps k1 (by decide), h0, h1, ?_, ?_, ?_⟩, k1⟩
  · rw [k1.reg _ (by decide), hr.s2]
  · rw [k1.reg _ (by decide), hr.s3]
  · rw [k1.reg _ (by decide), hr.fp]

/-- The lower lanes of eight. -/
def lowerOf (h : Lanes8 × Word) : Lanes4 × Word := (⟨h.1.h0, h.1.h1, h.1.h2, h.1.h3⟩, h.2)

theorem Lower.same {h : Lanes4 × Word} {s' : State} (hl : Lower h s) (hs : ∀ r ∈ lanes, s'.get r =
    s.get r) : Lower h s' where
  s4 := (hs _ (by decide)).trans hl.s4
  s5 := (hs _ (by decide)).trans hl.s5
  s6 := (hs _ (by decide)).trans hl.s6
  s7 := (hs _ (by decide)).trans hl.s7
  t0 := (hs _ (by decide)).trans hl.t0

theorem Lower.keeps {h : Lanes4 × Word} {s' : State} {rs : List Reg} (hl : Lower h s)
    (k : Keeps rs s s') (hrs : ∀ r ∈ lanes, r ∉ rs) : Lower h s' :=
  hl.same fun r hr => k.reg r (hrs r hr)

theorem Upper.changes {h : Lanes8} {s' : State} {rs : List Reg} (hu : Upper c h s)
    (k : Changes c rs [] s s') :
    Upper c h s' where
  h4 := (k.slot _ (by decide) (by decide)).trans hu.h4
  h5 := (k.slot _ (by decide) (by decide)).trans hu.h5
  h6 := (k.slot _ (by decide) (by decide)).trans hu.h6
  h7 := (k.slot _ (by decide) (by decide)).trans hu.h7

/-- **A block**: eight stripes, the checkpoint, and the next position. -/
theorem block_does (hc : c.Valid) (hr : Ready c w p l s) {h : Lanes8 × Word}
    (hl : Lower (lowerOf h) s) (hu : Upper c h.1 s) (hle : 64 ≤ l) (hfit : p + l = c.n) :
    Does c.bus (lowerStripes ++ (upperStripes ++
        [.daddu .s4 .s4 .t0, .daddiu .s0 .s0 64, .daddiu .s1 .s1 (-64), .sltiu .t1 .s1 64]))
        s fun s' =>
      Ready c w (p + 64) (l - 64) s' ∧ Lower (lowerOf (blockStep c.mem p h)) s' ∧
        Upper c (blockStep c.mem p h).1 s' ∧ (s'.get .t1 = 0 ↔ 64 ≤ l - 64) := by
  refine (lowerStripes_does hc hr hl (by omega)).append ?_
  rintro s1 ⟨hl1, k1⟩
  have hr1 := hr.keeps k1 (by decide)
  refine (upperStripes_does hc hr1 (hu.changes (changes_keeps k1)) hl1.t0 (by omega)).append ?_
  rintro s2 ⟨⟨h4, h5, h6, h7, ht0⟩, hr2, k2⟩
  rw [does_daddu]
  have k3 : Keeps [.s4] s2 (s2.set .s4 (s2.get .s4 + s2.get .t0)) := keeps_set
  refine ((advance_does (hr2.keeps k3 (by decide)) (by decide) hle).append ?_ :
    Does c.bus ([.daddiu .s0 .s0 64, .daddiu .s1 .s1 (-64)] ++ [.sltiu .t1 .s1 64]) _ _)
  rintro s4 ⟨hr4, k4⟩
  rw [does_sltiu, does_nil]
  have k5 :
    Keeps [.t1] s4 (s4.set .t1 (if s4.get .s1 < (64 : BitVec 16).signExtend 64 then 1 else 0)) :=
    keeps_set
  have k := (k3.trans k4).trans k5
  have hslot : ∀ off, IsSlot off → slot c _ off = slot c s2 off := fun off hoff =>
    (changes_keeps k).slot off hoff List.not_mem_nil
  refine ⟨hr4.keeps k5 (by decide), ⟨?_, ?_, ?_, ?_, ?_⟩, ⟨?_, ?_, ?_, ?_⟩, ?_⟩
  · rw [k5.reg _ (by decide), k4.reg _ (by decide), get_set (by decide), k2.reg _ (by decide),
      hl1.s4, ht0]
    rfl
  · rw [k.reg _ (by decide), k2.reg _ (by decide), hl1.s5]
    rfl
  · rw [k.reg _ (by decide), k2.reg _ (by decide), hl1.s6]
    rfl
  · rw [k.reg _ (by decide), k2.reg _ (by decide), hl1.s7]
    rfl
  · rw [k.reg _ (by decide), ht0]
    rfl
  · rw [hslot _ (by decide), h4]
    rfl
  · rw [hslot _ (by decide), h5]
    rfl
  · rw [hslot _ (by decide), h6]
    rfl
  · rw [hslot _ (by decide), h7]
    rfl
  · rw [get_set (by decide), hr4.s1]
    have hn := hc.lt
    exact below (by omega) (by decide)

/-- **A round**: four stripes, and the next position. -/
theorem round_does (hc : c.Valid) (hr : Ready c w p l s) {h : Lanes4 × Word} (hl : Lower h s)
    (hle : 32 ≤ l) (hfit : p + l = c.n) :
    Does c.bus (lowerStripes ++ [.daddiu .s0 .s0 32, .daddiu .s1 .s1 (-32)]) s fun s' =>
      Ready c w (p + 32) (l - 32) s' ∧ Lower (roundStep c.mem p h) s' := by
  refine (lowerStripes_does hc hr hl (by omega)).append ?_
  rintro s1 ⟨hl1, k1⟩
  refine (advance_does (hr.keeps k1 (by decide)) (by decide) hle).mono ?_
  rintro s2 ⟨hr2, k2⟩
  exact ⟨hr2, hl1.keeps k2 (by decide)⟩

theorem foldLane_does (hc : c.Valid) (hr : Ready c w p l s) {h u : Reg} {off : BitVec 16} {n : ℕ}
    (hregs : h ∉ [Reg.zero, .t1, .t8, .t9, .s3, u] ∧ u ∉ [Reg.zero, .t8, .s3])
    (hside : IsSlot off ∧ 0 < n ∧ n < 64) :
    Does c.bus (foldLane h u off n) s fun s' =>
      s'.get h = (s.get h ^^^ C.Primitives.rotl (slot c s off) n) * C.Primitives.K ∧
        Keeps [u, .t8, .t9, .t1, h] s s' := by
  simp only [List.mem_cons, List.not_mem_nil, or_false, not_or] at hregs
  obtain ⟨⟨hz, h1, h8, h9, h3, hne⟩, huz, hu8, hu3⟩ := hregs
  have hrun : Does c.bus (foldLane h u off n) s fun s' =>
      s'.get h = (s.get h ^^^ C.Primitives.rotl (slot c s off) n) * C.Primitives.K := by
    unfold foldLane
    rw [List.singleton_append, does_slot hc hr.sp hside.1]
    refine (rotl64_does ⟨by decide, hu8, hside.2⟩).then
      rfl fun s1 v1 (k1 : Keeps [.t8, .t9, .t1] _ s1) => ?_
    have hlane : s1.get h = s.get h := by
      rw [k1.reg h (by simp [h1, h8, h9]), get_set_of_ne hne]
    have hK : s1.get .s3 = C.Primitives.K := by
      rw [k1.reg _ (by decide), get_set_of_ne (Ne.symm hu3), hr.s3]
    rw [get_set huz] at v1
    rw [List.singleton_append, does_xor]
    refine (mul64_does hz).mono fun s2 v2 => ?_
    rw [v2, get_set hz, get_set_of_ne (Ne.symm h3), hlane, v1, hK]
  refine hrun.keeping rfl ?_
  simp [foldLane, rotl64, mul64, dests, Op.dests]

theorem foldUpper_does (hc : c.Valid) (hr : Ready c w p l s) {h : Lanes8 × Word}
    (hl : Lower (lowerOf h) s) (hu : Upper c h.1 s) : Does c.bus foldUpper s fun s' =>
      Ready c w p l s' ∧ Lower (C.Walk.foldUpper h.1, h.2) s' := by
  refine (foldLane_does hc hr (by decide) (by decide)).append ?_
  rintro s1 ⟨v1, k1⟩
  have hr1 := hr.keeps k1 (by decide)
  refine (foldLane_does hc hr1 (by decide) (by decide)).append ?_
  rintro s2 ⟨v2, k2⟩
  have hr2 := hr1.keeps k2 (by decide)
  refine (foldLane_does hc hr2 (by decide) (by decide)).append ?_
  rintro s3 ⟨v3, k3⟩
  have hr3 := hr2.keeps k3 (by decide)
  refine (foldLane_does hc hr3 (by decide) (by decide)).mono ?_
  rintro s4 ⟨v4, k4⟩
  have hu1 := hu.changes (changes_keeps k1)
  have hu2 := hu1.changes (changes_keeps k2)
  have hu3 := hu2.changes (changes_keeps k3)
  have k12 := k1.trans k2
  have k34 := k3.trans k4
  refine ⟨hr3.keeps k4 (by decide), ⟨?_, ?_, ?_, ?_, ?_⟩⟩
  · rw [(k2.trans k34).reg _ (by decide), v1, hl.s4, hu.h4]
    rfl
  · rw [k34.reg _ (by decide), v2, k1.reg _ (by decide), hl.s5, hu1.h5]
    rfl
  · rw [k4.reg _ (by decide), v3, k12.reg _ (by decide), hl.s6, hu2.h6]
    rfl
  · rw [v4, (k12.trans k3).reg _ (by decide), hl.s7, hu3.h7]
    rfl
  · rw [(k12.trans k34).reg _ (by decide), hl.t0]
    rfl

/-- **The lower four lanes**, and no stripe. -/
theorem lowerSetup_does (hr : Ready c w p l s) : Does c.bus lowerSetup s fun s' =>
    Ready c w p l s' ∧ Lower (C.Walk.iv4 (c.seed ^^^ C.Primitives.K), 0) s' := by
  have hrun : Does c.bus lowerSetup s (Lower (C.Walk.iv4 (c.seed ^^^ C.Primitives.K), 0)) := by
    unfold lowerSetup
    simp only [List.cons_append, List.nil_append, does_xor]
    refine (rotl64_does (by decide)).then rfl fun s1 v1 (k1 : Keeps [.t8, .t9, .s5] _ s1) => ?_
    simp only [does_dsll, does_daddu]
    refine (rotl64_does (by decide)).then rfl fun s2 v2 (k2 : Keeps [.t8, .t9, .s6] _ s2) => ?_
    simp only [does_dsrl, does_xor]
    refine (rotl64_does (by decide)).then rfl fun s3 v3 (k3 : Keeps [.t8, .t9, .s7] _ s3) => ?_
    simp only [does_dsll, does_daddu, does_move, does_nil]
    constructor <;>
      simp [get_set, get_set_of_ne, k1.reg, k2.reg, k3.reg, v1, v2, v3, hr.s2, hr.s3, C.Walk.iv4]
  exact hr.kept hrun rfl (by decide)

/-- **The upper four lanes**, in the frame. -/
theorem upperSetup_does (hc : c.Valid) (hr : Ready c w p l s) {h : Lanes4 × Word} (hl : Lower h s) :
    Does c.bus (upperSetup ++ spilledRegs.map fun x => .sd x.2 x.1 .sp) s fun s' =>
      Ready c w p l s' ∧ Lower h s' ∧ Upper c (C.Walk.iv8 (c.seed ^^^ C.Primitives.K)) s' := by
  have hrun : Does c.bus upperSetup s fun s' =>
      s'.get .a4 = (C.Walk.iv8 (c.seed ^^^ C.Primitives.K)).h4 ∧
        s'.get .a5 = (C.Walk.iv8 (c.seed ^^^ C.Primitives.K)).h5 ∧
        s'.get .a6 = (C.Walk.iv8 (c.seed ^^^ C.Primitives.K)).h6 ∧
        s'.get .a7 = (C.Walk.iv8 (c.seed ^^^ C.Primitives.K)).h7 := by
    unfold upperSetup
    simp only [List.cons_append, List.nil_append, does_dsrl, does_daddu]
    refine (rotl64_does (by decide)).then rfl fun s1 v1 (k1 : Keeps [.t8, .t9, .a5] _ s1) => ?_
    simp only [does_dsll, does_xor]
    refine (rotl64_does (by decide)).then rfl fun s2 v2 (k2 : Keeps [.t8, .t9, .a6] _ s2) => ?_
    simp only [does_dsrl, does_daddu]
    refine (rotl64_does (by decide)).then rfl fun s3 v3 (k3 : Keeps [.t8, .t9, .a7] _ s3) => ?_
    simp only [does_dsll, does_xor, does_nil]
    refine ⟨?_, ?_, ?_, ?_⟩ <;>
      simp [get_set, get_set_of_ne, k1.reg, k2.reg, k3.reg, v1, v2, v3, hr.s2, hr.s3, C.Walk.iv8]
  refine hrun.then rfl fun s1 hv k1 => ?_
  have hr1 := hr.keeps k1 (by decide)
  refine (stores_does hc spilledRegs (by decide) (by decide) hr1.sp).mono ?_
  rintro s2 ⟨k2, hput⟩
  refine ⟨hr1.changes k2 (fun _ _ => List.not_mem_nil) kept_apart, ?_, ⟨?_, ?_, ?_, ?_⟩⟩
  · exact (hl.keeps k1 (by decide)).same fun _ _ => k2.reg _ List.not_mem_nil
  · rw [hput (88, .a4) (by decide), hv.1]
  · rw [hput (96, .a5) (by decide), hv.2.1]
  · rw [hput (104, .a6) (by decide), hv.2.2.1]
  · rw [hput (112, .a7) (by decide), hv.2.2.2]

/-! ### Wall and tail -/

theorem wall_does (hc : c.Valid) (hr : Ready c w p l s) {h : Lanes4 × Word} (hl : Lower h s)
    (hfit : p + l = c.n) :
    Does c.bus (rotl64 .t1 .t0 27 ++ [.daddu .s4 .s4 .t1, .sltiu .t1 .s1 17]) s fun s' =>
      Ready c w p l s' ∧ Lower (wallStep h, h.2) s' ∧ (s'.get .t1 = 0 ↔ 17 ≤ l) := by
  have hn := hc.lt
  have hrun : Does c.bus (rotl64 .t1 .t0 27 ++ [.daddu .s4 .s4 .t1, .sltiu .t1 .s1 17]) s fun s' =>
      Lower (wallStep h, h.2) s' ∧ (s'.get .t1 = 0 ↔ 17 ≤ l) := by
    refine (rotl64_does (by decide)).then rfl fun s1 v1 (k1 : Keeps [.t8, .t9, .t1] _ s1) => ?_
    rw [does_daddu, does_sltiu, does_nil]
    refine ⟨?_, ?_⟩
    · constructor <;>
        simp [get_set, get_set_of_ne, k1.reg, v1, hl.s4, hl.s5, hl.s6, hl.s7, hl.t0, wallStep]
    · rw [get_set (by decide), get_set_of_ne (by decide), k1.reg _ (by decide), hr.s1]
      exact below (by omega) (by decide)
  exact hr.kept hrun rfl (by decide)

theorem absorbInjp_does (hn : c.n < 2 ^ 63) (hs : Holds c s) {h base : Reg}
    {o : ℕ} (hside : h ∉ [Reg.zero, .s3, .t1, .a3, .t8, .t9, .at'] ∧ base ∉ loadTemps ∧ o < 2 ^ 14)
    (hK : s.get .s3 = C.Primitives.K) {q : ℕ} (hq : s.get base = c.key + .ofNat 64 q) {i : ℤ}
    (hi : i = (q + o : ℕ)) (hfit : q + o + 8 ≤ c.n) :
    Does c.bus (absorbInjp h base (.ofNat 16 o)) s fun s' =>
      s'.get h = mixTail (s.get h) (word64 c.mem i) ∧ Keeps [h, .t1, .a3, .t8, .t9, .at'] s s' := by
  subst hi
  obtain ⟨hh, hload⟩ := hside
  simp only [List.mem_cons, List.not_mem_nil, or_false, not_or] at hh
  obtain ⟨hz, h3, h1, ha3, h8, h9, hat⟩ := hh
  have hrun : Does c.bus (absorbInjp h base (.ofNat 16 o)) s fun s' =>
      s'.get h = mixTail (s.get h) (word64 c.mem (q + o : ℕ)) := by
    unfold absorbInjp
    refine (word64_does hn hs ⟨by decide, hload⟩ hq hfit).append ?_
    rintro s1 ⟨v1, k1⟩
    refine (inj_does (by decide)).then rfl fun s2 v2 k2 => ?_
    rw [List.singleton_append, does_daddu]
    refine (mul64_does hz).mono fun s3 v3 => ?_
    have hlane : s2.get h = s.get h := by
      rw [k2.reg h (by simp [inj, injBy, rotl64, dests, Op.dests, h1, ha3, h8, h9]),
        k1.reg h (by simp [loadTemps, h8, h9, hat, h1])]
    have hK2 : s2.get .s3 = C.Primitives.K := by rw [k2.reg _ (by decide), k1.reg _ (by decide), hK]
    rw [v3, get_set hz, get_set_of_ne (Ne.symm h3), hlane, v2, v1, hK2]
    rfl
  refine hrun.keeping rfl ?_
  rw [absorbInjp, dests, List.flatMap_append]
  refine List.append_subset.mpr ⟨List.Subset.trans load64le_dests ?_, ?_⟩
  · simp [loadTemps]
  · simp [inj, injBy, rotl64, mul64, Op.dests]

theorem fromEnd_does {r b u : Reg} {n k : ℕ} {off : BitVec 16}
    (hside : (r ≠ .zero ∧ b ≠ r) ∧ off.signExtend 64 = -BitVec.ofNat 64 k)
    (hb : s.get b = c.key + .ofNat 64 0) (hu : s.get u = .ofNat 64 n) (hk : k ≤ n) :
    Does c.bus [.daddiu r u off, .daddu r b r] s fun s' =>
      s'.get r = c.key + .ofNat 64 (n - k) ∧ Keeps [r, r] s s' := by
  obtain ⟨⟨hr, hbr⟩, hoff⟩ := hside
  have hrun : Does c.bus [.daddiu r u off, .daddu r b r] s fun s' =>
    s'.get r = c.key + .ofNat 64 (n - k) := by
    rw [does_daddiu, does_daddu, does_nil, get_set hr, get_set_of_ne hbr, get_set hr, hb, hu,
      ofNat_back hk hoff, BitVec.add_assoc, ← BitVec.ofNat_add, Nat.zero_add]
  exact hrun.kept rfl

theorem headWords_does (hc : c.Valid) (hr : Ready c w p l s) {h : Lanes4 × Word} (hl : Lower h s)
    (hle : 17 ≤ l) (hfit : p + l = c.n) :
    Does c.bus (absorbInjp .s4 .s0 0 ++ absorbInjp .s5 .s0 8) s fun s' =>
      Ready c w p l s' ∧ Lower (headStep c.mem p l h.1, h.2) s' := by
  refine (absorbInjp_does hc.lt hr.holds (by decide) hr.s3 hr.s0 (o := 0) (i := p) rfl
    (by omega)).append ?_
  rintro s1 ⟨v1, k1⟩
  have hr1 := hr.keeps k1 (by decide)
  refine (absorbInjp_does hc.lt hr1.holds (by decide) hr1.s3 hr1.s0 (o := 8) (i := p + 8) rfl
    (by omega)).mono ?_
  rintro s2 ⟨v2, k2⟩
  rw [headStep, if_pos (by omega)]
  refine ⟨hr1.keeps k2 (by decide), lower_of ?_ ?_ ?_ ?_ ?_⟩
  · rw [k2.reg _ (by decide), v1, hl.s4]
  · rw [v2, k1.reg _ (by decide), hl.s5]
  · rw [k2.reg _ (by decide), k1.reg _ (by decide), hl.s6]
  · rw [k2.reg _ (by decide), k1.reg _ (by decide), hl.s7]
  · rw [k2.reg _ (by decide), k1.reg _ (by decide), hl.t0]

theorem lastWords_does (hc : c.Valid) (hr : Ready c w p l s) {h : Lanes4 × Word} (hl : Lower h s)
    (hpos : 0 < l) (hn : 16 ≤ c.n) (hfit : p + l = c.n) :
    Does c.bus lastWords s fun s' => Ready c w p l s' ∧ Lower (lastStep c.mem p l h.1, h.2) s' := by
  unfold lastWords
  rw [List.cons_append, does_slot hc hr.sp (by decide), hr.len]
  have k0 : Keeps [.t2] s (s.set .t2 (.ofNat 64 c.n)) := keeps_set
  have hr0 := hr.keeps k0 (by decide)
  have ht0 : (s.set .t2 (.ofNat 64 c.n)).get .t2 = .ofNat 64 c.n := get_set (by decide)
  have hfp : ∀ s', Ready c w p l s' → s'.get .fp = c.key + .ofNat 64 0 := fun s' hr' =>
    hr'.fp.trans (add_zero _).symm
  refine (fromEnd_does (by decide) (hfp _ hr0) ht0 hn).append ?_
  rintro s1 ⟨v1, k1⟩
  have hr1 := hr0.keeps k1 (by decide)
  refine (absorbInjp_does hc.lt hr1.holds (by decide) hr1.s3 v1 (o := 0) (i := p + l - 16)
    (by omega) (by omega)).append ?_
  rintro s2 ⟨v2, k2⟩
  have hr2 := hr1.keeps k2 (by decide)
  have ht2 : s2.get .t2 = .ofNat 64 c.n := by rw [k2.reg _ (by decide), k1.reg _ (by decide), ht0]
  refine (fromEnd_does (k := 8) (by decide) (hfp _ hr2) ht2 (by omega)).append ?_
  rintro s3 ⟨v3, k3⟩
  have hr3 := hr2.keeps k3 (by decide)
  refine (absorbInjp_does hc.lt hr3.holds (by decide) hr3.s3 v3 (o := 0) (i := p + l - 8) (by omega)
    (by omega)).mono ?_
  rintro s4 ⟨v4, k4⟩
  have k := ((k0.trans k1).trans k2).trans k3
  rw [lastStep, if_pos (by omega)]
  refine ⟨hr3.keeps k4 (by decide), lower_of ?_ ?_ ?_ ?_ ?_⟩
  · rw [k4.reg _ (by decide), k.reg _ (by decide), hl.s4]
  · rw [k4.reg _ (by decide), k.reg _ (by decide), hl.s5]
  · rw [k4.reg _ (by decide), k3.reg _ (by decide), v2, (k0.trans k1).reg _ (by decide), hl.s6]
  · rw [v4, k.reg _ (by decide), hl.s7]
  · rw [k4.reg _ (by decide), k.reg _ (by decide), hl.t0]

/-! ### Folds -/

/-- **`t0`**, in `$s4`. -/
theorem foldT0_does (hc : c.Valid) (hr : Ready c w p l s) {h : Lanes4 × Word} (hl : Lower h s) :
    Does c.bus foldT0 s fun s' => s'.get .s4 = C.Walk.foldT0 h.1 (C.Oneshot.lenmix c.n) ∧
      Keeps [.t8, .t9, .t1, .t2, .s4] s s' := by
  have hrun : Does c.bus foldT0 s fun s' =>
    s'.get .s4 = C.Walk.foldT0 h.1 (C.Oneshot.lenmix c.n) := by
    refine (rotl64_does (by decide)).then rfl fun s1 v1 (k1 : Keeps [.t8, .t9, .t1] s s1) => ?_
    have hr1 := hr.keeps k1 (by decide)
    simp only [List.cons_append, List.nil_append, does_xor]
    have k2 : Keeps [.t1] s1 (s1.set .t1 (s1.get .s4 ^^^ s1.get .t1)) := keeps_set
    have hr2 := hr1.keeps k2 (by decide)
    rw [does_slot hc hr2.sp (by decide), hr2.len]
    refine (mul64_does (by decide)).then rfl fun s3 v3 (k3 : Keeps [.t2] _ s3) => ?_
    rw [does_xor]
    refine (mul64_does (by decide)).then rfl fun s4 v4 (k4 : Keeps [.t1] _ s4) => ?_
    rw [does_move, does_nil, get_set (by decide), v4]
    simp [get_set, get_set_of_ne, k3.reg, v3, k1.reg, v1, hl.s4, hl.s5, hr.s3, C.Walk.foldT0,
      C.Oneshot.lenmix, BitVec.xor_assoc]
  exact hrun.keeping rfl (by decide)

/-- **`t1`**, in `$s5`. -/
theorem foldT1_does (hr : Ready c w p l s) {h : Lanes4} (h6 : s.get .s6 = h.h2)
    (h7 : s.get .s7 = h.h3) : Does c.bus foldT1 s fun s' =>
    s'.get .s5 = C.Walk.foldT1 h ∧ Keeps [.t8, .t9, .t2, .s5] s s' := by
  have hrun : Does c.bus foldT1 s fun s' => s'.get .s5 = C.Walk.foldT1 h := by
    refine (rotl64_does (by decide)).then rfl fun s1 v1 (k1 : Keeps [.t8, .t9, .t2] s s1) => ?_
    simp only [List.cons_append, List.nil_append, does_xor]
    refine (mul64_does (by decide)).then rfl fun s2 v2 (k2 : Keeps [.t2] _ s2) => ?_
    rw [does_move, does_nil, get_set (by decide), v2]
    simp [get_set, get_set_of_ne, k1.reg, v1, h6, h7, hr.s3, C.Walk.foldT1]
  exact hrun.keeping rfl (by decide)

/-- **The low word**, in `$v0`. -/
theorem foldLow_does (hr : Ready c w p l s) {t0 t1 : Word} (h4 : s.get .s4 = t0)
    (h5 : s.get .s5 = t1) : Does c.bus foldLow s fun s' =>
      s'.get .v0 = C.Primitives.longFmix
        (c.seed ^^^ C.Primitives.K ^^^ t0 ^^^ C.Primitives.rotl t1 29)
        C.Primitives.K ∧ Keeps [.t8, .t9, .t2, .v0, .t1] s s' := by
  have hrun : Does c.bus foldLow s fun s' => s'.get .v0 =
      C.Primitives.longFmix (c.seed ^^^ C.Primitives.K ^^^ t0 ^^^ C.Primitives.rotl t1 29)
        C.Primitives.K := by
    refine (rotl64_does (by decide)).then rfl fun s1 v1 (k1 : Keeps [.t8, .t9, .t2] s s1) => ?_
    simp only [List.cons_append, List.nil_append, does_xor]
    refine (xorShift_does (by decide)).then rfl fun s2 v2 (k2 : Keeps [.t1, .v0] _ s2) => ?_
    refine (mul64_does (by decide)).then rfl fun s3 v3 (k3 : Keeps [.v0] s2 s3) => ?_
    refine (xorShift_does (by decide)).mono fun s4 v4 => ?_
    have hK : s2.get .s3 = C.Primitives.K := by
      simp [get_set_of_ne, k2.reg, k1.reg, hr.s3]
    have hin : s2.get .v0 = _ ^^^ _ := v2
    simp only [get_set, get_set_of_ne, ne_eq, reduceCtorEq, not_false_eq_true, k1.reg,
      List.mem_cons, List.not_mem_nil, or_self, v1, hr.s2, h4, h5] at hin
    rw [v4, v3, hin, hK, C.Primitives.longFmix]
  exact hrun.keeping rfl (by decide)

/-- **The high word**, in `$v1`. -/
theorem foldHigh_does (hr : Ready c w p l s) {t0 t1 : Word} (h4 : s.get .s4 = t0)
    (h5 : s.get .s5 = t1) : Does c.bus foldHigh s fun s' =>
      s'.get .v1 = C.Primitives.fmix128 (C.Primitives.rotl (c.seed ^^^ C.Primitives.K) 32 ^^^
        (t1 + C.Primitives.rotl t0 47)) ∧ s'.get .v0 = s.get .v0 ∧ Ready c w p l s' := by
  have hrun : Does c.bus foldHigh s fun s' => s'.get .v1 =
      C.Primitives.fmix128 (C.Primitives.rotl (c.seed ^^^ C.Primitives.K) 32 ^^^
        (t1 + C.Primitives.rotl t0 47)) := by
    refine (rotl64_does (by decide)).then rfl fun s1 v1 (k1 : Keeps [.t8, .t9, .v1] s s1) => ?_
    refine (rotl64_does (by decide)).then rfl fun s2 v2 (k2 : Keeps [.t8, .t9, .t2] s1 s2) => ?_
    simp only [List.cons_append, List.nil_append, does_daddu, does_xor]
    refine fmix128_does.mono fun s3 v3 => ?_
    rw [v3]
    simp [get_set, get_set_of_ne, k2.reg, k1.reg, v1, v2, hr.s2, h4, h5]
  exact (hrun.kept rfl).mono fun s' hs' =>
    ⟨hs'.1, hs'.2.reg _ (by decide), hr.keeps hs'.2 (by decide)⟩

/-! ### A key of at most 16 bytes -/

/-- **The two words of a short key** are in registers. -/
structure Words (c : Call) (w : Word) (s : State) : Prop extends Ready c w 0 c.n s where
  s4 : s.get .s4 = shortA c.mem c.n
  s5 : s.get .s5 = shortB c.mem c.n

theorem short8_does (hc : c.Valid) (hr : Ready c w 0 c.n s) (h8 : 8 ≤ c.n) :
    Does c.bus short8 s (Words c w) := by
  refine (word64_does hc.lt hr.holds (by decide) hr.s0 (o := 0) (by omega)).append ?_
  rintro s1 ⟨v1, k1⟩
  have hr1 := hr.keeps k1 (by decide)
  refine (fromEnd_does (by decide) hr1.s0 hr1.s1 h8).append ?_
  rintro s2 ⟨v2, k2⟩
  have hr2 := hr1.keeps k2 (by decide)
  refine (word64_does hc.lt hr2.holds (by decide) v2 (o := 0) (by omega)).mono ?_
  rintro s3 ⟨v3, k3⟩
  refine ⟨hr2.keeps k3 (by decide), ?_, ?_⟩
  · rw [k3.reg _ (by decide), k2.reg _ (by decide), v1, shortA, if_pos h8]
    rfl
  · have hback : ((c.n - 8 + 0 : ℕ) : ℤ) = c.n - 8 := by omega
    rw [v3, hback, shortB, if_pos h8]

theorem words47_does (hc : c.Valid) (hr : Ready c w 0 c.n s) (h4 : 4 ≤ c.n) (h8 : c.n < 8) :
    Does c.bus words47 s (Words c w) := by
  refine (word32_does hc.lt hr.holds (by decide) hr.s0 (o := 0) (by omega)).append ?_
  rintro s1 ⟨v1, k1⟩
  have hr1 := hr.keeps k1 (by decide)
  refine (fromEnd_does (by decide) hr1.s0 hr1.s1 h4).append ?_
  rintro s2 ⟨v2, k2⟩
  have hr2 := hr1.keeps k2 (by decide)
  refine (word32_does hc.lt hr2.holds (by decide) v2 (o := 0) (by omega)).mono ?_
  rintro s3 ⟨v3, k3⟩
  refine ⟨hr2.keeps k3 (by decide), ?_, ?_⟩
  · rw [k3.reg _ (by decide), k2.reg _ (by decide), v1, shortA, if_neg (by omega), if_pos h4]
    rfl
  · have hback : ((c.n - 4 + 0 : ℕ) : ℤ) = c.n - 4 := by omega
    rw [v3, hback, shortB, if_neg (by omega), if_pos h4]

theorem does_byte (hc : c.Valid) (hs : Holds c s) {base rt : Reg} {q : ℕ}
    (hq : s.get base = c.key + .ofNat 64 q) (hlt : q < c.n) {os : List Op} {Q : State → Prop} :
    Does c.bus (.lbu rt 0 base :: os) s Q ↔ Does c.bus os (s.set rt ((c.mem q).setWidth 64)) Q := by
  have haddr : s.addr base 0 = c.key + .ofNat 64 q := by
    rw [State.addr, hq]
    exact add_zero _
  obtain ⟨hread, hbyte⟩ := key_read hc.lt hs hlt
  rw [does_lbu (by rw [haddr]; exact hread), haddr, hbyte]

theorem middle_does (hc : c.Valid) (hr : Ready c w 0 c.n s) :
    Does c.bus [.dsrl .t1 .s1 1, .daddu .t1 .s0 .t1] s fun s' =>
      s'.get .t1 = c.key + .ofNat 64 (c.n / 2) ∧ Keeps [.t1, .t1] s s' := by
  have hn := hc.lt
  have hhalf : BitVec.ofNat 64 c.n >>> 1 = BitVec.ofNat 64 (c.n / 2) := by
    refine BitVec.eq_of_toNat_eq ?_
    rw [BitVec.toNat_ushiftRight, BitVec.toNat_ofNat, BitVec.toNat_ofNat, Nat.shiftRight_eq_div_pow,
      Nat.mod_eq_of_lt (by omega), Nat.mod_eq_of_lt (by omega), Nat.pow_one]
  have hrun : Does c.bus [.dsrl .t1 .s1 1, .daddu .t1 .s0 .t1] s fun s' =>
      s'.get .t1 = c.key + .ofNat 64 (c.n / 2) := by
    rw [does_dsrl, does_daddu, does_nil, get_set (by decide), get_set_of_ne (by decide),
      get_set (by decide), hr.s0, hr.s1, hhalf, BitVec.add_assoc, ← BitVec.ofNat_add, Nat.zero_add]
  exact hrun.kept rfl

theorem words13_does (hc : c.Valid) (hr : Ready c w 0 c.n s) (h0 : 0 < c.n) (h4 : c.n < 4) :
    Does c.bus words13 s (Words c w) := by
  change Does c.bus (.lbu .s4 0 .s0 :: ([.dsrl .t1 .s1 1, .daddu .t1 .s0 .t1] ++ (.lbu .t1 0 .t1 ::
    ([.daddiu .t2 .s1 (-1), .daddu .t2 .s0 .t2] ++ [.lbu .t2 0 .t2, .dsll .t1 .t1 8,
    .dsll .t2 .t2 16, .or .s5 .t1 .t2])))) _ _
  rw [does_byte hc hr.holds hr.s0 h0]
  have k0 : Keeps [.s4] s (s.set .s4 ((c.mem (0 : ℕ)).setWidth 64)) := keeps_set
  have hr0 := hr.keeps k0 (by decide)
  refine (middle_does hc hr0).append ?_
  rintro s1 ⟨v1, k1⟩
  have hr1 := hr0.keeps k1 (by decide)
  rw [does_byte hc hr1.holds v1 (by omega)]
  have k2 : Keeps [.t1] s1 (s1.set .t1 ((c.mem (c.n / 2 : ℕ)).setWidth 64)) := keeps_set
  have hr2 := hr1.keeps k2 (by decide)
  refine (fromEnd_does (k := 1) (by decide) hr2.s0 hr2.s1 h0).append ?_
  rintro s3 ⟨v3, k3⟩
  have hr3 := hr2.keeps k3 (by decide)
  have hback : ((c.n - 1 : ℕ) : ℤ) = c.n - 1 := by omega
  rw [does_byte hc hr3.holds v3 (by omega), hback]
  have hrun : Does c.bus [.dsll .t1 .t1 8, .dsll .t2 .t2 16, .or .s5 .t1 .t2]
      (s3.set .t2 ((c.mem (c.n - 1)).setWidth 64)) fun s' =>
        s'.get .s4 = shortA c.mem c.n ∧ s'.get .s5 = shortB c.mem c.n := by
    rw [does_dsll, does_dsll, does_or, does_nil, shortA, shortB, if_neg (by omega),
      if_neg (by omega), if_pos h0, if_neg (by omega), if_neg (by omega), if_pos h0]
    constructor
    · simp [get_set_of_ne, k3.reg, k1.reg, get_set]
    · simp [get_set_of_ne, k3.reg, get_set]
  refine (hrun.kept rfl).mono fun s' hs' => ⟨?_, hs'.1.1, hs'.1.2⟩
  exact (hr3.keeps keeps_set (by decide)).keeps hs'.2 (by decide)

theorem empty_does (hr : Ready c w 0 c.n s) (h0 : c.n = 0) :
    Does c.bus [.move .s4 .zero, .move .s5 .zero] s (Words c w) := by
  have hrun : Does c.bus [.move .s4 .zero, .move .s5 .zero] s fun s' =>
      s'.get .s4 = shortA c.mem c.n ∧ s'.get .s5 = shortB c.mem c.n := by
    rw [does_move, does_move, does_nil, get_set_of_ne (by decide), get_set (by decide),
      get_set (by decide), get_set_of_ne (by decide), get_zero, h0]
    exact ⟨rfl, rfl⟩
  exact (hr.kept hrun rfl (by decide)).mono fun s' hs' => ⟨hs'.1, hs'.2.1, hs'.2.2⟩

/-- **The product of the first word**, in `$s4`. -/
theorem shortX_does (hr : Ready c w p l s) : Does c.bus Ports.Mips.shortX s fun s' =>
    s'.get .s4 = Spec.Reference.shortX (s.get .s4) (c.seed ^^^ C.Primitives.K) ∧
      Keeps [.t8, .t9, .a3, .t1, .s4] s s' := by
  have hrun : Does c.bus Ports.Mips.shortX s fun s' =>
      s'.get .s4 = Spec.Reference.shortX (s.get .s4) (c.seed ^^^ C.Primitives.K) := by
    refine (inj_does (by decide)).then rfl fun s1 v1 k1 => ?_
    have k1 : Keeps [.t8, .t9, .a3, .t1] s s1 := k1.mono (by decide)
    simp only [List.cons_append, List.nil_append, does_xor]
    refine (mul64_does (by decide)).then rfl fun s2 v2 (k2 : Keeps [.t1] _ s2) => ?_
    rw [does_move, does_nil, get_set (by decide), v2]
    simp [get_set, get_set_of_ne, k1.reg, v1, hr.s2, hr.s3, Spec.Reference.shortX]
  exact hrun.keeping rfl (by decide)

/-- **The product of the second word**, in `$t2`, and `M1` in `$t3`. -/
theorem shortY_does (hr : Ready c w p l s) : Does c.bus Ports.Mips.shortY s fun s' =>
    s'.get .t2 = Spec.Reference.shortY (s.get .s5) (c.seed ^^^ C.Primitives.K) ∧
      s'.get .t3 = C.Primitives.M1 ∧ Keeps [.t8, .t9, .a3, .t2, .t3, .a4] s s' := by
  have hrun : Does c.bus Ports.Mips.shortY s fun s' =>
      s'.get .t2 = Spec.Reference.shortY (s.get .s5) (c.seed ^^^ C.Primitives.K) ∧
        s'.get .t3 = C.Primitives.M1 := by
    refine (inj2_does (by decide)).then rfl fun s1 v1 k1 => ?_
    have k1 : Keeps [.t8, .t9, .a3, .t2] s s1 := k1.mono (by decide)
    refine (rotl64_does (by decide)).then rfl fun s2 v2 (k2 : Keeps [.t8, .t9, .t3] s1 s2) => ?_
    simp only [List.cons_append, List.nil_append, does_xor, does_dsrl]
    refine (constant_does (by decide)).then rfl fun s3 v3 k3 => ?_
    have k3 : Keeps [.t3, .a4] _ s3 := k3.mono (by decide)
    have hM1 : s3.get .t3 = C.Primitives.M1 := v3.trans (by decide)
    refine ((mul64_does (by decide)).kept rfl).mono ?_
    rintro s4 ⟨v4, k4⟩
    refine ⟨?_, (k4.reg .t3 (by decide)).trans hM1⟩
    rw [v4, hM1]
    simp [get_set, get_set_of_ne, k3.reg, k2.reg, k1.reg, v1, v2, hr.s2, hr.s3,
      Spec.Reference.shortY]
  exact (hrun.keeping rfl (by decide)).mono fun s' hs' => and_assoc.mp hs'

/-- **The input of the finalizer**, in `$s5` and `$v0`. -/
theorem shortU_does (hr : Ready c w p l s) (hl : s.get .s1 = .ofNat 64 l) {x y : Word}
    (h4 : s.get .s4 = x) (ht2 : s.get .t2 = y) : Does c.bus Ports.Mips.shortU s fun s' =>
    s'.get .s5 = Spec.Reference.shortU x y l ∧ s'.get .v0 = Spec.Reference.shortU x y l ∧
      Keeps [.t8, .t9, .t1, .s5, .a4, .v0] s s' := by
  have hrun : Does c.bus Ports.Mips.shortU s fun s' =>
      s'.get .s5 = Spec.Reference.shortU x y l ∧ s'.get .v0 = Spec.Reference.shortU x y l := by
    refine (rotl64_does (by decide)).then rfl fun s1 v1 (k1 : Keeps [.t8, .t9, .t1] s s1) => ?_
    simp only [List.cons_append, List.nil_append, does_xor]
    refine (mul64_does (by decide)).then rfl fun s2 v2 (k2 : Keeps [.a4] _ s2) => ?_
    rw [does_xor, does_move, does_nil]
    constructor <;>
      simp [get_set, get_set_of_ne, k2.reg, v2, k1.reg, v1, h4, ht2, hl, hr.s3,
        Spec.Reference.shortU, C.Oneshot.lenmix]
  exact (hrun.keeping rfl (by decide)).mono fun s' hs' => and_assoc.mp hs'

theorem shortFmix_does {u : Word} (hv : s.get .v0 = u) (ht3 : s.get .t3 = C.Primitives.M1) :
    Does c.bus shortFmix s fun s' =>
    s'.get .v0 = C.Primitives.fmix u ∧ Keeps [.t1, .v0, .t3, .a4] s s' := by
  have hrun : Does c.bus shortFmix s fun s' => s'.get .v0 = C.Primitives.fmix u := by
    refine (xorShift_does (by decide)).then rfl fun s1 v1 (k1 : Keeps [.t1, .v0] s s1) => ?_
    refine (mul64_does (by decide)).then rfl fun s2 v2 (k2 : Keeps [.v0] s1 s2) => ?_
    refine (xorShift_does (by decide)).then rfl fun s3 v3 (k3 : Keeps [.t1, .v0] s2 s3) => ?_
    refine (constant_does (by decide)).then rfl fun s4 v4 k4 => ?_
    refine (mul64_does (by decide)).then rfl fun s5 v5 (k5 : Keeps [.v0] s4 s5) => ?_
    refine (xorShift_does (by decide)).mono fun s6 v6 => ?_
    have hM2 : s4.get .t3 = C.Primitives.M2 := v4.trans (by decide)
    rw [v6, v5, hM2, k4.reg .v0 (by decide), v3, v2, k1.reg .t3 (by decide), ht3, v1, hv,
      C.Primitives.fmix]
  exact hrun.keeping rfl (by decide)

theorem shortHigh_does (hr : Ready c w p l s) {x u : Word} (h4 : s.get .s4 = x)
    (h5 : s.get .s5 = u) : Does c.bus shortHigh s fun s' =>
      s'.get .v1 = C.Primitives.fmix128 (x + C.Primitives.rotl u 32) ∧ s'.get .v0 = s.get .v0 ∧
        Ready c w p l s' := by
  have hrun : Does c.bus shortHigh s fun s' =>
      s'.get .v1 = C.Primitives.fmix128 (x + C.Primitives.rotl u 32) := by
    refine (rotl64_does (by decide)).then rfl fun s1 v1 (k1 : Keeps [.t8, .t9, .t1] s s1) => ?_
    rw [List.singleton_append, does_daddu]
    refine fmix128_does.mono fun s2 v2 => ?_
    rw [v2, get_set (by decide), k1.reg _ (by decide), h4, v1, h5]
  exact (hrun.kept rfl).mono fun s' hs' =>
    ⟨hs'.1, hs'.2.reg _ (by decide), hr.keeps hs'.2 (by decide)⟩

end Hayahash.Refine.Mips.Pieces
