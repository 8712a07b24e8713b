import Hayahash.C.Loads
import Hayahash.Ports.Haskell
import Hayahash.Refine.PortStream

/-! # The Haskell port does what the machine does

The streaming state holds what the machine can hold (`toAbsorber`), and no more than it has to: with
the bytes absorbed, the state is known (`holds_unique`). So however the bytes were cut, the states
are the same (`update_append`). -/

namespace Hayahash.Refine.Haskell

open Hayahash.Lib.ReadProg Hayahash.Lib.Bytes Hayahash.Lib.Checked Hayahash.Lib.Arrays
open Hayahash.Lib.Walk Hayahash.Spec.Reference Hayahash.Spec.Machine Hayahash.Ports.Walk
open Hayahash.Ports.Haskell Hayahash.Refine.PortWalk
open Hayahash.Refine.PortStream (absorb_take)
open Hayahash.C.Primitives (Word Lanes4 Lanes8 K decode32)
open Hayahash.C.Loads (decode32_eq)
open Hayahash.C.Stream (bufcap)

/-! ### Mixers -/

theorem mixers_eq : mixers = .header := by
  have hrotl : rotateL = C.Primitives.rotl := shiftRotl_eq
  unfold mixers inj inj2 iv
  rw [hrotl]
  rfl

theorem k_eq : k = K := congrArg Mixers.k mixers_eq

theorem initialLanes_eq (seed : Word) : initialLanes seed = (C.Walk.iv8 (seed ^^^ K), 0) := by
  rw [initialLanes, k_eq, show iv = C.Walk.iv8 from congrArg Mixers.iv mixers_eq]

variable {I : Ints} {hi : ℕ} (hI : I.Upto hi) {c : List Byte}
include hI

/-! ### Loads -/

section Loads
variable (hc : c.length ≤ hi) {i : ℤ} (h0 : 0 ≤ i)
include hc h0

theorem byte_eq {k : ℤ} (hk : 0 ≤ k) (hik : i + k < c.length) :
    byte I c i k = pure ((ofList c (i + k)).setWidth 64) := by
  rw [byte, hI.add (by omega) (by omega), pure_bind,
    View.get_eq (by omega) (by simp only [View.all]; omega), pure_bind]
  simp only [View.all, zero_add]

theorem load32LE_eq (h4 : i + 4 ≤ c.length) :
    load32LE I c i = pure ((word32 (ofList c) i).setWidth 64) := by
  have hdecode := decode32_eq .unknown fun j => ofList c (i + j)
  rw [word32, ← hdecode]
  simp (disch := omega) only [load32LE, byte_eq hI hc h0, pure_bind]
  simp [decode32]

theorem load64LE_eq (h8 : i + 8 ≤ c.length) : load64LE I c i = pure (word64 (ofList c) i) := by
  rw [load64LE, load32LE_eq hI hc h0 (by omega), pure_bind, hI.add (by omega) (by omega), pure_bind,
    load32LE_eq hI hc (by omega) (by omega), pure_bind, word64_halves]

end Loads

theorem reads (hc : c.length ≤ hi) : Reads (reader I c) (ofList c) 0 c.length where
  mix := mixers_eq
  lo_nonneg := le_rfl
  ints := hI.mono (by omega)
  load64 h0 h1 := by
    rw [sub_zero]
    exact load64LE_eq hI hc h0 (by omega)
  load32 h0 h1 := by
    rw [sub_zero]
    exact load32LE_eq hI hc h0 (by omega)
  load8 h0 h1 := by
    rw [sub_zero]
    simp only [reader]
    rw [View.get_eq h0 (by simp only [View.all]; omega), pure_bind]
    simp only [View.all, zero_add]
  fromStart h0 h1 := by
    rw [zero_add]
    rfl
  fromEnd h0 h1 := by
    rw [zero_add]
    exact hI.sub (by omega) (by omega)

/-! ### One-shot -/

theorem absorbBlocks_blocks (hc : c.length ≤ hi) {k : ℕ} (hk : 64 * k ≤ c.length)
    (s : Lanes8 × Word) :
    absorbBlocks I c 0 (64 * k : ℕ) s = pure (blocks (ofList c) k 0 s) := by
  have hR := reads hI hc
  have hloop := downToZero_yields (I := I) (f := block (reader I c)) (R := Eq) (d := 64) (p := 0)
    (s := s) (x := s) hI (by decide) (64 * k + 1) k (by omega) le_rfl (by omega)
    (.of_eq fun p s h0 h1 => block_eq hR h0 (by omega) s) rfl
  rw [absorbBlocks, Int.toNat_natCast, ← yields_eq,
    blocks, ← sub_self (0 : ℤ), ← walk_shift, sub_self]
  exact hloop

/-- **`absorbBlocks`**, from the start of a string on. -/
theorem absorbBlocks_eq (hc : c.length ≤ hi) {k : ℕ} (hk : 64 * k ≤ c.length) (s : Lanes8 × Word) :
    absorbBlocks I c 0 (64 * k : ℕ) s = pure (absorb (c.take (64 * k)) s) := by
  rw [absorbBlocks_blocks hI hc hk, absorb_take hk]

theorem finishLanes_eq (hc : c.length ≤ hi) {p l : ℕ} (hn : 16 ≤ c.length)
    (hpl : p + l = c.length) (s : Lanes4 × Word) : finishLanes I c p l s =
      pure (tailStep (ofList c) (p + (32 * (l / 32) : ℕ)) (l % 32 : ℕ)
        (wallStep (rounds (ofList c) (l / 32) p s))) := by
  have hR := reads hI hc
  have hmid := midLoop_eq hR (p := p) (l := l) (by omega) (by omega) (Nat.lt_succ_self l) s
  have hints : (reader I c).ints = I := rfl
  rw [hints] at hmid
  rw [finishLanes, midLoop, Int.toNat_natCast, hmid, pure_bind]
  dsimp only
  rw [tailFromLength_eq hR hn _ _ _ (by omega) (by omega), sub_zero, sub_zero]
  rfl

/-- **`longTerms`** gets to the folds as the reference does. -/
theorem longTerms_eq (hc : c.length ≤ hi) (hn : 16 ≤ c.length) (seed : Word) :
    longTerms I c seed = pure (foldLanes (ofList c) c.length (seed ^^^ K)) := by
  unfold longTerms foldLanes walkState
  rw [initialLanes_eq, mixers_eq]
  dsimp only
  by_cases hbulk : c.length < 320
  · have hfinish := finishLanes_eq hI hc (p := 0) (l := c.length) hn (by omega)
      (lower (C.Walk.iv8 (seed ^^^ K)), 0)
    rw [Nat.cast_zero] at hfinish
    rw [if_neg (by unfold Ports.Haskell.bulkMin; omega), if_pos hbulk, hfinish, zero_add]
    rfl
  · have hblocks : (c.length : ℤ) / 64 * 64 = (64 * (c.length / 64) : ℕ) := by omega
    have hleft : (c.length : ℤ) - (64 * (c.length / 64) : ℕ) = (c.length % 64 : ℕ) := by omega
    have hpos : ((64 * (c.length / 64) : ℕ) : ℤ) + (32 * (c.length % 64 / 32) : ℕ) =
        (32 * (c.length / 32) : ℕ) := by omega
    have hmod : c.length % 64 % 32 = c.length % 32 := by omega
    rw [if_pos (by unfold Ports.Haskell.bulkMin; omega), if_neg hbulk, hblocks,
      absorbBlocks_blocks hI hc (by omega), pure_bind, hI.sub (by omega) (by omega),
      pure_bind, hleft, finishLanes_eq hI hc hn (by omega), hpos, hmod]
    rfl

theorem hayahash64_eq (hc : c.length ≤ hi) (seed : Word) :
    hayahash64 I c seed = pure (compact64 (ofList c) c.length seed) := by
  unfold hayahash64
  rw [k_eq, mixers_eq]
  dsimp only
  by_cases hn : c.length ≤ 16
  · rw [if_pos hn, hashShort_eq (reads hI hc) hn]
  · rw [if_neg hn, longTerms_eq hI hc (by omega), pure_bind, compact64, if_neg hn]
    rfl

theorem hayahash128_eq (hc : c.length ≤ hi) (seed : Word) :
    hayahash128 I c seed = pure (compact128 (ofList c) c.length seed) := by
  unfold hayahash128
  rw [k_eq, mixers_eq]
  dsimp only
  by_cases hn : c.length ≤ 16
  · rw [if_pos hn, hash128Short_eq (reads hI hc) hn]
  · rw [if_neg hn, longTerms_eq hI hc (by omega), pure_bind, compact128, compact64, compactHi,
      if_neg hn, if_neg hn]
    rfl

/-! ### Feeding -/

/-- The bytes of both, where an `Int` can say how many. -/
theorem copyAppend_eq {left right : List Byte} (hfit : left.length + right.length ≤ hi) :
    copyAppend I left right = pure (left ++ right) := by
  unfold copyAppend append
  by_cases hleft : left.length = 0
  · rw [if_pos hleft, List.eq_nil_of_length_eq_zero hleft, List.nil_append]
  · by_cases hright : right.length = 0
    · rw [if_neg hleft, if_pos hright, List.eq_nil_of_length_eq_zero hright, List.append_nil]
    · rw [if_neg hleft, if_neg hright, hI.add (by omega) (by omega), pure_bind, if_neg (by omega)]

/-- Of the string `m`, whole blocks are in the lanes, from `iv` on, and `rest` is not. -/
def Ahead (iv : Lanes8 × Word) (m : List Byte) (lanes : Lanes8 × Word) (rest : List Byte) : Prop :=
  ∃ done, m = done ++ rest ∧ 64 ∣ done.length ∧ lanes = absorb done iv

omit hI in
theorem Ahead.absorb {iv lanes : Lanes8 × Word} {m front rest : List Byte}
    (hfront : 64 ∣ front.length)
    (h : Ahead iv m lanes (front ++ rest)) : Ahead iv m (absorb front lanes) rest := by
  obtain ⟨done, rfl, hdone, rfl⟩ := h
  refine ⟨done ++ front, (List.append_assoc done front rest).symm, ?_,
    (absorb_append hdone front iv).symm⟩
  rw [List.length_append]
  exact Nat.dvd_add hdone hfront

omit hI in
theorem length_take_blocks {k : ℕ} (hk : 64 * k ≤ c.length) : 64 ∣ (c.take (64 * k)).length :=
  ⟨k, PortStream.length_blocks hk⟩

theorem absorbBlocks_ahead {iv lanes : Lanes8 × Word} {m more : List Byte} {k : ℕ}
    (hc : c.length ≤ hi) (hk : 64 * k ≤ c.length) (h : Ahead iv m lanes (c ++ more)) :
    Yields (absorbBlocks I c 0 (64 * k : ℕ) lanes) (Ahead iv m · (c.drop (64 * k) ++ more)) := by
  refine .of_eq (absorbBlocks_eq hI hc hk lanes) (Ahead.absorb (length_take_blocks hk) ?_)
  rwa [← List.append_assoc, List.take_append_drop]

/-- What `feedBulk` ends with: the rest is between 128 and 191 bytes. -/
def Fed (iv : Lanes8 × Word) (m : List Byte) (r : (Lanes8 × Word) × List Byte) : Prop :=
  Ahead iv m r.1 r.2 ∧ 128 ≤ r.2.length ∧ r.2.length < 192

theorem absorbBlocks_fed {iv lanes : Lanes8 × Word} {m : List Byte} {k : ℕ} (hc : c.length ≤ hi)
    (hlo : 64 * k + 128 ≤ c.length) (hlt : c.length < 64 * k + 192) (h : Ahead iv m lanes c) :
    Yields (do return (← absorbBlocks I c 0 (64 * k : ℕ) lanes, c.drop (64 * k))) (Fed iv m) := by
  rw [← List.append_nil c] at h
  refine (absorbBlocks_ahead hI hc (by omega) h).bind fun l hl => ?_
  rw [List.append_nil] at hl
  refine .pure ⟨hl, ?_, ?_⟩
  · rw [List.length_drop]
    omega
  · rw [List.length_drop]
    omega

/-- **`feedBulk`**: all of the input is taken, and between 128 and 191 bytes are held. -/
theorem feedBulk_ahead {iv : Lanes8 × Word} {m : List Byte} : ∀ (fuel : ℕ) {lanes : Lanes8 × Word}
    {buffer input : List Byte}, input.length < fuel → Ahead iv m lanes (buffer ++ input) →
    128 ≤ buffer.length → buffer.length < 192 → 640 ≤ hi → input.length ≤ hi →
    Yields (feedBulk I fuel lanes buffer input) (Fed iv m) := by
  intro fuel
  induction fuel with
  | zero => intro lanes buffer input hfuel; omega
  | succ fuel ih =>
    intro lanes buffer input hfuel h hlo hlt hmin hfit
    have hkeep : Ports.Stream.keep = 128 := rfl
    have hcap : Ports.Stream.bufCap = 448 := rfl
    unfold feedBulk
    by_cases h0 : input.length = 0
    · rw [if_pos h0]
      rw [List.eq_nil_of_length_eq_zero h0, List.append_nil] at h
      exact .pure ⟨h, hlo, hlt⟩
    rw [if_neg h0, hkeep, hcap]
    by_cases hgt : 128 < buffer.length
    · -- the buffer is topped up to 192 bytes, of which one block goes
      have hneeded : (192 : ℤ) - buffer.length = (192 - buffer.length : ℕ) := by omega
      rw [if_pos (by omega)]
      refine .bind_eq (hI.sub (by omega) (by omega)) ?_
      rw [hneeded, Int.toNat_natCast]
      by_cases hless : input.length < 192 - buffer.length
      · rw [if_pos (by omega)]
        refine .bind_eq (copyAppend_eq hI (by omega)) ?_
        exact .pure ⟨h, by rw [List.length_append]; omega, by rw [List.length_append]; omega⟩
      · have hjoined : (buffer ++ input.take (192 - buffer.length)).length = 192 := by
          rw [List.length_append, List.length_take]
          omega
        have hrest : (input.drop (192 - buffer.length)).length =
          input.length - (192 - buffer.length) :=
          List.length_drop
        rw [if_neg (by omega)]
        refine .bind_eq (copyAppend_eq hI (by rw [List.length_take]; omega)) ?_
        rw [← List.take_append_drop (192 - buffer.length) input, ← List.append_assoc] at h
        refine (absorbBlocks_ahead hI (k := 1) (by omega) (by omega) h).bind fun l hl => ?_
        refine ih (by omega) hl ?_ ?_ hmin (by omega)
        · rw [List.length_drop, hjoined]
        · rw [List.length_drop, hjoined]
          omega
    · have hbuf : buffer.length = 128 := by omega
      rw [if_neg (by omega)]
      by_cases hbig : 448 < input.length
      · -- the buffer goes, and whole blocks of the input
        have hdirect : ((input.length : ℤ) - 128) / 64 * 64 =
            (64 * ((input.length - 128) / 64) : ℕ) := by omega
        rw [if_pos (by omega)]
        refine (absorbBlocks_ahead hI (k := 2) (by omega) (by omega) h).bind fun l hl => ?_
        rw [List.drop_of_length_le (by omega), List.nil_append] at hl
        refine .bind_eq (hI.sub (by omega) (by omega)) ?_
        rw [hdirect]
        dsimp only
        rw [Int.toNat_natCast]
        exact absorbBlocks_fed hI hfit (by omega) (by omega) hl
      · -- both together go, down to the floor
        have hjoined : (buffer ++ input).length = 128 + input.length := by
          rw [List.length_append, hbuf]
        rw [if_neg (by omega)]
        refine .bind_eq (copyAppend_eq hI (by omega)) ?_
        dsimp only
        by_cases hround : 64 ≤ input.length
        · have hconsume : (((buffer ++ input).length : ℤ) - 128) / 64 * 64 =
              (64 * (input.length / 64) : ℕ) := by omega
          rw [if_pos (by omega)]
          refine .bind_eq (hI.sub (by omega) (by omega)) ?_
          rw [hconsume]
          refine .bind_eq rfl ?_
          rw [Int.toNat_natCast]
          exact absorbBlocks_fed hI (by omega) (by omega) (by omega) h
        · rw [if_neg (by omega)]
          refine .bind_eq rfl ?_
          exact absorbBlocks_fed hI (k := 0) (by omega) (by omega) (by omega) h

/-! ### Hasher -/

/-- The state, as one of the machine. -/
def toAbsorber (h : Hasher) : Absorber := ⟨h.lanes, h.seed, h.total, h.bulk, h.buffer⟩

/-- **The hasher has absorbed `m`**, under `seed`, and holds no more of it than it has to. -/
structure Holds (seed : Word) (m : List Byte) (h : Hasher) : Prop where
  machine : Absorber.Holds seed m (toAbsorber h)
  lt : h.bulk = true → h.buffer.length < 192

variable {seed : Word} {m : List Byte} {h h' : Hasher}

omit hI in
theorem newHasher_holds (seed : Word) : Holds seed [] (newHasher seed) :=
  ⟨Absorber.init_holds seed, fun hb => (by cases hb)⟩

omit hI in
theorem Holds.bulk_iff (hh : Holds seed m h) : h.bulk = true ↔ bufcap ≤ m.length :=
  hh.machine.bulk_iff

omit hI in
theorem Holds.buffer (hh : Holds seed m h) (hb : h.bulk = false) : h.buffer = m :=
  hh.machine.undecided hb

omit hI in
theorem Holds.window (hh : Holds seed m h) (hm : bufcap ≤ m.length) :
    128 ≤ h.buffer.length ∧ h.buffer.length < 192 :=
  ⟨(hh.machine.bulk (hh.bulk_iff.mpr hm)).2, hh.lt (hh.bulk_iff.mpr hm)⟩

omit hI in
/-- What is ahead of the lanes is what is held. -/
theorem Holds.ahead (hh : Holds seed m h) : Ahead (initialLanes seed) m h.lanes h.buffer := by
  obtain ⟨done, hm, hdone, hlanes⟩ := hh.machine.fed
  rw [List.append_nil] at hm
  exact ⟨done, hm, hdone, hlanes⟩

omit hI in
/-- **The bytes absorbed determine the state**, however they came. -/
theorem holds_unique (hh : Holds seed m h) (hh' : Holds seed m h') : h = h' := by
  obtain ⟨lanes, buffer, s, total, bulk⟩ := h
  obtain ⟨lanes', buffer', s', total', bulk'⟩ := h'
  have hs : s = s' := hh.machine.seed.trans hh'.machine.seed.symm
  have htotal : total = total' := hh.machine.total.trans hh'.machine.total.symm
  have hbulk : bulk = bulk' := Bool.eq_iff_iff.mpr (hh.bulk_iff.trans hh'.bulk_iff.symm)
  obtain ⟨done, hm, ⟨k, hk⟩, hlanes⟩ := hh.ahead
  obtain ⟨done', hm', ⟨k', hk'⟩, hlanes'⟩ := hh'.ahead
  -- as many blocks are in the lanes
  have hbuffer : buffer.length = buffer'.length := by
    have hlen := congrArg List.length hm
    have hlen' := congrArg List.length hm'
    rw [List.length_append] at hlen hlen'
    by_cases hcap : bufcap ≤ m.length
    · have hwin := hh.window hcap
      have hwin' := hh'.window hcap
      dsimp only at hlen hlen' hwin hwin'
      omega
    · have hfalse : bulk = false := Bool.eq_false_iff.mpr fun hb => hcap (hh.bulk_iff.mp hb)
      have hb : buffer = m := hh.buffer hfalse
      have hb' : buffer' = m := hh'.buffer (hbulk.symm.trans hfalse)
      rw [hb, hb']
  have happend : done ++ buffer = done' ++ buffer' := hm.symm.trans hm'
  obtain ⟨rfl, rfl⟩ := List.append_inj' happend hbuffer
  dsimp only at hlanes hlanes'
  rw [hlanes, hlanes', hs, htotal, hbulk]

omit hI in
theorem Ahead.trans {iv lanes lanes' : Lanes8 × Word} {buffer buffer' : List Byte}
    (hm : Ahead iv m lanes buffer) (h : Ahead lanes (buffer ++ c) lanes' buffer') :
    Ahead iv (m ++ c) lanes' buffer' := by
  obtain ⟨done, rfl, hdone, rfl⟩ := hm
  obtain ⟨done', hm', hdone', rfl⟩ := h
  refine ⟨done ++ done', ?_, ?_, (absorb_append hdone done' iv).symm⟩
  · rw [List.append_assoc, List.append_assoc, hm']
  · rw [List.length_append]
    exact Nat.dvd_add hdone hdone'

omit hI in
theorem Ahead.refl (lanes : Lanes8 × Word) (rest : List Byte) : Ahead lanes rest lanes rest :=
  ⟨[], rfl, Nat.dvd_zero 64, rfl⟩

/-- **What an update does**: the input stays in the buffer, or some blocks go into the lanes. -/
structure Updated (h : Hasher) (c : List Byte) (h' : Hasher) : Prop where
  seed : h'.seed = h.seed
  total : h'.total = h.total + .ofNat 64 c.length
  ahead : Ahead h.lanes (h.buffer ++ c) h'.lanes h'.buffer
  undecided : h'.bulk = false → h.bulk = false ∧ h.buffer.length + c.length < 448 ∧
    h'.buffer = h.buffer ++ c
  bulk : h'.bulk = true → (h.bulk = true ∨ 448 ≤ h.buffer.length + c.length) ∧
    128 ≤ h'.buffer.length ∧ h'.buffer.length < 192

/-- The guard compares the sum of the lengths, where it does not overflow. -/
theorem buffersOnly_eq (hb : h.bulk = false) (hsum : h.buffer.length + c.length ≤ hi) :
    buffersOnly I h c = pure (decide (h.buffer.length + c.length < 448)) := by
  have hcap : Ports.Stream.bufCap = 448 := rfl
  rw [buffersOnly, if_pos hb, hI.add (by omega) (by omega), pure_bind, hcap]
  exact congrArg pure (decide_eq_decide.mpr (by omega))

omit hI in
theorem buffersOnly_bulk (hb : h.bulk = true) : buffersOnly I h c = pure false := by
  rw [buffersOnly, hb, if_neg (by decide)]

theorem update_updated (h0 : c.length ≠ 0) (hlt : h.bulk = false → h.buffer.length < 448)
    (hwin : h.bulk = true → 128 ≤ h.buffer.length ∧ h.buffer.length < 192) (hmin : 640 ≤ hi)
    (hc : h.bulk = false → h.buffer.length + c.length ≤ hi) (hc' : c.length ≤ hi) :
    Yields (update I h c) (Updated h c) := by
  have hcap : Ports.Stream.bufCap = 448 := rfl
  have hkeep : Ports.Stream.keep = 128 := rfl
  have hahead := Ahead.refl h.lanes (h.buffer ++ c)
  unfold update
  dsimp only
  rw [if_neg h0]
  cases hb : h.bulk with
  | false =>
    have hless := hlt hb
    have hsum := hc hb
    refine .bind_eq (buffersOnly_eq hI hb hsum) ?_
    by_cases hfit : h.buffer.length + c.length < 448
    · rw [if_pos (decide_eq_true hfit)]
      refine .bind_eq (copyAppend_eq hI hsum) ?_
      exact .pure ⟨rfl, rfl, hahead, fun _ => ⟨hb, hfit, rfl⟩, fun hb => (by cases hb)⟩
    · have hneeded : (448 : ℤ) - h.buffer.length = (448 - h.buffer.length : ℕ) := by omega
      have hpre : (h.buffer ++ c.take (448 - h.buffer.length)).length = 448 := by
        rw [List.length_append, List.length_take]
        omega
      have hrest : (c.drop (448 - h.buffer.length)).length = c.length - (448 - h.buffer.length) :=
        List.length_drop
      have hsplit : h.buffer ++ c = h.buffer ++ c.take (448 - h.buffer.length) ++
          c.drop (448 - h.buffer.length) := by
        rw [List.append_assoc, List.take_append_drop]
      have hmore := hahead
      rw [hsplit] at hmore
      rw [if_neg (by rwa [decide_eq_true_iff]), if_pos rfl, hcap]
      refine .bind_eq (hI.sub (by omega) (by omega)) ?_
      rw [hneeded, Int.toNat_natCast, hkeep]
      refine .bind_eq (copyAppend_eq hI (by rw [List.length_take]; omega)) ?_
      refine .bind_eq (hI.sub (by omega) (by omega)) ?_
      refine (absorbBlocks_ahead hI (c := h.buffer ++ c.take (448 - h.buffer.length)) (k := 5)
        (by omega) (by omega) hmore).bind fun l hl => ?_
      refine (feedBulk_ahead hI _ (Nat.lt_succ_self _) hl ?_ ?_ hmin (by omega)).bind fun r hr => ?_
      · rw [List.length_drop, hpre]
      · rw [List.length_drop, hpre]
        omega
      · rw [← hsplit] at hr
        exact .pure ⟨rfl, rfl, hr.1, fun hb => (by cases hb), fun _ => ⟨.inr (by omega), hr.2⟩⟩
  | true =>
    obtain ⟨hlo, hhi⟩ := hwin hb
    refine .bind_eq (buffersOnly_bulk hb) ?_
    rw [if_neg (by decide), if_neg (by decide)]
    refine (feedBulk_ahead hI _ (Nat.lt_succ_self _) hahead hlo hhi hmin hc').bind fun r hr => ?_
    exact .pure ⟨rfl, rfl, hr.1, fun hb => (by cases hb), fun _ => ⟨.inl hb, hr.2⟩⟩

/-- **An update takes all of the input.** -/
theorem update_holds (hh : Holds seed m h) (hc : 640 + c.length ≤ hi) :
    Yields (update I h c) (Holds seed (m ++ c)) := by
  have hlt : h.buffer.length < 448 := hh.machine.lt
  by_cases h0 : c.length = 0
  · rw [update, if_pos h0, List.eq_nil_of_length_eq_zero h0, List.append_nil]
    exact .pure hh
  refine (update_updated hI h0 (fun _ => hlt) (fun hb => hh.window (hh.bulk_iff.mp hb)) (by omega)
    (fun _ => by omega) (by omega)).mono fun h' hu => ?_
  have htotal : h.total = .ofNat 64 m.length := hh.machine.total
  obtain ⟨done, hm, hdone, hlanes⟩ := hh.ahead.trans hu.ahead
  have hfed : Absorber.Feeding seed (m ++ c) (toAbsorber h') [] :=
    ⟨done, by rw [hm, List.append_nil]; rfl, hdone, hlanes⟩
  refine ⟨⟨hfed, hu.seed.trans hh.machine.seed, ?_, ?_, ?_, ?_⟩, fun hb => (hu.bulk hb).2.2⟩
  · rw [List.length_append, BitVec.ofNat_add, ← htotal]
    exact hu.total
  · change h'.buffer.length < 448
    cases hb : h'.bulk with
    | false =>
      rw [(hu.undecided hb).2.2, List.length_append]
      exact (hu.undecided hb).2.1
    | true => exact (hu.bulk hb).2.2.trans (by decide)
  · intro hb
    obtain ⟨hb', -, hbuffer⟩ := hu.undecided hb
    rw [← hh.buffer hb']
    exact hbuffer
  · intro hb
    obtain ⟨hlong, hlo, -⟩ := hu.bulk hb
    refine ⟨?_, hlo⟩
    rw [List.length_append]
    rcases hlong with hb' | hlong
    · exact (hh.bulk_iff.mp hb').trans (Nat.le_add_right _ _)
    · cases hb' : h.bulk with
      | false => rwa [← hh.buffer hb']
      | true => exact (hh.bulk_iff.mp hb').trans (Nat.le_add_right _ _)

/-- **Updates act as concatenation does**: two of them leave the state that one with both leaves. -/
theorem update_append {a b : List Byte} (hh : Holds seed m h) (hab : 640 + (a ++ b).length ≤ hi) :
    ∃ h₁ h₂, update I h a = pure h₁ ∧ update I h₁ b = pure h₂ ∧ update I h (a ++ b) = pure h₂ := by
  rw [List.length_append] at hab
  obtain ⟨h₁, hu₁, hh₁⟩ := update_holds hI (c := a) hh (by omega)
  obtain ⟨h₂, hu₂, hh₂⟩ := update_holds hI (c := b) hh₁ (by omega)
  obtain ⟨h₃, hu₃, hh₃⟩ := update_holds hI (c := a ++ b) hh (by rw [List.length_append]; omega)
  rw [← List.append_assoc] at hh₃
  rw [holds_unique hh₃ hh₂] at hu₃
  exact ⟨h₁, h₂, hu₁, hu₂, hu₃⟩

/-! ### Digests -/

/-- **`finishBulk`** gets to the folds as the machine does. -/
theorem finishBulk_eq (hc : h.buffer.length ≤ hi) (hn : 16 ≤ h.buffer.length) :
    finishBulk I h = pure (Absorber.restLanes (ofList h.buffer) h.buffer.length h.lanes) := by
  have hblocks : (h.buffer.length : ℤ) / 64 * 64 = (64 * (h.buffer.length / 64) : ℕ) := by omega
  have hleft : (h.buffer.length : ℤ) - (64 * (h.buffer.length / 64) : ℕ) =
      (h.buffer.length % 64 : ℕ) := by omega
  have hpos : ((64 * (h.buffer.length / 64) : ℕ) : ℤ) + (32 * (h.buffer.length % 64 / 32) : ℕ) =
      (32 * (h.buffer.length / 32) : ℕ) := by omega
  have hmod : h.buffer.length % 64 % 32 = h.buffer.length % 32 := by omega
  unfold finishBulk Absorber.restLanes
  rw [mixers_eq]
  dsimp only
  rw [hblocks, absorbBlocks_blocks hI hc (by omega), pure_bind, hI.sub (by omega) (by omega),
    pure_bind, hleft, finishLanes_eq hI hc hn (by omega), hpos, hmod]
  rfl

/-- **`digest128`** is the hash of what was absorbed. -/
theorem digest128_eq (hh : Holds seed m h) (hhi : 448 ≤ hi) :
    Ports.Haskell.digest128 I h = pure (compact128 (ofList m) m.length seed) := by
  have hlt : h.buffer.length < 448 := hh.machine.lt
  have hdigest := Absorber.digest128_eq hh.machine
  have hs : h.seed = seed := hh.machine.seed
  unfold Ports.Haskell.digest128
  unfold Absorber.digest128 at hdigest
  cases hb : h.bulk with
  | false => rw [if_pos rfl, hayahash128_eq hI (by omega), hh.buffer hb, hs]
  | true =>
    have hwin := hh.window (hh.bulk_iff.mp hb)
    have hbulk : (toAbsorber h).bulk = true := hb
    rw [hbulk, if_neg (by decide)] at hdigest
    rw [if_neg (by decide), finishBulk_eq hI (by omega) (by omega), pure_bind, ← hdigest]
    rfl

/-- **`digest64`** is the low word of it. -/
theorem digest64_eq (hh : Holds seed m h) (hhi : 448 ≤ hi) :
    Ports.Haskell.digest64 I h = pure (compact64 (ofList m) m.length seed) := by
  have hlt : h.buffer.length < 448 := hh.machine.lt
  have hdigest := Absorber.digest64_eq hh.machine
  have hs : h.seed = seed := hh.machine.seed
  unfold Ports.Haskell.digest64
  unfold Absorber.digest64 Absorber.digest128 at hdigest
  cases hb : h.bulk with
  | false => rw [if_pos rfl, hayahash64_eq hI (by omega), hh.buffer hb, hs]
  | true =>
    have hwin := hh.window (hh.bulk_iff.mp hb)
    have hbulk : (toAbsorber h).bulk = true := hb
    rw [hbulk, if_neg (by decide)] at hdigest
    rw [if_neg (by decide), finishBulk_eq hI (by omega) (by omega), pure_bind, ← hdigest]
    rfl

end Hayahash.Refine.Haskell
