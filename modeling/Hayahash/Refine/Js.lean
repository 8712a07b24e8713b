import Hayahash.Ports.Js
import Hayahash.Refine.Session

/-! # The pure JavaScript engine does what the machine does

On integers that are words (`val`) every function of the engine does what the walk of the ports does
on the words, faults included (`hashPureImpl_big`): no mask is missing, on any input. What the walk
computes is known. -/

namespace Hayahash.Refine.Js

open Hayahash.Lib.ReadProg Hayahash.Lib.Bytes Hayahash.Lib.Checked Hayahash.Lib.Arrays
open Hayahash.Lib.Bigint
open Hayahash.Spec.Reference Hayahash.Spec.Machine Hayahash.Ports.Walk Hayahash.Ports.Stream
open Hayahash.Ports.Session Hayahash.Refine.PortWalk
open Hayahash.Refine.PortStream Hayahash.Refine.Session
open Hayahash.C.Primitives (Word Lanes4 Lanes8)
open Hayahash.C.Walk (Hash128)
open Hayahash.C.Stream (bufcap)

/-! ### Words, lanes and digests as the engine has them -/

def big4 (h : Lanes4) : Ports.Js.Big4 := ⟨val h.h0, val h.h1, val h.h2, val h.h3⟩

def big8 (h : Lanes8) : Ports.Js.Big8 :=
  ⟨val h.h0, val h.h1, val h.h2, val h.h3, val h.h4, val h.h5, val h.h6, val h.h7⟩

/-- Two words. -/
def big2 (x : Word × Word) : ℤ × ℤ := (val x.1, val x.2)

/-- Four lanes and the last stripe. -/
def bigRound (s : Lanes4 × Word) : Ports.Js.Big4 × ℤ := (big4 s.1, val s.2)

/-- Eight lanes and the last stripe. -/
def bigBlock (s : Lanes8 × Word) : Ports.Js.Big8 × ℤ := (big8 s.1, val s.2)

/-- Both words of a digest, or the low one and zero. -/
def big128 (wide : Bool) (x : Hash128) : Ports.Js.Big128 := ⟨val x.lo, if wide then val x.hi else 0⟩

/-- The loads of the engine, on words, and the mixers that it has on them (`fmix_big`, `inj_big`,
`iv8_big` and so on). The last index is past the byte `n - 1`. -/
def reader (v : View) (n : ℤ) : Reader where
  mix := .header
  ints := .exact
  load64 := v.read64
  load32 i := do return (← v.read32 i).setWidth 64
  load8 i := do return (← v.get i).setWidth 64
  fromStart := pure
  fromEnd k := pure (n - k)

/-! ### Mixers -/

@[simp] theorem K_big : Ports.Js.K = val C.Primitives.K := (rfl)
@[simp] theorem M1_big : Ports.Js.M1 = val C.Primitives.M1 := (rfl)
@[simp] theorem M2_big : Ports.Js.M2 = val C.Primitives.M2 := (rfl)
@[simp] theorem N1_big : Ports.Js.N1 = val C.Primitives.N1 := (rfl)
@[simp] theorem N2_big : Ports.Js.N2 = val C.Primitives.N2 := (rfl)

@[simp] theorem kShl_big (n : ℕ) : Ports.Js.kShl n = val (C.Primitives.K <<< n) := by
  rw [Ports.Js.kShl, K_big, mask_shl]

@[simp] theorem kShr_big (n : ℕ) : Ports.Js.kShr n = val (C.Primitives.K >>> n) := by
  rw [Ports.Js.kShr, K_big, val_shr]

theorem rotl_big (x : Word) {n : ℕ} (h0 : 0 < n) (hn : n < 64) :
    Ports.Js.rotl (val x) n = pure (val (C.Primitives.rotl x n)) := by
  rw [Ports.Js.rotl, mask_shl, shr_val, pure_bind, bor_val, C.Primitives.rotl,
    Nat.mod_eq_of_lt (a := 64 - n) (by omega)]

theorem xorshift_big (x : Word) (n : ℕ) :
    Ports.Js.xorshift (val x) n = pure (val (x ^^^ (x >>> n))) := by
  rw [Ports.Js.xorshift, shr_val, pure_bind, bxor_val]

theorem fmix_big (x : Word) : Ports.Js.fmix (val x) = pure (val (C.Primitives.fmix x)) := by
  simp only [Ports.Js.fmix, xorshift_big, pure_bind, M1_big, M2_big, mask_mul, C.Primitives.fmix]

theorem fmix128_big (x : Word) :
    Ports.Js.fmix128 (val x) = pure (val (C.Primitives.fmix128 x)) := by
  simp only [Ports.Js.fmix128, xorshift_big, pure_bind, N1_big, N2_big, mask_mul,
    C.Primitives.fmix128]

theorem fmixLong_big (x : Word) :
    Ports.Js.fmixLong (val x) = pure (val (C.Primitives.longFmix x C.Primitives.K)) := by
  simp only [Ports.Js.fmixLong, xorshift_big, pure_bind, K_big, mask_mul, C.Primitives.longFmix]

theorem inj_big (w : Word) : Ports.Js.inj (val w) = pure (val (C.Primitives.inj w)) := by
  rw [Ports.Js.inj, rotl_big w (by decide) (by decide), rotl_big w (by decide) (by decide),
    pure_bind, bxor_val, pure_bind, pure_bind, bxor_val, C.Primitives.inj]

theorem inj2_big (w : Word) : Ports.Js.inj2 (val w) = pure (val (C.Primitives.inj2 w)) := by
  rw [Ports.Js.inj2, rotl_big w (by decide) (by decide), rotl_big w (by decide) (by decide),
    pure_bind, bxor_val, pure_bind, pure_bind, bxor_val, C.Primitives.inj2]

/-! ### Loads and stripes -/

section Walk
variable (v : View) (n : ℤ)

theorem reader_mix : (reader v n).mix = .header := rfl
theorem exact_add (a b : ℤ) : (reader v n).ints.add a b = pure (a + b) := rfl
theorem exact_sub (a b : ℤ) : (reader v n).ints.sub a b = pure (a - b) := rfl

theorem load64_big (i : ℤ) : Ports.Js.load64 v i = val <$> (reader v n).load64 i := by
  rw [map_eq_pure_bind]
  rfl

theorem load32_big (i : ℤ) : Ports.Js.load32 v i = val <$> (reader v n).load32 i := by
  simp only [Ports.Js.load32, reader, map_bind, map_pure]

theorem injp_big (i : ℤ) : Ports.Js.injp v i = val <$> injAt (reader v n) i := by
  simp only [Ports.Js.injp, injAt, load64_big v n, bind_map_left, inj_big, map_bind, map_pure,
    reader_mix, Mixers.header]

theorem stripe_big (h wp : Word) (i : ℤ) :
    Ports.Js.stripe v (val h) (val wp) i = big2 <$> stripe (reader v n) h wp i := by
  simp only [Ports.Js.stripe, stripe, load64_big v n, bind_map_left,
    rotl_big wp (n := 27) (by decide) (by decide), pure_bind, mask_add, bxor_val, K_big, mask_mul,
    map_bind, map_pure, big2, reader_mix, Mixers.header]

theorem absorbInj_big (h : Word) (i : ℤ) :
    Ports.Js.absorbInj v (val h) i = val <$> absorbInj (reader v n) h i := by
  simp only [Ports.Js.absorbInj, absorbInj, injp_big v n, bind_map_left, K_big,
    mask_add_mul, map_bind, map_pure, reader_mix, Mixers.header]

theorem block_big (p : ℤ) (s : Lanes8 × Word) :
    Ports.Js.block v p (bigBlock s) = bigBlock <$> block (reader v n) p s := by
  simp only [Ports.Js.block, bigBlock, big8, block, stripe_big v n, bind_map_left, big2, exact_add,
    pure_bind, mask_add, map_bind, map_pure]

theorem round_big (p : ℤ) (s : Lanes4 × Word) :
    Ports.Js.round v p (bigRound s) = bigRound <$> round (reader v n) p s := by
  simp only [Ports.Js.round, bigRound, big4, Ports.Walk.round, stripe_big v n, bind_map_left, big2,
    exact_add, pure_bind, map_bind, map_pure]

end Walk

/-! ### Initial lanes, folds, wall and tail -/

theorem iv4_big (s : Word) : Ports.Js.iv4 (val s) = pure (big4 (C.Walk.iv4 s)) := by
  simp (disch := decide) only [Ports.Js.iv4, rotl_big, pure_bind, K_big, kShl_big,
    kShr_big, mask_add, bxor_val, big4, C.Walk.iv4]

theorem iv8_big (s : Word) : Ports.Js.iv8 (val s) = pure (big8 (C.Walk.iv8 s)) := by
  simp (disch := decide) only [Ports.Js.iv8, iv4_big, rotl_big, pure_bind, kShl_big,
    kShr_big, mask_add, bxor_val, big4, big8, C.Walk.iv4, C.Walk.iv8]

theorem foldLane_big (h u : Word) {n : ℕ} (h0 : 0 < n) (hn : n < 64) :
    Ports.Js.foldLane (val h) (val u) n =
      pure (val ((h ^^^ C.Primitives.rotl u n) * C.Primitives.K)) := by
  simp only [Ports.Js.foldLane, rotl_big u h0 hn, pure_bind, bxor_val, K_big, mask_mul]

theorem foldUpper_big (h : Lanes8) :
    Ports.Js.foldUpper (big8 h) = pure (big4 (foldUpper .header h)) := by
  simp (disch := decide) only [Ports.Js.foldUpper, big8, foldLane_big, pure_bind, big4, foldUpper,
    Mixers.header]

theorem wall_big (s : Lanes4 × Word) :
    Ports.Js.wall (bigRound s) = pure (big4 (wall .header s)) := by
  simp (disch := decide) only [Ports.Js.wall, bigRound, rotl_big, pure_bind, big4, mask_add, wall,
    Mixers.header]

theorem tail_big (v : View) (n p l : ℤ) (h : Lanes4) :
    Ports.Js.tail v p l (big4 h) = big4 <$> tailFromCursor (reader v n) p l h := by
  unfold Ports.Js.tail tailFromCursor
  by_cases hgt : l > 16
  · simp only [hgt, if_true, big4, absorbInj_big v n, bind_map_left, exact_add, exact_sub,
      pure_bind, map_bind]
    split_ifs <;> simp only [map_bind, map_pure, big4]
  · simp only [hgt, if_false, big4, absorbInj_big v n, bind_map_left, exact_add, exact_sub,
      pure_bind]
    split_ifs <;> simp only [map_bind, map_pure, big4]

theorem restTail_big (v : View) (n p l : ℤ) (h : Lanes4) :
    Ports.Js.restTail v n p l (big4 h) = big4 <$> restTail (reader v n) n p l h := by
  unfold Ports.Js.restTail restTail
  by_cases hgt : l > 16
  · simp only [hgt, if_true, big4, absorbInj_big v n, bind_map_left, exact_add, exact_sub,
      pure_bind, map_bind]
    split_ifs <;> simp only [map_bind, map_pure, big4]
  · simp only [hgt, if_false, big4, absorbInj_big v n, bind_map_left, exact_add, exact_sub,
      pure_bind]
    split_ifs <;> simp only [map_bind, map_pure, big4]

theorem terms_big (h : Lanes4) (m : Word) :
    Ports.Js.terms (big4 h) (val m) = pure (big2 (foldT0 .header h m, foldT1 .header h)) := by
  simp (disch := decide) only [Ports.Js.terms, big4, rotl_big, pure_bind, bxor_val, K_big,
    mask_mul, big2, foldT0, foldT1, Mixers.header]

theorem low_big (s : Word) (h : Lanes4) (m : Word) :
    Ports.Js.low (val s) (big2 (foldT0 .header h m, foldT1 .header h)) =
      pure (val (foldLow .header s h m)) := by
  simp (disch := decide) only [Ports.Js.low, big2, rotl_big, pure_bind, bxor_val,
    fmixLong_big, foldLow, Mixers.header]

theorem high_big (s : Word) (h : Lanes4) (m : Word) :
    Ports.Js.high (val s) (big2 (foldT0 .header h m, foldT1 .header h)) =
      pure (val (foldHigh .header s h m)) := by
  simp (disch := decide) only [Ports.Js.high, big2, rotl_big, pure_bind, mask_add, bxor_val,
    fmix128_big, foldHigh, Mixers.header]

/-! ### One-shot -/

theorem shortWords_big (v : View) (l : ℤ) :
    Ports.Js.shortWords v l = big2 <$> shortWords (reader v l) 0 l := by
  unfold Ports.Js.shortWords shortWords
  have hstart : ∀ k, (reader v l).fromStart k = pure k := fun _ => rfl
  have hend : ∀ k, (reader v l).fromEnd k = pure (l - k) := fun _ => rfl
  split_ifs
  · simp only [load64_big v l, bind_map_left, hend, pure_bind, map_bind, map_pure, big2]
  · simp only [load32_big v l, bind_map_left, hend, pure_bind, map_bind, map_pure, big2]
  · -- the bytes are shifted as bytes
    simp (disch := decide) only [Ports.Js.load8, reader, val_shl_byte, bor_val, bind_assoc,
      pure_bind, map_bind, map_pure, big2]
  · rfl

theorem lenmix_big (l : ℤ) : mask (l * Ports.Js.K) = val (lenmix .header l) := by
  rw [K_big, mask_eq, BitVec.ofInt_mul, ofInt_val, lenmix]
  rfl

theorem hashShort_big (v : View) (s : Word) (wide : Bool) :
    Ports.Js.hashShort v (val s) (val (lenmix .header v.len)) wide =
      big128 wide <$> hash128Short (reader v v.len) 0 v.len s := by
  unfold Ports.Js.hashShort hash128Short shortProducts
  rw [shortWords_big, reader_mix]
  generalize lenmix .header v.len = m
  cases wide <;>
  simp (disch := decide) only [bind_map_left, big2, inj_big, inj2_big, rotl_big, K_big,
    M1_big, kShr_big, bxor_val, mask_mul, mask_add, fmix_big, fmix128_big, pure_bind, bind_assoc,
    map_bind, map_pure, big128,
    if_true, if_false, Bool.false_eq_true, Mixers.header]

theorem afterBulk_big (v : View) (n p l : ℤ) (fuel : ℕ) (s : Lanes4 × Word) :
    (do
      let (h, p, l) ← whileGe .exact (Ports.Js.round v) 32 fuel p l (bigRound s)
      Ports.Js.tail v p l (← Ports.Js.wall h)) =
    big4 <$> (do
      let (h, p, l) ← whileGe .exact (round (reader v n)) 32 fuel p l s
      tailFromCursor (reader v n) p l (wall .header h)) := by
  have hround := whileGe_map (I := .exact) (d := 32) (round_big v n)
  simp only [hround, bind_map_left, Prod.map, id, wall_big, pure_bind, tail_big v n, map_bind]

theorem startBlock_big (s : Word) : (big8 (C.Walk.iv8 s), (0 : ℤ)) = bigBlock (C.Walk.iv8 s, 0) :=
  (rfl)

theorem startRound_big (s : Word) :
    (big4 (C.Walk.iv4 s), (0 : ℤ)) = bigRound (lower (C.Walk.iv8 s), 0) := (rfl)

theorem longLanes_big (v : View) (s : Word) : Ports.Js.longLanes v (val s) =
    big4 <$> longLanes (reader v v.len) (tailFromCursor (reader v v.len)) 0 v.len s := by
  have hblock := doWhileGe_map (I := .exact) (d := 64) (block_big v v.len)
  have hints : (reader v v.len).ints = .exact := rfl
  have hiv : Mixers.header.iv s = C.Walk.iv8 s := rfl
  have hmin : Mixers.header.bulkMin = C.Primitives.bulkMin := rfl
  have hfold : ∀ x : Lanes8 × Word, (big4 (foldUpper .header x.1), val x.2) =
      bigRound (foldUpper .header x.1, x.2) := fun _ => rfl
  unfold Ports.Js.longLanes longLanes
  rw [iv4_big, pure_bind, hints, reader_mix, hiv, hmin]
  by_cases hbulk : v.len ≥ C.Primitives.bulkMin
  · simp only [hbulk, if_true, iv8_big, pure_bind, startBlock_big, hblock, bind_map_left,
      Prod.map, id, map_bind]
    refine bind_congr fun r => ?_
    simp only [bigBlock, foldUpper_big, pure_bind, hfold, afterBulk_big v v.len, map_bind]
  · simp only [hbulk, if_false, pure_bind, startRound_big]
    exact afterBulk_big v v.len 0 v.len _ _

theorem hashLong_big (v : View) (s : Word) (wide : Bool) :
    Ports.Js.hashLong v (val s) (val (lenmix .header v.len)) wide = big128 wide <$>
      hash128Long (reader v v.len) (tailFromCursor (reader v v.len)) 0 v.len s := by
  unfold Ports.Js.hashLong hash128Long
  rw [longLanes_big]
  cases wide <;>
  simp only [bind_map_left, terms_big, low_big, high_big, pure_bind, map_bind, map_pure,
    big128, if_true, if_false, Bool.false_eq_true, reader_mix]

/-- **The engine is the walk of the ports**, on every array and every seed that is a word. -/
theorem hashPureImpl_big (v : View) (seed : Word) (wide : Bool) :
    Ports.Js.hashPureImpl v (val seed) wide = big128 wide <$>
      hash128Impl (reader v v.len) (tailFromCursor (reader v v.len)) 0 v.len
        (seed ^^^ C.Primitives.K) := by
  unfold Ports.Js.hashPureImpl hash128Impl
  rw [lenmix_big, K_big, bxor_val, pure_bind]
  split_ifs
  · exact hashShort_big v _ wide
  · exact hashLong_big v _ wide

variable {v : View} {c : List Byte} {hi : ℕ}

theorem reads (h : Shows hi v c) : Reads (reader v v.len) (ofList c) 0 c.length :=
  reads_of_all h (Ints.exact_upto _) (fun _ _ => rfl) (fun _ _ => rfl) (fun _ _ => rfl)
    (fun _ => rfl) (fun _ _ => rfl) rfl

/-- **The engine hashes the bytes in view.** -/
theorem hashPureImpl_eq (h : Shows hi v c) (seed : Word) (wide : Bool) :
    Ports.Js.hashPureImpl v (val seed) wide =
      pure (big128 wide (compact128 (ofList c) c.length seed)) := by
  have hR := reads h
  rw [h.len] at hR
  rw [hashPureImpl_big, h.len, hash128Impl_eq hR (fun hn => tailFromCursor_eq hR hn), map_pure]

theorem hashPure_eq (h : Shows hi v c) (seed : Word) :
    Ports.Js.hashPure v (val seed) = pure (val (compact64 (ofList c) c.length seed)) := by
  rw [Ports.Js.hashPure, hashPureImpl_eq h, pure_bind, big128, compact128_lo]

theorem hash128Pure_eq (h : Shows hi v c) (seed : Word) :
    Ports.Js.hash128Pure v (val seed) =
      pure (big128 true (compact128 (ofList c) c.length seed)) :=
  hashPureImpl_eq h seed true

/-! ### Uint8Array -/

theorem clampIndex_eq {i len : ℤ} (h0 : 0 ≤ i) (h : i ≤ len) : Ports.Js.clampIndex i len = i := by
  rw [Ports.Js.clampIndex, if_neg (by omega), min_eq_left h]

theorem subarray_eq {first last : ℤ} (h0 : 0 ≤ first) (h : first ≤ last) (h1 : last ≤ v.len) :
    Ports.Js.subarray v first last = ⟨v.data, v.off + first, last - first⟩ := by
  rw [Ports.Js.subarray, clampIndex_eq h0 (by omega), clampIndex_eq (by omega) h1,
    max_eq_left (by omega)]

theorem subarray_shows (h : Shows hi v c) {a b : ℕ} (hab : a ≤ b) (hb : b ≤ c.length) :
    Shows hi (Ports.Js.subarray v a b) ((c.drop a).take (b - a)) := by
  have hlen := h.len
  rw [subarray_eq (by omega) (by omega) (by omega)]
  exact (h.part hab hb).get (View.part_eq (by omega) (by omega) (by omega))

theorem copyWithin_eq {a : List Byte} {src len : ℕ} (h : src + len ≤ a.length) :
    Ports.Js.copyWithin a 0 src (src + len : ℕ) = spliced a 0 ((a.drop src).take len) := by
  have hcount : min (((src + len : ℕ) : ℤ) - src) (a.length - 0) = len := by omega
  unfold Ports.Js.copyWithin
  dsimp only
  rw [clampIndex_eq le_rfl (by omega), clampIndex_eq (by omega) (by omega),
    clampIndex_eq (by omega) (by omega), hcount]
  by_cases hlen : 0 < len
  · rw [if_pos (by omega), Int.toNat_zero, Int.toNat_natCast, Int.toNat_natCast]
  · obtain rfl : len = 0 := by omega
    rw [if_neg (by omega), List.take_zero, spliced_zero, List.nil_append, List.length_nil,
      List.drop_zero]

/-! ### PureHasher -/

theorem reads_front {post : List Byte} (h : Shows hi v (c ++ post)) :
    Reads (reader v c.length) (ofList c) 0 c.length := by
  have hshows : Shows hi v ([] ++ (c ++ post)) := h
  refine reads_of_shows hshows (Ints.exact_upto _) (fun _ _ => rfl) (fun _ _ => rfl)
    (fun _ _ => rfl) ?_ ?_ rfl
  · intro k _ _
    rw [List.length_nil, Nat.cast_zero, zero_add]
    rfl
  · intro k _ _
    rw [List.length_nil, Nat.cast_zero, zero_add]
    rfl

theorem takesBlocks {post : List Byte} (h : Shows hi v (c ++ post)) :
    TakesBlocks (Ports.Js.block v) bigBlock 0 c := by
  intro p s h0 h1
  rw [block_big v c.length, block_eq (reads_front h) h0 h1, map_pure]

/-- **What `update` is made of does what it should**, for arrays of any length. -/
theorem lawful (hhi : bufcap ≤ hi) : Lawful Ports.Js.PureHasher.port bigBlock val hi where
  cap := hhi
  ints := Ints.exact_upto _
  addTotal x n := by
    simp only [Ports.Js.PureHasher.port, mask_eq, BitVec.ofInt_add, ofInt_val, BitVec.ofInt_natCast]
  fits b n _ _ := by
    have htest : (b + n : ℤ) < bufCap ↔ b + n < bufcap := by
      unfold bufCap bufcap
      omega
    simp only [Ports.Js.PureHasher.port, htest]
  blocks {v} k s hv hfits hk := by
    have hshows : Shows hi v v.bytes := ⟨hv, hfits, rfl⟩
    have hlen := hshows.len
    have hblocks := length_blocks (c := v.bytes) (k := k) (by omega)
    have hsplit : Shows hi v (v.bytes.take (64 * k) ++ v.bytes.drop (64 * k)) := by
      rwa [List.take_append_drop]
    have hfuel : k < 64 * k + 1 := by omega
    have hloop :=
      untilLt_absorb bigBlock (Ints.exact_upto _) le_rfl (takesBlocks hsplit) hblocks hfuel s
    rw [hblocks] at hloop
    exact hloop
  skip {v} k hv hfits hk := by
    have hoff := hv.off
    simp only [Ports.Js.PureHasher.port]
    rw [subarray_eq (by omega) (by omega) le_rfl]
    rfl
  copyIn {buf v} b k hbuf hv hfits hk hfit := by
    have hshows : Shows hi v v.bytes := ⟨hv, hfits, rfl⟩
    have hlen := hshows.len
    have hpart := (subarray_shows hshows (Nat.zero_le k) (by omega)).bytes
    rw [List.drop_zero, Nat.sub_zero, Nat.cast_zero] at hpart
    simp only [Ports.Js.PureHasher.port, hpart]
    exact blit_eq (by rw [List.length_take]; omega)
  moveDown {buf} src len hbuf hfit := by
    simp only [Ports.Js.PureHasher.port]
    rw [← Nat.cast_add, copyWithin_eq (by omega)]

/-- A hasher that stands for the machine. -/
abbrev StandsBig (st : Ports.Js.PureHasher) (a : Absorber) : Prop := Stands bigBlock val st a

variable {st : Ports.Js.PureHasher} {a : Absorber} {seed : Word} {xs : List Byte}

theorem init_stands (seed : Word) {buf : List Byte} (hbuf : buf.length = bufcap) :
    Yields (Ports.Js.PureHasher.init (val seed) buf) (StandsBig · (.init seed)) := by
  rw [Ports.Js.PureHasher.init, K_big, bxor_val, pure_bind, iv8_big, pure_bind]
  exact .pure (fresh_stands bigBlock val seed hbuf)

theorem held_eq (h : StandsBig st a) (htotal : a.total = .ofNat 64 a.held.length)
    (hlt : a.held.length < bufcap) : Shows bufcap (Ports.Js.PureHasher.held st) a.held := by
  have hnat : val (.ofNat 64 a.held.length) = a.held.length := by
    unfold bufcap at hlt
    rw [val, BitVec.toNat_ofNat, Nat.mod_eq_of_lt (by omega)]
  have hcap := h.cap
  have hpart := (shows_held h)
  rw [Ports.Js.PureHasher.held, h.total, htotal, hnat,
    subarray_eq le_rfl (by omega) (by simp only [View.all]; omega)]
  simp only [View.all, add_zero, sub_zero]
  exact hpart

/-- **The walk that ends with the buffer.** -/
theorem rest_eq (h : StandsBig st a) (hkeep : C.Stream.keep ≤ a.held.length) :
    Ports.Js.PureHasher.rest st =
      pure (big4 (Absorber.restLanes (ofList a.held) a.held.length a.lanes)) := by
  have hwhole := h.whole
  rw [List.nil_append] at hwhole
  have hR := reads_front hwhole
  have hloop := whileGe_map (I := .exact) (d := 64) (block_big (.all st.buf) a.held.length)
  have hfold : ∀ x : Lanes8 × Word, (big4 (foldUpper .header x.1), val x.2) =
      bigRound (foldUpper .header x.1, x.2) := fun _ => rfl
  have hlanes := restLanes_eq hR (by unfold C.Stream.keep at hkeep; omega) a.lanes
  have hmap : Ports.Js.PureHasher.rest st =
      big4 <$> restLanes (reader (.all st.buf) a.held.length) a.held.length a.lanes := by
    unfold Ports.Js.PureHasher.rest restLanes restRound
    dsimp only
    rw [h.lanes, h.nbuf, hloop, bind_map_left, map_bind, reader_mix]
    refine bind_congr fun r => ?_
    simp only [Prod.map, id, bigBlock, foldUpper_big, pure_bind, hfold]
    split_ifs
    · simp only [round_big _ (a.held.length : ℤ), bind_map_left, wall_big, pure_bind, restTail_big,
        exact_add, exact_sub, map_bind]
    · simp only [wall_big, pure_bind, restTail_big]
  rw [hmap, hlanes, map_pure]

theorem tail_eq (h : StandsBig st a) (hkeep : C.Stream.keep ≤ a.held.length) :
    Ports.Js.PureHasher.tail st =
      let u := Absorber.restLanes (ofList a.held) a.held.length a.lanes
      pure (big2 (foldT0 .header u (a.total * C.Primitives.K), foldT1 .header u),
        val (a.seed ^^^ C.Primitives.K)) := by
  rw [Ports.Js.PureHasher.tail, h.seed, h.total, K_big, mask_mul, bxor_val, pure_bind,
    rest_eq h hkeep, pure_bind, terms_big, pure_bind]

/-- **`digest64`** is the hash of what the machine was fed. -/
theorem digest64_eq (h : StandsBig st a) (hold : Absorber.Holds seed xs a) :
    Ports.Js.PureHasher.digest64 st = pure (val (compact64 (ofList xs) xs.length seed)) := by
  have hdigest := Absorber.digest64_eq hold
  unfold Ports.Js.PureHasher.digest64
  unfold Absorber.digest64 Absorber.digest128 at hdigest
  cases hb : a.bulk with
  | false =>
    have hheld := hold.undecided hb
    have hshows := held_eq h (by rw [hold.total, hheld]) hold.lt
    rw [if_pos (h.bulk.trans hb), h.seed, hashPure_eq hshows, hheld, hold.seed]
  | true =>
    rw [if_neg (by rw [hb]; decide)] at hdigest
    rw [if_neg (by rw [h.bulk, hb]; decide), tail_eq h (hold.bulk hb).2, pure_bind]
    dsimp only
    rw [low_big, ← hdigest]
    rfl

/-- **`digest128`** is the hash of what the machine was fed. -/
theorem digest128_eq (h : StandsBig st a) (hold : Absorber.Holds seed xs a) :
    Ports.Js.PureHasher.digest128 st =
      pure (big128 true (compact128 (ofList xs) xs.length seed)) := by
  have hdigest := Absorber.digest128_eq hold
  unfold Ports.Js.PureHasher.digest128
  unfold Absorber.digest128 at hdigest
  cases hb : a.bulk with
  | false =>
    have hheld := hold.undecided hb
    have hshows := held_eq h (by rw [hold.total, hheld]) hold.lt
    rw [if_pos (h.bulk.trans hb), h.seed, hash128Pure_eq hshows, hheld, hold.seed]
  | true =>
    rw [if_neg (by rw [hb]; decide)] at hdigest
    rw [if_neg (by rw [h.bulk, hb]; decide), tail_eq h (hold.bulk hb).2, pure_bind]
    dsimp only
    rw [low_big, pure_bind, high_big, pure_bind, ← hdigest]
    rfl

/-- **`PureHasher` is faithful**: nothing faults, for arrays of any length. -/
theorem faithful : Faithful Ports.Js.PureHasher.hasher Ports.Js.PureHasher.meaning View.Valid
    fun x a => Yields x (StandsBig · a) where
  new seed := by
    have hbuf : (List.replicate 448 (0 : Byte)).length = bufcap := List.length_replicate
    have hinit := init_stands (.ofInt 64 seed) hbuf
    rw [← mask_eq] at hinit
    exact hinit
  update {x a v bs} hx hlt hv hbs := by
    obtain ⟨st, rfl, hst⟩ := hx
    obtain rfl := Option.some.inj hbs
    have hshows : Shows (max bufcap v.data.length) v v.bytes := ⟨hv, le_max_right _ _, rfl⟩
    refine (update_stands (lawful (le_max_left _ _)) hst hlt hshows).bind fun st' hst' => ?_
    exact .pure ⟨.pure hst', rfl⟩
  reject _ _ hbs := by cases hbs
  digest64 {x a seed xs} hx hold := by
    obtain ⟨st, rfl, hst⟩ := hx
    simp only [Ports.Js.PureHasher.hasher, pure_bind, digest64_eq hst hold]
    rfl
  digest128 {x a seed xs} hx hold := by
    obtain ⟨st, rfl, hst⟩ := hx
    simp only [Ports.Js.PureHasher.hasher, pure_bind, digest128_eq hst hold]
    rfl
  reset {x a} r hx := by
    obtain ⟨st, rfl, hst⟩ := hx
    cases r with
    | none =>
      have hinit := init_stands a.seed hst.cap
      rw [← hst.seed] at hinit
      exact hinit
    | some seed =>
      have hinit := init_stands (.ofInt 64 seed) hst.cap
      rw [← mask_eq] at hinit
      exact hinit

end Hayahash.Refine.Js
