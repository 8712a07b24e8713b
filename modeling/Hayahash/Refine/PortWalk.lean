import Hayahash.Ports.Walk
import Hayahash.Refine.Oneshot
import Hayahash.Spec.Machine

/-! # The walk of the ports is the algorithm

`Reads R m lo n`: through the reader `R`, the indices from `lo` on are the `n` bytes of the key `m`,
and index arithmetic does not overflow there; and its mixers are the header's. Then the walk does
not fault, and computes what the reference does (`hashShort_eq`, `hashLong_eq`, `restLanes_eq`). -/

namespace Hayahash.Refine.PortWalk

open Hayahash.Lib.ReadProg Hayahash.Lib.Bytes Hayahash.Lib.Checked Hayahash.Lib.Walk
open Hayahash.C.Primitives (Word Lanes4 Lanes8 K)
open Hayahash.Spec.Reference Hayahash.Spec.Machine Hayahash.Ports.Walk

/-- **What a reader reads.** -/
structure Reads (R : Reader) (m : Mem Byte) (lo : ℤ) (n : ℕ) : Prop where
  mix : R.mix = .header
  lo_nonneg : 0 ≤ lo
  ints : R.ints.Upto (lo + n)
  load64 : ∀ {i}, lo ≤ i → i + 8 ≤ lo + n → R.load64 i = pure (word64 m (i - lo))
  load32 : ∀ {i}, lo ≤ i → i + 4 ≤ lo + n → R.load32 i = pure ((word32 m (i - lo)).setWidth 64)
  load8 : ∀ {i}, lo ≤ i → i + 1 ≤ lo + n → R.load8 i = pure ((m (i - lo)).setWidth 64)
  fromStart : ∀ {k : ℤ}, 0 ≤ k → k ≤ n → R.fromStart k = pure (lo + k)
  fromEnd : ∀ {k : ℤ}, 0 ≤ k → k ≤ n → R.fromEnd k = pure (lo + n - k)

variable {R : Reader} {m : Mem Byte} {lo : ℤ} {n : ℕ}

/-! ### Stripes -/

theorem stripe_eq (hR : Reads R m lo n) (h wp : Word) {i : ℤ} (h0 : lo ≤ i) (h1 : i + 8 ≤ lo + n) :
    stripe R h wp i = pure (mix h (chain (word64 m (i - lo)) wp), word64 m (i - lo)) := by
  rw [stripe, hR.load64 h0 h1, hR.mix]
  rfl

theorem absorbInj_eq (hR : Reads R m lo n) (h : Word) {i : ℤ} (h0 : lo ≤ i) (h1 : i + 8 ≤ lo + n) :
    absorbInj R h i = pure (mixTail h (word64 m (i - lo))) := by
  rw [absorbInj, injAt, hR.load64 h0 h1, hR.mix]
  rfl

theorem block_eq (hR : Reads R m lo n) {p : ℤ} (h0 : lo ≤ p) (h1 : p + 64 ≤ lo + n)
    (s : Lanes8 × Word) : block R p s = pure (blockStep m (p - lo) s) := by
  have hlo := hR.lo_nonneg
  have hadd : ∀ d : ℤ, 0 ≤ d → d ≤ 56 → R.ints.add p d = pure (p + d) := fun d hd hd' =>
    hR.ints.add (by omega) (by omega)
  simp (disch := omega) only [block, hadd, pure_bind, stripe_eq hR, add_sub_right_comm]
  rfl

theorem round_eq (hR : Reads R m lo n) {p : ℤ} (h0 : lo ≤ p) (h1 : p + 32 ≤ lo + n)
    (s : Lanes4 × Word) : round R p s = pure (roundStep m (p - lo) s) := by
  have hlo := hR.lo_nonneg
  have hadd : ∀ d : ℤ, 0 ≤ d → d ≤ 24 → R.ints.add p d = pure (p + d) := fun d hd hd' =>
    hR.ints.add (by omega) (by omega)
  simp (disch := omega) only [Ports.Walk.round, hadd, pure_bind, stripe_eq hR, add_sub_right_comm]
  rfl

/-! ### Loops -/

theorem bulkLoop_eq (hR : Reads R m lo n) {p : ℤ} {l : ℕ} (h0 : lo ≤ p) (h1 : p + l = lo + n)
    (hl : 64 ≤ l) (s : Lanes8 × Word) :
    doWhileGe R.ints (block R) 64 (l + 1) p l s =
      pure (blocks m (l / 64) (p - lo) s, p + (64 * (l / 64) : ℕ), ((l % 64 : ℕ) : ℤ)) := by
  have hlo := hR.lo_nonneg
  rw [blocks, ← walk_shift]
  exact doWhileGe_eq (d := 64) hR.ints (by omega) (by omega) hl (by omega) h1.le
    fun q s hq hq' => block_eq hR (by omega) (by omega) s

theorem restLoop_eq (hR : Reads R m lo n) {p : ℤ} {l : ℕ} (h0 : lo ≤ p) (h1 : p + l = lo + n)
    (s : Lanes8 × Word) :
    whileGe R.ints (block R) 64 (l + 1) p l s =
      pure (blocks m (l / 64) (p - lo) s, p + (64 * (l / 64) : ℕ), ((l % 64 : ℕ) : ℤ)) := by
  have hlo := hR.lo_nonneg
  rw [blocks, ← walk_shift]
  exact whileGe_eq (d := 64) hR.ints (by omega) (by omega) (by omega) h1.le
    fun q s hq hq' => block_eq hR (by omega) (by omega) s

theorem midLoop_eq (hR : Reads R m lo n) {p : ℤ} {l fuel : ℕ} (h0 : lo ≤ p) (h1 : p + l = lo + n)
    (hfuel : l < fuel) (s : Lanes4 × Word) :
    whileGe R.ints (round R) 32 fuel p l s =
      pure (rounds m (l / 32) (p - lo) s, p + (32 * (l / 32) : ℕ), ((l % 32 : ℕ) : ℤ)) := by
  have hlo := hR.lo_nonneg
  rw [rounds, ← walk_shift]
  exact whileGe_eq (d := 32) hR.ints (by omega) hfuel (by omega) h1.le
    fun q s hq hq' => round_eq hR (by omega) (by omega) s

/-! ### Tail -/

/-- What a tail does: the reference's tail, at the end of a key of more than 16 bytes. -/
def TailOf (m : Mem Byte) (lo : ℤ) (n : ℕ) (tail : ℤ → ℤ → Lanes4 → Chk Lanes4) : Prop :=
  ∀ (p : ℤ) (l : ℕ) (h : Lanes4), lo ≤ p → p + l = lo + n →
    tail p l h = pure (tailStep m (p - lo) l h)

theorem tailFromLength_eq (hR : Reads R m lo n) (hn : 16 ≤ n) :
    TailOf m lo n (tailFromLength R) := by
  intro p l h h0 h1
  have hlo := hR.lo_nonneg
  have h16 : lo + n - 16 - lo = p - lo + l - 16 := by omega
  have h8 : lo + n - 8 - lo = p - lo + l - 8 := by omega
  have hnext : p + 8 - lo = p - lo + 8 := by omega
  unfold tailFromLength tailStep headStep lastStep
  by_cases hgt : (l : ℤ) > 16
  · have hleft : (l : ℤ) - 16 > 0 := by omega
    have hpos : (l : ℤ) > 0 := by omega
    simp (disch := omega) only [hgt, hleft, hpos, if_true, absorbInj_eq hR, hR.ints.add,
      hR.ints.sub, hR.fromEnd, pure_bind, h16, h8, hnext]
  · simp only [hgt, if_false, pure_bind]
    by_cases hpos : (l : ℤ) > 0
    · simp (disch := omega) only [hpos, if_true, absorbInj_eq hR, hR.fromEnd, pure_bind, h16, h8]
    · simp only [hpos, if_false]

theorem tailFromCursor_eq (hR : Reads R m lo n) (hn : 16 ≤ n) :
    TailOf m lo n (tailFromCursor R) := by
  intro p l h h0 h1
  have hlo := hR.lo_nonneg
  have h16 : p + l - 16 - lo = p - lo + l - 16 := by omega
  have h8 : p + l - 8 - lo = p - lo + l - 8 := by omega
  have hnext : p + 8 - lo = p - lo + 8 := by omega
  have hmoved : p + 16 + (l - 16) = p + l := by omega
  unfold tailFromCursor tailStep headStep lastStep
  by_cases hgt : (l : ℤ) > 16
  · have hleft : (l : ℤ) - 16 > 0 := by omega
    have hpos : (l : ℤ) > 0 := by omega
    simp (disch := omega) only [hgt, hleft, hpos, if_true, absorbInj_eq hR, hR.ints.add,
      hR.ints.sub, pure_bind, h16, h8, hnext, hmoved]
  · simp only [hgt, if_false, pure_bind]
    by_cases hpos : (l : ℤ) > 0
    · simp (disch := omega) only [hpos, if_true, absorbInj_eq hR, hR.ints.add, hR.ints.sub,
        pure_bind, h16, h8]
    · simp only [hpos, if_false]

/-! ### A key of at most 16 bytes -/

theorem shortWords_eq (hR : Reads R m lo n) :
    shortWords R lo n = pure (shortA m n, shortB m n) := by
  have hlo := hR.lo_nonneg
  have hback : ∀ k : ℤ, lo + n - k - lo = n - k := fun k => by omega
  have hmid : lo + (n : ℤ) / 2 - lo = n / 2 := by omega
  unfold shortWords shortA shortB
  by_cases h8 : 8 ≤ n
  · rw [if_pos (by omega), if_pos h8, if_pos h8]
    simp (disch := omega) only [hR.load64, hR.fromEnd, pure_bind, sub_self, hback]
  rw [if_neg (by omega), if_neg h8, if_neg h8]
  by_cases h4 : 4 ≤ n
  · rw [if_pos (by omega), if_pos h4, if_pos h4]
    simp (disch := omega) only [hR.load32, hR.fromEnd, pure_bind, sub_self, hback]
  rw [if_neg (by omega), if_neg h4, if_neg h4]
  by_cases h0 : 0 < n
  · rw [if_pos (by omega), if_pos h0, if_pos h0]
    simp (disch := omega) only [hR.load8, hR.fromStart, hR.fromEnd, pure_bind, sub_self,
      hback, hmid]
  · rw [if_neg (by omega), if_neg h0, if_neg h0]

theorem shortProducts_eq (hR : Reads R m lo n) (s : Word) :
    shortProducts R lo n s = pure (shortX (shortA m n) s, shortY (shortB m n) s) := by
  rw [shortProducts, shortWords_eq hR, hR.mix]
  rfl

theorem hashShort_eq (hR : Reads R m lo n) (hn : n ≤ 16) (seed : Word) :
    hashShort R lo n (seed ^^^ K) = pure (compact64 m n seed) := by
  rw [hashShort, shortProducts_eq hR, hR.mix, compact64, if_pos hn]
  rfl

theorem compact128_lo (m : Mem Byte) (n : ℕ) (seed : Word) :
    (compact128 m n seed).lo = compact64 m n seed := (rfl)

theorem hash128Short_eq (hR : Reads R m lo n) (hn : n ≤ 16) (seed : Word) :
    hash128Short R lo n (seed ^^^ K) = pure (compact128 m n seed) := by
  rw [hash128Short, shortProducts_eq hR, hR.mix, compact128, compact64, compactHi, if_pos hn,
    if_pos hn]
  rfl

/-! ### A longer key -/

theorem longLanes_eq (hR : Reads R m lo n) {tail : ℤ → ℤ → Lanes4 → Chk Lanes4}
    (htail : TailOf m lo n tail) (s : Word) :
    longLanes R tail lo n s = pure (foldLanes m n s) := by
  have hmin : Mixers.header.bulkMin = 320 := rfl
  unfold longLanes foldLanes walkState
  dsimp only
  rw [Int.toNat_natCast, hR.mix, hmin]
  by_cases hbulk : n < 320
  · rw [if_neg (by omega), pure_bind, if_pos hbulk]
    dsimp only
    rw [midLoop_eq hR le_rfl rfl (by omega), pure_bind]
    dsimp only
    rw [htail _ _ _ (by omega) (by omega), sub_self, add_sub_cancel_left]
    rfl
  · have hpos : lo + (64 * (n / 64) : ℕ) + (32 * (n % 64 / 32) : ℕ) = lo + (32 * (n / 32) : ℕ) := by
      omega
    have hmod : n % 64 % 32 = n % 32 := by omega
    rw [if_pos (by omega), if_neg hbulk, bulkLoop_eq hR le_rfl rfl (by omega), pure_bind, pure_bind]
    dsimp only
    rw [midLoop_eq hR (by omega) (by omega) (by omega), pure_bind]
    dsimp only
    rw [htail _ _ _ (by omega) (by omega), hpos, hmod, sub_self, add_sub_cancel_left,
      add_sub_cancel_left]
    rfl

theorem hashLong_eq (hR : Reads R m lo n) {tail : ℤ → ℤ → Lanes4 → Chk Lanes4}
    (htail : TailOf m lo n tail) (hn : 16 < n) (seed : Word) :
    hashLong R tail lo n (seed ^^^ K) = pure (compact64 m n seed) := by
  rw [hashLong, longLanes_eq hR htail, hR.mix, compact64, if_neg (by omega)]
  rfl

theorem hash128Long_eq (hR : Reads R m lo n) {tail : ℤ → ℤ → Lanes4 → Chk Lanes4}
    (htail : TailOf m lo n tail) (hn : 16 < n) (seed : Word) :
    hash128Long R tail lo n (seed ^^^ K) = pure (compact128 m n seed) := by
  rw [hash128Long, longLanes_eq hR htail, hR.mix, compact128, compact64, compactHi,
    if_neg (by omega), if_neg (by omega)]
  rfl

theorem hashImpl_eq (hR : Reads R m lo n) {tail : ℤ → ℤ → Lanes4 → Chk Lanes4}
    (htail : 16 ≤ n → TailOf m lo n tail) (seed : Word) :
    hashImpl R tail lo n (seed ^^^ K) = pure (compact64 m n seed) := by
  unfold hashImpl
  by_cases hn : n ≤ 16
  · rw [if_pos (by omega), hashShort_eq hR hn]
  · rw [if_neg (by omega), hashLong_eq hR (htail (by omega)) (by omega)]

theorem hash128Impl_eq (hR : Reads R m lo n) {tail : ℤ → ℤ → Lanes4 → Chk Lanes4}
    (htail : 16 ≤ n → TailOf m lo n tail) (seed : Word) :
    hash128Impl R tail lo n (seed ^^^ K) = pure (compact128 m n seed) := by
  unfold hash128Impl
  by_cases hn : n ≤ 16
  · rw [if_pos (by omega), hash128Short_eq hR hn]
  · rw [if_neg (by omega), hash128Long_eq hR (htail (by omega)) (by omega)]

/-! ### What is buffered -/

theorem restTail_eq (hR : Reads R m 0 n) (hn : 16 ≤ n) {p l : ℕ} (hpl : p + l = n) (h : Lanes4) :
    restTail R n p l h = pure (tailStep m p l h) := by
  have h16 : (n : ℤ) - 16 = p + l - 16 := by omega
  have h8 : (n : ℤ) - 8 = p + l - 8 := by omega
  unfold restTail tailStep headStep lastStep
  by_cases hgt : (l : ℤ) > 16
  · have hpos : (l : ℤ) > 0 := by omega
    simp (disch := omega) only [hgt, hpos, if_true, absorbInj_eq hR, hR.ints.add, hR.ints.sub,
      pure_bind, sub_zero, h16, h8]
  · simp only [hgt, if_false, pure_bind]
    by_cases hpos : (l : ℤ) > 0
    · simp (disch := omega) only [hpos, if_true, absorbInj_eq hR, hR.ints.sub, pure_bind, sub_zero,
        h16, h8]
    · simp only [hpos, if_false]

theorem restRound_eq (hR : Reads R m 0 n) {I : Ints} (hI : I.Upto n) (hn : 16 ≤ n)
    (s : Lanes8 × Word) : restRound R I n (64 * (n / 64) : ℕ) (n % 64 : ℕ) s =
      pure (tailStep m (32 * (n / 32) : ℕ) (n % 32 : ℕ) (wallStep
        (rounds m (n % 64 / 32) (64 * (n / 64) : ℕ) (C.Walk.foldUpper s.1, s.2)))) := by
  unfold restRound
  rw [hR.mix]
  dsimp only
  by_cases hround : 32 ≤ n % 64
  · have hone : n % 64 / 32 = 1 := by omega
    have hpos : ((64 * (n / 64) : ℕ) : ℤ) + 32 = (32 * (n / 32) : ℕ) := by omega
    have hleft : ((n % 64 : ℕ) : ℤ) - 32 = (n % 32 : ℕ) := by omega
    rw [if_pos (by omega), round_eq hR (by omega) (by omega), pure_bind,
      hR.ints.add (by omega) (by omega), pure_bind, hI.sub (by omega) (by omega), pure_bind,
      pure_bind, hpos, hleft, sub_zero, hone]
    dsimp only
    rw [restTail_eq hR hn (by omega)]
    rfl
  · have hzero : n % 64 / 32 = 0 := by omega
    have hpos : 64 * (n / 64) = 32 * (n / 32) := by omega
    have hleft : n % 64 = n % 32 := by omega
    rw [if_neg (by omega), pure_bind, hzero]
    dsimp only
    rw [hpos, hleft, restTail_eq hR hn (by omega)]
    rfl

theorem restLanes_eq (hR : Reads R m 0 n) (hn : 16 ≤ n) (s : Lanes8 × Word) :
    restLanes R n s = pure (Absorber.restLanes m n s) := by
  rw [restLanes, Int.toNat_natCast, restLoop_eq hR le_rfl rfl, pure_bind]
  dsimp only
  rw [zero_add, sub_zero, restRound_eq hR (hR.ints.mono (by omega)) hn]
  rfl

/-! ### Lanes in an array -/

/-- A lane by its number. -/
def lane (h : Lanes8) : Fin 8 → Word
  | 0 => h.h0 | 1 => h.h1 | 2 => h.h2 | 3 => h.h3 | 4 => h.h4 | 5 => h.h5 | 6 => h.h6 | 7 => h.h7

/-- The lanes with a lane replaced. -/
def setLane (h : Lanes8) (x : Word) : Fin 8 → Lanes8
  | 0 => { h with h0 := x } | 1 => { h with h1 := x } | 2 => { h with h2 := x }
  | 3 => { h with h3 := x } | 4 => { h with h4 := x } | 5 => { h with h5 := x }
  | 6 => { h with h6 := x } | 7 => { h with h7 := x }

theorem lanesArray_get (h : Lanes8) (i : Fin 8) (hi : i.val < 8) :
    (lanesArray h)[i] = lane h i := by
  fin_cases i <;> rfl

theorem lanesArray_set (h : Lanes8) (x : Word) (i : Fin 8) (hi : i.val < 8) :
    (lanesArray h).set i x = lanesArray (setLane h x i) := by
  fin_cases i <;> rfl

/-- The lanes of a machine, in an array. -/
def arrayed (s : Lanes8 × Word) : Vector Word 8 × Word := (lanesArray s.1, s.2)

/-- The stripe `w` enters a lane. -/
def enter (i : Fin 8) (w : Word) (s : Lanes8 × Word) : Lanes8 × Word :=
  (setLane s.1 (mix (lane s.1 i) (chain w s.2)) i, w)

theorem laneStep_eq (hR : Reads R m lo n) {p : ℤ} (h0 : lo ≤ p) (i : Fin 8)
    (h1 : p + i * 8 + 8 ≤ lo + n) (s : Lanes8 × Word) :
    laneStep R p (arrayed s) i = pure (arrayed (enter i (word64 m (p - lo + i * 8)) s)) := by
  have hlo := hR.lo_nonneg
  unfold laneStep arrayed
  rw [hR.ints.add (by omega) (by omega), pure_bind, stripe_eq hR _ _ (by omega) (by omega),
    pure_bind, add_sub_right_comm]
  dsimp only
  rw [lanesArray_get, lanesArray_set]
  rfl

/-- Stripes from `q` on enter the lanes `is`. -/
def enters (m : Mem Byte) (q : ℤ) (is : List (Fin 8)) (s : Lanes8 × Word) : Lanes8 × Word :=
  is.foldl (fun s i => enter i (word64 m (q + i * 8)) s) s

theorem lanesLoop_eq (hR : Reads R m lo n) {p : ℤ} (h0 : lo ≤ p) :
    ∀ (is : List (Fin 8)) (s : Lanes8 × Word), (∀ i ∈ is, p + i.val * 8 + 8 ≤ lo + n) →
    is.foldlM (laneStep R p) (arrayed s) = pure (arrayed (enters m (p - lo) is s)) := by
  intro is
  induction is with
  | nil => intro s _; rfl
  | cons i is ih =>
    intro s h
    rw [List.foldlM_cons, laneStep_eq hR h0 i (h i List.mem_cons_self), pure_bind,
      ih _ fun j hj => h j (List.mem_cons_of_mem i hj)]
    rfl

theorem word_lane (m : Mem Byte) (q : ℤ) (i : Fin 8) (k : ℤ) (h : i.val * 8 = k) :
    word64 m (q + i.val * 8) = word64 m (q + k) := by rw [h]

theorem word_lane_zero (m : Mem Byte) (q : ℤ) :
    word64 m (q + (0 : Fin 8).val * 8) = word64 m q := by simp

theorem blockStep_enters (m : Mem Byte) (q : ℤ) (s : Lanes8 × Word) :
    blockStep m q s =
      let r := enters m q [0, 1, 2, 3, 4, 5, 6, 7] s
      ({ r.1 with h0 := r.1.h0 + r.2 }, r.2) := by
  -- the lanes as variables, so that every replaced lane is computed once
  obtain ⟨⟨h0, h1, h2, h3, h4, h5, h6, h7⟩, wp⟩ := s
  simp only [enters, List.foldl_cons, List.foldl_nil]
  rw [word_lane_zero, word_lane m q 1 8 rfl, word_lane m q 2 16 rfl, word_lane m q 3 24 rfl,
    word_lane m q 4 32 rfl, word_lane m q 5 40 rfl, word_lane m q 6 48 rfl, word_lane m q 7 56 rfl]
  simp only [enter, lane, setLane, blockStep]

theorem blockLoop_eq (hR : Reads R m lo n) {p : ℤ} (h0 : lo ≤ p) (h1 : p + 64 ≤ lo + n)
    (s : Lanes8 × Word) : blockLoop R p (arrayed s) = pure (arrayed (blockStep m (p - lo) s)) := by
  rw [blockLoop, lanesLoop_eq hR h0 _ _ fun i _ => by omega, blockStep_enters]
  rfl

/-- The lanes with the lower four replaced. -/
def withLower (h : Lanes8) (l : Lanes4) : Lanes8 :=
  { h with h0 := l.h0, h1 := l.h1, h2 := l.h2, h3 := l.h3 }

theorem roundStep_enters (m : Mem Byte) (q : ℤ) (h : Lanes8) (s : Lanes4 × Word) :
    enters m q [0, 1, 2, 3] (withLower h s.1, s.2) =
      (withLower h (roundStep m q s).1, (roundStep m q s).2) := by
  obtain ⟨u0, u1, u2, u3, h4, h5, h6, h7⟩ := h
  obtain ⟨⟨h0, h1, h2, h3⟩, wp⟩ := s
  simp only [enters, List.foldl_cons, List.foldl_nil]
  rw [word_lane_zero, word_lane m q 1 8 rfl, word_lane m q 2 16 rfl, word_lane m q 3 24 rfl,
    withLower]
  simp only [enter, lane, setLane, withLower, roundStep]

theorem roundLoop_eq (hR : Reads R m lo n) {p : ℤ} (h0 : lo ≤ p) (h1 : p + 32 ≤ lo + n)
    (h : Lanes8) (s : Lanes4 × Word) : roundLoop R p (arrayed (withLower h s.1, s.2)) =
      pure (arrayed (withLower h (roundStep m (p - lo) s).1, (roundStep m (p - lo) s).2)) := by
  rw [roundLoop, lanesLoop_eq hR h0 _ _ fun i hi => ?_, roundStep_enters]
  have hi4 : i.val < 4 := by
    fin_cases hi <;> decide
  omega

theorem foldArray_eq (h : Lanes8) : foldArray .header (lanesArray h) =
    lanesArray (withLower h (C.Walk.foldUpper h)) := by
  obtain ⟨h0, h1, h2, h3, h4, h5, h6, h7⟩ := h
  rfl

/-! The lower lanes of an array, one by one. -/

section Lower
variable (h : Lanes8) (l : Lanes4) (x : Word)

theorem get_zero (_ : 0 < 8) : (lanesArray (withLower h l))[0] = l.h0 := (rfl)
theorem get_one (_ : 1 < 8) : (lanesArray (withLower h l))[1] = l.h1 := (rfl)
theorem get_two (_ : 2 < 8) : (lanesArray (withLower h l))[2] = l.h2 := (rfl)
theorem get_three (_ : 3 < 8) : (lanesArray (withLower h l))[3] = l.h3 := (rfl)

theorem set_zero (_ : 0 < 8) : (lanesArray (withLower h l)).set 0 x =
    lanesArray (withLower h { l with h0 := x }) := (rfl)

theorem set_one (_ : 1 < 8) : (lanesArray (withLower h l)).set 1 x =
    lanesArray (withLower h { l with h1 := x }) := (rfl)

theorem set_two (_ : 2 < 8) : (lanesArray (withLower h l)).set 2 x =
    lanesArray (withLower h { l with h2 := x }) := (rfl)

theorem set_three (_ : 3 < 8) : (lanesArray (withLower h l)).set 3 x =
    lanesArray (withLower h { l with h3 := x }) := (rfl)

theorem lowerLanes_eq : lowerLanes (lanesArray (withLower h l)) = l := (rfl)

end Lower

theorem restTailLoop_eq (hR : Reads R m 0 n) (hn : 16 ≤ n) {p l : ℕ} (hpl : p + l = n) (h : Lanes8)
    (s : Lanes4) : restTailLoop R n p l (lanesArray (withLower h s)) =
      pure (lanesArray (withLower h (tailStep m p l s))) := by
  have h16 : (n : ℤ) - 16 = p + l - 16 := by omega
  have h8 : (n : ℤ) - 8 = p + l - 8 := by omega
  unfold restTailLoop tailStep headStep lastStep
  by_cases hgt : (l : ℤ) > 16
  · have hpos : (l : ℤ) > 0 := by omega
    simp (disch := omega) only [hgt, hpos, if_true, absorbInj_eq hR, hR.ints.add, hR.ints.sub,
      pure_bind, sub_zero, h16, h8, get_zero, get_one, get_two, get_three,
      set_zero, set_one, set_two, set_three]
  · simp only [hgt, if_false, pure_bind]
    by_cases hpos : (l : ℤ) > 0
    · simp (disch := omega) only [hpos, if_true, absorbInj_eq hR, hR.ints.sub, pure_bind, sub_zero,
        h16, h8, get_two, get_three, set_two, set_three]
    · simp only [hpos, if_false]

theorem arrayLoop_eq (hR : Reads R m 0 n) (s : Lanes8 × Word) :
    whileGe R.ints (blockLoop R) 64 (n + 1) 0 n (arrayed s) =
      pure (arrayed (blocks m (n / 64) 0 s), ((64 * (n / 64) : ℕ) : ℤ), ((n % 64 : ℕ) : ℤ)) := by
  have hstep : StepYields (blockLoop R) (blockStep m) (fun v x => v = arrayed x) 0 (0 + n) 64 := by
    rintro p v x h0 h1 rfl
    have hblock := blockLoop_eq hR h0 (by omega) x
    rw [sub_zero] at hblock
    exact .of_eq hblock rfl
  obtain ⟨r, hr, hwalk, hpos⟩ := whileGe_yields hR.ints (by omega) (n + 1) (by omega) le_rfl le_rfl
    hstep rfl
  rw [Nat.cast_ofNat] at hr
  rw [hr, ← Prod.eta r, hwalk, hpos]
  push_cast
  rw [zero_add]
  rfl

/-- **The same walk, with the lanes in an array.** -/
theorem restLanesLoop_eq (hR : Reads R m 0 n) (hn : 16 ≤ n) (s : Lanes8 × Word) :
    restLanesLoop R n (arrayed s) = pure (Absorber.restLanes m n s) := by
  unfold restLanesLoop Absorber.restLanes
  rw [Int.toNat_natCast, arrayLoop_eq hR, pure_bind]
  dsimp only [arrayed]
  rw [hR.mix, foldArray_eq]
  by_cases hround : 32 ≤ n % 64
  · have hone : n % 64 / 32 = 1 := by omega
    have hpos : ((64 * (n / 64) : ℕ) : ℤ) + 32 = (32 * (n / 32) : ℕ) := by omega
    have hleft : ((n % 64 : ℕ) : ℤ) - 32 = (n % 32 : ℕ) := by omega
    have hstep := roundLoop_eq hR (p := (64 * (n / 64) : ℕ)) (by omega) (by omega)
      (blocks m (n / 64) 0 s).1
      (C.Walk.foldUpper (blocks m (n / 64) 0 s).1, (blocks m (n / 64) 0 s).2)
    unfold arrayed at hstep
    rw [if_pos (by omega), hstep, pure_bind,
      hR.ints.add (by omega) (by omega), pure_bind, hR.ints.sub (by omega) (by omega), pure_bind,
      pure_bind, hpos, hleft, sub_zero, hone]
    dsimp only
    rw [get_zero, set_zero, restTailLoop_eq hR hn (by omega), pure_bind, lowerLanes_eq]
    rfl
  · have hzero : n % 64 / 32 = 0 := by omega
    have hpos : 64 * (n / 64) = 32 * (n / 32) := by omega
    have hleft : n % 64 = n % 32 := by omega
    rw [if_neg (by omega), pure_bind, hzero]
    dsimp only
    rw [hpos, hleft, get_zero, set_zero, restTailLoop_eq hR hn (by omega), pure_bind, lowerLanes_eq]
    rfl

end Hayahash.Refine.PortWalk
