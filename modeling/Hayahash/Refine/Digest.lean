import Hayahash.Refine.Oneshot
import Hayahash.Refine.Update

/-! # The digests are the one-shot values

A digest reads only the buffer. In the undecided phase that is the whole input, and the digest is
the one-shot function. In the bulk phase it is the end of the input, and what the digest does with
it is the end of the walk of the whole input: the blocks before it are in the lanes. -/

namespace Hayahash.Refine.Digest

open Hayahash.Lib.ReadProg Hayahash.Lib.Bytes Hayahash.C.Primitives Hayahash.C.Walk
open Hayahash.C.Oneshot Hayahash.C.Stream Hayahash.Spec.Reference Hayahash.Spec.Stripes
open Hayahash.Spec.Shift Hayahash.Spec.Spans Hayahash.Spec.Stream Hayahash.Refine.Loops
open Hayahash.Refine.Ends Hayahash.Refine.Oneshot Hayahash.Refine.Update

variable (t : Target) {m : Mem Byte} {seed : Word} {xs : List Byte} {st : State}

/-! ### The walk over the buffer -/

/-- The lanes and the last word of `st` after the complete blocks of the buffer. -/
def bufBlocks (m : Mem Byte) (st : State) : Lanes8 × Word :=
  Spec.Reference.blocks m (st.nbuf.toNat / 64) 0 (st.h, st.wp)

/-- The lanes and the last word before the wall. -/
def bufWalk (m : Mem Byte) (st : State) : Lanes4 × Word :=
  rounds m (st.nbuf.toNat % 64 / 32) (64 * (st.nbuf.toNat / 64) : ℕ)
    (foldUpper (bufBlocks m st).1, (bufBlocks m st).2)

/-- The lanes where the folds begin. -/
def bufLanes (m : Mem Byte) (st : State) : Lanes4 :=
  tailStep m (32 * (st.nbuf.toNat / 32) : ℕ) (st.nbuf.toNat % 32 : ℕ) (wallStep (bufWalk m st))

/-- The ranges a digest of a bulk state loads. -/
def bufSpans (l : ℕ) : List Span :=
  stripeSpans (4 * (l / 32)) 0 ++ tailSpans (32 * (l / 32) : ℕ) (l % 32 : ℕ)

/-- What a digest of a bulk state absorbs. -/
def bufEvents (m : Mem Byte) (st : State) : List Event :=
  stripeEvents m (8 * (st.nbuf.toNat / 64)) 0 st.wp ++
    (stripeEvents m (4 * (st.nbuf.toNat % 64 / 32)) (64 * (st.nbuf.toNat / 64) : ℕ)
        (bufBlocks m st).2 ++
      .absorb [] (rotl (bufWalk m st).2 27) ::
        tailEvents m (32 * (st.nbuf.toNat / 32) : ℕ) (st.nbuf.toNat % 32 : ℕ))

theorem runs_digestWalk (m : Mem Byte) (st : State) :
    Runs m (digestWalk t st) (bufLanes m st) (bufSpans st.nbuf.toNat) (bufEvents m st) := by
  have hblocks := (blocksRun_whileBlocks (m := m) (blockRuns_bulkBlock t) st.nbuf.toNat 0
    (st.h, st.wp)).from_start
  have hround := (roundsRun_midIf (m := m) t (64 * (st.nbuf.toNat / 64) : ℕ) (st.nbuf.toNat % 64)
    (by omega) (foldUpper (bufBlocks m st).1, (bufBlocks m st).2)).after_blocks
  have hspan : bufSpans st.nbuf.toNat = stripeSpans (8 * (st.nbuf.toNat / 64)) 0 ++
      (stripeSpans (4 * (st.nbuf.toNat % 64 / 32)) (64 * (st.nbuf.toNat / 64) : ℕ) ++
        tailSpans (32 * (st.nbuf.toNat / 32) : ℕ) (st.nbuf.toNat % 32 : ℕ)) := by
    rw [bufSpans, stripeSpans_split, List.append_assoc]
  have hclose := (Runs.of_exec (exec_wall (m := m) (bufWalk m st))).bind
    (f := tail t (32 * (st.nbuf.toNat / 32) : ℕ) (st.nbuf.toNat % 32 : ℕ))
    (.of_exec (exec_tail t _ _ _))
  exact hblocks.bind_eq (hround.bind hclose) hspan rfl

/-! ### The bulk phase -/

theorem bufBlocks_eq (h : Bulk xs st) :
    bufBlocks (bufMem st.buf) st = bulkState (ofList xs) xs.length (st.seed ^^^ K) := by
  have hge := h.ge
  have hlt := h.nbuf_lt
  have hal := h.aligned
  have hsame : Same (bufMem st.buf) 0 (ofList xs) (64 * ((xs.length - st.nbuf.toNat) / 64) : ℕ)
      (64 * (st.nbuf.toNat / 64 : ℕ)) := by
    intro i h0 hi
    have hpos : xs.length - st.nbuf.toNat = 64 * ((xs.length - st.nbuf.toNat) / 64) := by omega
    have hbyte := h.buf i h0 (by omega)
    rwa [hpos] at hbyte
  rw [bufBlocks, lanes_blocks h.lanes hsame, bulkState]
  congr 1
  omega

theorem bufWalk_eq (h : Bulk xs st) :
    bufWalk (bufMem st.buf) st = walkState (ofList xs) xs.length (st.seed ^^^ K) := by
  have hge := h.ge
  have hlt := h.nbuf_lt
  have hal := h.aligned
  unfold bufcap at hge hlt
  have hmod : st.nbuf.toNat % 64 = xs.length % 64 := by omega
  have hpos : ((xs.length - st.nbuf.toNat : ℕ) : ℤ) + (64 * (st.nbuf.toNat / 64) : ℕ) =
      (64 * (xs.length / 64) : ℕ) := by omega
  rw [bufWalk, walkState, if_neg (by omega), bufBlocks_eq h, hmod]
  refine rounds_same (fun i h0 hi => ?_) _
  have hbyte := h.buf ((64 * (st.nbuf.toNat / 64) : ℕ) + i) (by omega) (by omega)
  rwa [zero_add, ← add_assoc, hpos] at hbyte

theorem bufLanes_eq (h : Bulk xs st) :
    bufLanes (bufMem st.buf) st = foldLanes (ofList xs) xs.length (st.seed ^^^ K) := by
  have hge := h.ge
  have hkeep := h.keep_le
  have hlt := h.nbuf_lt
  have hal := h.aligned
  unfold bufcap at hge hlt
  unfold keep at hkeep
  have hmod : st.nbuf.toNat % 32 = xs.length % 32 := by omega
  rw [bufLanes, foldLanes, bufWalk_eq h, hmod]
  refine tailStep_same (fun i h0 hi => ?_) (by omega) _
  have hpos : ((xs.length - st.nbuf.toNat : ℕ) : ℤ) +
      ((32 * (st.nbuf.toNat / 32) : ℕ) + (xs.length % 32 : ℕ) - 32 + i) =
        (32 * (xs.length / 32) : ℕ) + (xs.length % 32 : ℕ) - 32 + i := by omega
  -- the tail reads back at most 32 bytes from the end, and the buffer holds 128
  have hbyte := h.buf ((32 * (st.nbuf.toNat / 32) : ℕ) + (xs.length % 32 : ℕ) - 32 + i) (by omega)
    (by omega)
  rwa [zero_add, hpos] at hbyte

/-- The counter gives the length its due in the folds, whatever its wrapping. -/
theorem total_mul_K (h : Represents seed xs st) : st.total * K = lenmix xs.length := by
  rw [h.total, lenmix, BitVec.ofInt_natCast]

theorem runs_bulk {α : Type} {fin : Lanes4 → Code α} {v : Lanes4 → α}
    (hfin : FinRuns (bufMem st.buf) fin v) (h : Bulk xs st) :
    Runs (bufMem st.buf) (digestWalk t st >>= fin)
      (v (foldLanes (ofList xs) xs.length (st.seed ^^^ K))) (bufSpans st.nbuf.toNat)
      (bufEvents (bufMem st.buf) st ++
        [.fold (foldLanes (ofList xs) xs.length (st.seed ^^^ K))]) := by
  have hwalk := runs_digestWalk t (bufMem st.buf) st
  rw [bufLanes_eq h] at hwalk
  exact hwalk.bind_eq (.of_exec (hfin _)) (List.append_nil _).symm rfl

/-! ### The undecided phase -/

theorem totalLen_eq (h : Represents seed xs st) (hlt : xs.length < bufcap) :
    totalLen t st = xs.length := by
  unfold bufcap at hlt
  have h32 : 2 ^ 32 ≤ 2 ^ t.sizeBits := Nat.pow_le_pow_right (by omega) (sizeBits_ge t)
  have hnat : ((BitVec.ofNat 64 xs.length).setWidth t.sizeBits).toNat = xs.length := by
    rw [BitVec.toNat_setWidth, BitVec.toNat_ofNat, Nat.mod_eq_of_lt (by omega),
      Nat.mod_eq_of_lt (by omega)]
  rw [totalLen, h.total, BitVec.toInt_eq_toNat_of_lt (by omega), hnat]

theorem runs_undecided {α : Type} {x : Code α} {a : α} {ns : List Event}
    (hx : Runs (ofList xs) x a (spans xs.length) ns) (h : Undecided xs st) :
    Runs (bufMem st.buf) x a (spans xs.length) ns := by
  refine hx.congr fun r hr i hi => ?_
  obtain ⟨hlow, hhigh⟩ := spans_within hr
  obtain ⟨hi0, hi1⟩ := hi
  have hnbuf := h.nbuf
  have hbyte := h.buf i (by omega) (by omega)
  simpa using hbyte

/-! ### The digests -/

/-- **`hayahash64_digest` is `hayahash64` of the input.** -/
theorem value_digest64 (h : Represents seed xs st) :
    value (bufMem st.buf) (hayahash64Digest t st) =
      some (compact64 (ofList xs) xs.length seed) := by
  unfold hayahash64Digest
  rcases h.phase with hu | hb
  · rw [if_pos hu.bulk, totalLen_eq t h hu.lt, h.seed]
    exact (runs_undecided (runs_hayahash64 t _ _ _) hu).value_eq
  · have hge := hb.ge
    unfold bufcap at hge
    rw [if_neg (by simp [hb.bulk]), total_mul_K h, compact64, if_neg (by omega), ← h.seed]
    exact (runs_bulk t (finRuns_finish64 _ _) hb).value_eq

/-- **`hayahash128_digest` is `hayahash128` of the input.** -/
theorem value_digest128 (h : Represents seed xs st) :
    value (bufMem st.buf) (hayahash128Digest t st) =
      some (compact128 (ofList xs) xs.length seed) := by
  unfold hayahash128Digest
  rcases h.phase with hu | hb
  · rw [if_pos hu.bulk, totalLen_eq t h hu.lt, h.seed]
    exact (runs_undecided (runs_hayahash128 t _ _ _) hu).value_eq
  · have hge := hb.ge
    unfold bufcap at hge
    rw [if_neg (by simp [hb.bulk]), total_mul_K h, compact128, compact64, compactHi,
      if_neg (by omega), if_neg (by omega), ← h.seed]
    exact (runs_bulk t (finRuns_finish128 _ _) hb).value_eq

end Hayahash.Refine.Digest
