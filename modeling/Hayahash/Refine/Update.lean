import Hayahash.Refine.Loops
import Hayahash.Spec.Machine
import Hayahash.Spec.Stream
import Hayahash.Spec.Spans

/-! # Updates keep what the state stands for

`Feeding`: of a stream of `L` bytes, the last `n` are still at `p` in the caller's memory, and the
state holds the others. Each part of the loop keeps it and does only safe operations; the loop ends
with nothing left, so the state then holds the whole stream. -/

namespace Hayahash.Refine.Update

open Hayahash.Lib.ReadProg Hayahash.Lib.Bytes Hayahash.Lib.Triple
open Hayahash.C.Primitives Hayahash.C.Walk Hayahash.C.Stream
open Hayahash.Spec.Reference Hayahash.Spec.Shift Hayahash.Spec.Spans Hayahash.Spec.Stream
open Hayahash.Spec.Stripes Hayahash.Spec.Machine Hayahash.Refine.Loops

variable (t : Target) {m : Mem Byte} {N : ℕ}

/-! ### The buffer -/

theorem bufMem_nat (buf : Vector Byte bufcap) {i : ℕ} (hi : i < bufcap) :
    bufMem buf i = buf[i] := by
  rw [bufMem, ofList_nat, List.getD_eq_getElem _ _ (by simpa using hi), Vector.getElem_toList]

theorem bufMem_overwrite_in (buf : Vector Byte bufcap) (dst : ℕ) {len i : ℕ} (xs : Fin len → Byte)
    (hb : dst + len ≤ bufcap) (hi : i < len) :
    bufMem (overwrite buf dst len xs) (dst + i : ℕ) = xs ⟨i, hi⟩ := by
  rw [bufMem_nat _ (by omega)]
  simp [overwrite, hi]

theorem bufMem_overwrite_lt (buf : Vector Byte bufcap) {dst len i : ℕ} (xs : Fin len → Byte)
    (hb : dst ≤ bufcap) (hi : i < dst) : bufMem (overwrite buf dst len xs) i = bufMem buf i := by
  rw [bufMem_nat _ (by omega), bufMem_nat _ (by omega)]
  simp [overwrite, show ¬dst ≤ i by omega]

/-- What is copied behind the buffered bytes continues them. -/
theorem same_append {buf : Vector Byte bufcap} {S : Mem Byte} {c p : ℤ} {b l : ℕ}
    (hbuf : Same (bufMem buf) 0 S c b) (hm : Same m p S (c + b) l) (hb : b + l ≤ bufcap) :
    Same (bufMem (overwrite buf b l (m.read ⟨p, l⟩))) 0 S c (b + l : ℕ) := by
  intro i h0 hi
  obtain ⟨i, rfl⟩ := Int.eq_ofNat_of_zero_le h0
  rw [zero_add]
  by_cases hib : i < b
  · rw [bufMem_overwrite_lt _ _ (by omega) hib, ← hbuf i h0 (by omega), zero_add]
  · obtain ⟨j, rfl⟩ : ∃ j, i = b + j := ⟨i - b, by omega⟩
    have hpos : c + b + (j : ℤ) = c + (b + j : ℕ) := by
      push_cast
      omega
    have hbyte := hm j (by omega) (by omega)
    rw [bufMem_overwrite_in _ _ _ hb (by omega : j < l)]
    rwa [hpos] at hbyte

theorem same_move {buf : Vector Byte bufcap} {S : Mem Byte} {c : ℤ} (src len : ℕ)
    (hbuf : Same (bufMem buf) 0 S c (src + len : ℕ)) (hb : src + len ≤ bufcap) :
    Same (bufMem (overwrite buf 0 len fun i => bufMem buf (src + i))) 0 S (c + src) len := by
  intro i h0 hi
  obtain ⟨i, rfl⟩ := Int.eq_ofNat_of_zero_le h0
  have hmoved := bufMem_overwrite_in buf 0 (fun i : Fin len => bufMem buf (src + i)) (by omega)
    (by omega : i < len)
  rw [Nat.zero_add] at hmoved
  rw [zero_add, hmoved, ← zero_add ((src : ℤ) + _), hbuf _ (by omega) (by push_cast; omega),
    add_assoc]

/-! ### Operations -/

theorem sizeBits_ge : 32 ≤ t.sizeBits := by
  unfold Target.sizeBits
  cases t.sizeWidth <;> simp

/-- A buffer and an object fit in `size_t`. -/
theorem bufcap_add_lt {n : ℕ} (hn : n ≤ t.ptrdiffMax) : bufcap + n < 2 ^ t.sizeBits := by
  unfold Target.ptrdiffMax Target.sizeBits at hn
  unfold bufcap Target.sizeBits
  cases hw : t.sizeWidth <;> simp [hw] at hn ⊢ <;> omega

/-- What fits in the buffer fits in a `uint32_t`. -/
theorem mod_of_le_bufcap {n : ℕ} (hn : n ≤ bufcap) : n % 2 ^ 32 = n :=
  Nat.mod_eq_of_lt (by unfold bufcap at hn; omega)

theorem toNat_of_le_bufcap {n : ℕ} (hn : n ≤ bufcap) : (BitVec.ofNat 32 n).toNat = n :=
  (BitVec.toNat_ofNat n 32).trans (mod_of_le_bufcap hn)

/-- The judgement of this module. -/
abbrev Safely {α : Type} (m : Mem Byte) (N : ℕ) (x : Upd α) (Q : α → Prop) : Prop :=
  Ensures m (fun r => r.Within 0 N) OpSafe x Q

theorem addW_safe {w a b : ℕ} (h : a + b < 2 ^ w) : Safely m N (addW w a b) (· = a + b) := by
  refine .observe_bind h (.pure ?_)
  exact Nat.mod_eq_of_lt h

theorem subW_safe {w a b : ℕ} (h : b ≤ a) (ha : a < 2 ^ w) :
    Safely m N (subW w a b) (· = a - b) := by
  refine .observe_bind ⟨h, ha⟩ (.pure ?_)
  have hlt : ((a : ℤ) - b) < 2 ^ w := by
    have : (a : ℤ) < 2 ^ w := by exact_mod_cast ha
    omega
  rw [Int.emod_eq_of_lt (by omega) hlt]
  omega

theorem memcpy_safe {buf : Vector Byte bufcap} {dst len : ℕ} {p : ℤ} (hb : dst + len ≤ bufcap)
    (hp : 0 ≤ p) (hN : p + len ≤ N) :
    Safely m N (memcpy buf dst p len) (· = overwrite buf dst len (m.read ⟨p, len⟩)) :=
  .observe_bind hb (.loadSpan_bind ⟨hp, hN⟩ (.pure rfl))

theorem memmove_safe {buf : Vector Byte bufcap} {src len : ℕ} (hb : src + len ≤ bufcap) :
    Safely m N (memmove buf src len)
      (· = overwrite buf 0 len fun i => bufMem buf (src + i)) :=
  .observe_bind hb (.pure rfl)

/-! ### Blocks -/

theorem runs_blocksLoop (p : ℤ) (k : ℕ) (s : Lanes8 × Word) :
    Runs m (blocksLoop t p (64 * k : ℕ) s) (Spec.Reference.blocks m k p s)
      (stripeSpans (8 * k) p) (stripeEvents m (8 * k) p s.2) := by
  unfold blocksLoop
  by_cases hv : t.vecgcc
  · rw [if_pos hv]
    exact (runs_untilEnd (blockRuns_bulkBlockVec t) k _ p _ s (by omega)
      (by push_cast; omega)).bind_pure rfl
  · rw [if_neg hv]
    exact runs_untilEnd (blockRuns_bulkBlock t) k _ p _ s (by omega) (by push_cast; omega)

/-- The fields that the loop of an update leaves alone. -/
structure Kept (st st' : State) : Prop where
  seed : st'.seed = st.seed
  total : st'.total = st.total
  bulk : st'.bulk = st.bulk

theorem Kept.refl (st : State) : Kept st st := ⟨rfl, rfl, rfl⟩

theorem Kept.trans {st st' st'' : State} (h : Kept st st') (h' : Kept st' st'') : Kept st st'' :=
  ⟨h'.seed.trans h.seed, h'.total.trans h.total, h'.bulk.trans h.bulk⟩

/-- `st'` is `st` with the lanes and `wp` of `s`. -/
structure Absorbed (st : State) (s : Lanes8 × Word) (st' : State) : Prop where
  lanes : (st'.h, st'.wp) = s
  nbuf : st'.nbuf = st.nbuf
  buf : st'.buf = st.buf
  kept : Kept st st'

theorem absorbed_mk (st : State) (s : Lanes8 × Word) :
    Absorbed st s { st with h := s.1, wp := s.2 } := ⟨rfl, rfl, rfl, ⟨rfl, rfl, rfl⟩⟩

theorem internalBlocks_safe (st : State) {p : ℤ} {k : ℕ} (hp : 0 ≤ p) (hN : p + 64 * k ≤ N) :
    Safely m N (internalBlocks t st p (64 * k))
      (Absorbed st (Spec.Reference.blocks m k p (st.h, st.wp))) := by
  refine .observe_bind (Nat.mul_mod_right 64 k) ?_
  have hrun := runs_silent Op (runs_blocksLoop t (m := m) p k (st.h, st.wp))
  refine (Ensures.of_runs hrun (Q := (· = Spec.Reference.blocks m k p (st.h, st.wp)))
    (fun r hr => ?_) (by simp) rfl).bind fun s hs => .pure (hs ▸ absorbed_mk st s)
  obtain ⟨j, hj, rfl⟩ := mem_stripeSpans.mp hr
  exact ⟨by push_cast; omega, by push_cast; omega⟩

theorem internalBlocksBuf_safe {st : State} {k : ℕ} (hk : 64 * k ≤ bufcap) :
    Safely m N (internalBlocksBuf t st (64 * k))
      (Absorbed st (Spec.Reference.blocks (bufMem st.buf) k 0 (st.h, st.wp))) := by
  refine .observe_bind (Nat.mul_mod_right 64 k) ?_
  obtain ⟨o, ho, hv, hl, -⟩ := runs_blocksLoop t (m := bufMem st.buf) 0 k (st.h, st.wp)
  rw [ho]
  refine .observe_bind (fun r hr => ?_) (.pure (hv ▸ absorbed_mk st o.val))
  obtain ⟨j, hj, rfl⟩ := mem_stripeSpans.mp ((hl r).mp hr)
  exact ⟨by push_cast; omega, by push_cast; omega⟩

/-! ### What the loop keeps -/

/-- The lanes are those after `k` blocks of `S`, the buffer holds what follows. -/
structure Held (S : Mem Byte) (k : ℕ) (st : State) : Prop where
  buf : Same (bufMem st.buf) 0 S (64 * k : ℕ) st.nbuf.toNat
  lanes : (st.h, st.wp) = Spec.Reference.blocks S k 0 (iv8 (st.seed ^^^ K), 0)

/-- Of `L` bytes of `S`, the last `n` are at `p` of the caller's `N` bytes, the state holds the
others. The fields the loop does not touch are those of `st₀`. -/
structure Feeding (S : Mem Byte) (L N : ℕ) (st₀ st : State) (p : ℤ) (n : ℕ) : Prop where
  held : ∃ k, Held S k st ∧ 64 * k + st.nbuf.toNat + n = L
  pos : 0 ≤ p
  fin : p + n = N
  floor : keep ≤ st.nbuf.toNat + n
  kept : Kept st₀ st

theorem lanes_blocks {S D : Mem Byte} {k j : ℕ} {q : ℤ} {s iv : Lanes8 × Word}
    (hs : s = Spec.Reference.blocks S k 0 iv) (hD : Same D q S (64 * k : ℕ) (64 * j)) :
    Spec.Reference.blocks D j q s = Spec.Reference.blocks S (k + j) 0 iv := by
  rw [blocks_same hD, blocks_add, ← hs]
  congr 1
  push_cast
  omega

theorem Held.lanes_buf {S : Mem Byte} {k j : ℕ} {st : State} (h : Held S k st)
    (hj : 64 * j ≤ st.nbuf.toNat) :
    Spec.Reference.blocks (bufMem st.buf) j 0 (st.h, st.wp) =
      Spec.Reference.blocks S (k + j) 0 (iv8 (st.seed ^^^ K), 0) :=
  lanes_blocks h.lanes fun i h0 hi => h.buf i h0 (by omega)

section Parts
variable {S : Mem Byte} {L : ℕ} {st₀ st : State} {p : ℤ} {n : ℕ}

theorem Feeding.same {k : ℕ} (hm : Same m 0 S (L - N) N) (h : Feeding S L N st₀ st p n)
    (hk : 64 * k + st.nbuf.toNat + n = L) :
    Same m p S (64 * k + st.nbuf.toNat : ℕ) n := by
  have hp := h.pos
  have hfin := h.fin
  have hsub : Same m (0 + p) S (L - N + p) n := hm.sub hp (by omega)
  have hpos : (L : ℤ) - N + p = (64 * k + st.nbuf.toNat : ℕ) := by omega
  rwa [zero_add, hpos] at hsub

theorem direct_safe (hm : Same m 0 S (L - N) N) (hn : n < 2 ^ t.sizeBits)
    (h : Feeding S L N st₀ st p n) (hlt : st.nbuf.toNat < bufcap) :
    Safely m N (direct t st p n) fun r =>
      Feeding S L N st₀ r.1 r.2.1 r.2.2 ∧ r.1.nbuf.toNat < bufcap ∧ r.2.2 ≤ n ∧
        (r.1.nbuf.toNat, r.2.2) = Absorber.directFill st.nbuf.toNat n := by
  unfold direct Absorber.directFill
  by_cases hfast : st.nbuf.toNat = keep ∧ n > bufcap
  · obtain ⟨hkeep, hcap⟩ := hfast
    obtain ⟨k, hheld, hL⟩ := h.held
    have hpos := h.pos
    have hfin := h.fin
    unfold bufcap at hcap
    unfold keep at hkeep
    rw [if_pos ⟨hkeep, hcap⟩]
    refine (subW_safe (by unfold keep; omega) hn).bind fun d hd => ?_
    have hd : d / 64 * 64 = 64 * ((n - 128) / 64) := by rw [hd, keep, Nat.mul_comm]
    rw [hd]
    refine (internalBlocksBuf_safe t (k := 2) (by unfold bufcap; omega)).bind fun st1 h1 => ?_
    refine (internalBlocks_safe t _ hpos (by push_cast; omega)).bind fun st2 h2 => ?_
    refine (subW_safe (by omega) hn).bind fun n' hn' => .pure ?_
    have hbuf : (st1.h, st1.wp) =
        Spec.Reference.blocks S (k + 2) 0 (iv8 (st.seed ^^^ K), 0) :=
      h1.lanes.trans (hheld.lanes_buf (by omega))
    have hnext : 64 * k + st.nbuf.toNat = 64 * (k + 2) := by omega
    have hsame : Same m p S (64 * (k + 2) : ℕ) (64 * ((n - 128) / 64 : ℕ)) := by
      intro i h0 hi
      have hbyte := h.same hm hL i h0 (by omega)
      rwa [hnext] at hbyte
    have hlanes : (st2.h, st2.wp) =
        Spec.Reference.blocks S (k + 2 + (n - 128) / 64) 0 (iv8 (st.seed ^^^ K), 0) := by
      rw [h2.lanes, ← lanes_blocks hbuf hsame]
    have hkept := h1.kept.trans h2.kept
    refine ⟨⟨⟨k + 2 + (n - 128) / 64, ⟨fun i h0 hi => ?_, ?_⟩, ?_⟩, ?_, ?_, ?_,
      h.kept.trans ⟨hkept.seed, hkept.total, hkept.bulk⟩⟩, ?_, ?_, ?_⟩
    · simp at hi
      omega
    · rw [hlanes, ← hkept.seed]
    · simp
      omega
    · push_cast
      omega
    · push_cast
      omega
    · simp [keep]
      omega
    · simp [bufcap]
    · simp
      omega
    · rw [if_pos ⟨hkeep, by unfold bufcap; exact hcap⟩, hn']
      rfl
  · rw [if_neg hfast, if_neg hfast]
    exact .pure ⟨h, hlt, le_rfl, rfl⟩

theorem refill_safe (hm : Same m 0 S (L - N) N) (hn : bufcap + n < 2 ^ t.sizeBits)
    (h : Feeding S L N st₀ st p n) (hlt : st.nbuf.toNat < bufcap) :
    Safely m N (refill t st p n) fun r =>
      Feeding S L N st₀ r.1 r.2.1 r.2.2 ∧
        (r.1.nbuf.toNat < bufcap ∧ r.2.2 = 0 ∨ r.1.nbuf.toNat = bufcap ∧ r.2.2 < n) ∧
        r.1.nbuf.toNat = st.nbuf.toNat + min (bufcap - st.nbuf.toNat) n ∧
        r.2.2 = n - min (bufcap - st.nbuf.toNat) n := by
  obtain ⟨k, hheld, hL⟩ := h.held
  have hpos := h.pos
  have hfin := h.fin
  have hfloor := h.floor
  unfold refill
  refine (subW_safe (by omega) (by omega)).bind fun room hroom => ?_
  have htake : (if n < room then n else room) = min n room := by
    rw [min_def]
    split_ifs <;> omega
  simp only [htake]
  refine (memcpy_safe (by omega) hpos (by omega)).bind fun buf hbuf => ?_
  rw [mod_of_le_bufcap (by omega)]
  refine (addW_safe (by unfold bufcap at *; omega)).bind fun b hb => ?_
  refine (subW_safe (by omega) (by omega)).bind fun n' hn' => .pure ?_
  have hnat : (BitVec.ofNat 32 b).toNat = st.nbuf.toNat + min n room := by
    rw [hb]
    exact toNat_of_le_bufcap (by omega)
  have hnext : Same m p S ((64 * k : ℕ) + st.nbuf.toNat) (min n room : ℕ) := by
    intro i h0 hi
    have hbyte := h.same hm hL i h0 (by omega)
    rwa [Nat.cast_add] at hbyte
  have hsame := same_append hheld.buf hnext (by omega)
  refine ⟨⟨⟨k, ⟨?_, hheld.lanes⟩, ?_⟩, ?_, ?_, ?_, h.kept.trans ⟨rfl, rfl, rfl⟩⟩, ?_, ?_, ?_⟩ <;>
    dsimp only
  · rw [hbuf, hnat]
    exact hsame
  · rw [hnat]
    omega
  · omega
  · omega
  · rw [hnat]
    omega
  · rw [hnat]
    omega
  · rw [hnat]
    omega
  · omega

theorem drain_safe (h : Feeding S L N st₀ st p n) (hfull : st.nbuf.toNat = bufcap) :
    Safely m N (drain t st) fun st' => Feeding S L N st₀ st' p n ∧ st'.nbuf.toNat = keep := by
  obtain ⟨k, hheld, hL⟩ := h.held
  unfold bufcap at hfull
  unfold drain
  refine (subW_safe (by unfold keep; omega) (by omega)).bind fun c hc => ?_
  have hc : c / 64 * 64 = 64 * 5 := by rw [hc, hfull, keep]
  rw [hc]
  refine (internalBlocksBuf_safe t (k := 5) (by unfold bufcap; omega)).bind fun st1 h1 => ?_
  have hn1 : st1.nbuf.toNat = 448 := by rw [h1.nbuf, hfull]
  refine (subW_safe (by omega) (by omega)).bind fun b hb => ?_
  have hb : b = 128 := by omega
  subst hb
  refine (memmove_safe (by unfold bufcap; omega)).bind fun buf hbuf => .pure ?_
  have hlanes : (st1.h, st1.wp) =
      Spec.Reference.blocks S (k + 5) 0 (iv8 (st.seed ^^^ K), 0) :=
    h1.lanes.trans (hheld.lanes_buf (by omega))
  have hpos : ((64 * k : ℕ) : ℤ) + (64 * 5 : ℕ) = (64 * (k + 5) : ℕ) := by
    push_cast
    omega
  have hsame := same_move (64 * 5) 128 (S := S) (c := (64 * k : ℕ))
    (by simpa [hfull] using hheld.buf) (by unfold bufcap; omega)
  refine ⟨⟨⟨k + 5, ⟨?_, ?_⟩, ?_⟩, h.pos, h.fin, ?_,
    h.kept.trans ⟨h1.kept.seed, h1.kept.total, h1.kept.bulk⟩⟩, ?_⟩
  · rw [hbuf, h1.buf]
    rwa [hpos] at hsame
  · rw [hlanes, ← h1.kept.seed]
  · simp
    omega
  · simp [keep]
  · simp [keep]

/-- **The loop ends**, given an iteration more than there are bytes, and the state then holds the
whole stream, as much of it in the buffer as the machine has. -/
theorem updateLoop_safe (hm : Same m 0 S (L - N) N) (fuel : ℕ) : ∀ {st : State} {p : ℤ} {n : ℕ},
    n < fuel → bufcap + n < 2 ^ t.sizeBits → Feeding S L N st₀ st p n → st.nbuf.toNat < bufcap →
    Safely m N (updateLoop t fuel st p n) fun st' =>
      Feeding S L N st₀ st' N 0 ∧ st'.nbuf.toNat < bufcap ∧
        st'.nbuf.toNat = Absorber.fill fuel st.nbuf.toNat n := by
  induction fuel with
  | zero => intro st p n hfuel; omega
  | succ fuel ih =>
    intro st p n hfuel hn h hlt
    rw [updateLoop, Absorber.fill]
    refine (direct_safe t hm (by omega) h hlt).bind fun r ⟨h1, hlt1, hle1, hfill1⟩ => ?_
    rw [← hfill1]
    refine (refill_safe t hm (by omega) h1 hlt1).bind fun r' ⟨h2, hend, hnb, hrest⟩ => ?_
    obtain ⟨st2, p2, n2⟩ := r'
    show Safely m N (if st2.nbuf.toNat < bufcap then _ else _) _
    dsimp only at hnb hrest ⊢
    rw [← hnb, ← hrest]
    rcases hend with ⟨hlt2, h0⟩ | ⟨hfull, hn2⟩
    · have hfin := h2.fin
      simp only at h0 hfin hlt2
      subst h0
      have hp : p2 = N := by simpa using hfin
      rw [if_pos hlt2]
      refine .pure ⟨?_, hlt2, (if_pos hlt2).symm⟩
      rwa [hp] at h2
    · simp only at hfull hn2
      have hdrained : bufcap - 64 * ((bufcap - keep) / 64) = keep := rfl
      rw [if_neg (by omega), if_neg (by omega), hfull, hdrained]
      refine (drain_safe t h2 hfull).bind fun st3 ⟨h3, hkeep⟩ => ?_
      have hloop := ih (by omega) (by omega) h3 (by rw [hkeep]; decide)
      rwa [hkeep] at hloop

end Parts

/-! ### A whole update -/

section Whole
variable {seed : Word} {xs c : List Byte} {st : State}

theorem same_append_left {l p : ℤ} (hl : p + l ≤ xs.length) :
    Same (ofList xs) p (ofList (xs ++ c)) p l :=
  fun _ _ _ => (ofList_append_left (by omega)).symm

theorem same_append_right (xs c : List Byte) :
    Same (ofList c) 0 (ofList (xs ++ c)) ((xs.length + c.length : ℕ) - c.length : ℤ) c.length := by
  intro i h0 _
  have hpos : ((xs.length + c.length : ℕ) : ℤ) - c.length + i = xs.length + i := by
    push_cast
    omega
  rw [zero_add, hpos, ofList_append_right h0]

theorem Same.trans {m m' m'' : Mem Byte} {p q r l : ℤ} (h : Same m p m' q l)
    (h' : Same m' q m'' r l) : Same m p m'' r l :=
  fun i h0 hi => (h i h0 hi).trans (h' i h0 hi)

/-- At the start of the loop. The state is undecided or bulk, and its `total` and `bulk` may have
been updated. -/
theorem feeding_start (st' : State) (h : Represents seed xs st)
    (hh : (st'.h, st'.wp) = (st.h, st.wp)) (hs : st'.seed = st.seed) (hn : st'.nbuf = st.nbuf)
    (hb : st'.buf = st.buf) (hfloor : keep ≤ st.nbuf.toNat + c.length) :
    Feeding (ofList (xs ++ c)) (xs.length + c.length) c.length st' st' 0 c.length ∧
      st'.nbuf.toNat < bufcap := by
  rcases h.phase with hu | hbk
  · refine ⟨⟨⟨0, ⟨?_, ?_⟩, ?_⟩, le_rfl, by omega, by rwa [hn], .refl _⟩, ?_⟩
    · rw [hn, hb]
      exact Same.trans hu.buf (same_append_left (by rw [hu.nbuf]; omega))
    · rw [hh, hs, hu.lanes]
      rfl
    · rw [hn, hu.nbuf]
      omega
    · rw [hn, hu.nbuf]
      exact hu.lt
  · have hle : st.nbuf.toNat ≤ xs.length := (hbk.nbuf_lt.le).trans hbk.ge
    have hal := hbk.aligned
    have hk : 64 * ((xs.length - st.nbuf.toNat) / 64) = xs.length - st.nbuf.toNat := by omega
    refine ⟨⟨⟨(xs.length - st.nbuf.toNat) / 64, ⟨?_, ?_⟩, ?_⟩, le_rfl, by omega, by rwa [hn],
      .refl _⟩, ?_⟩
    · rw [hn, hb, hk]
      exact Same.trans hbk.buf (same_append_left (by omega))
    · rw [hh, hs, hbk.lanes]
      exact blocks_same (same_append_left (by omega)) _
    · rw [hn]
      omega
    · rw [hn]
      exact hbk.nbuf_lt

theorem represents_of_feeding {st₀ st' : State}
    (h : Feeding (ofList (xs ++ c)) (xs.length + c.length) c.length st₀ st' c.length 0)
    (hlt : st'.nbuf.toNat < bufcap) (hge : bufcap ≤ xs.length + c.length) (hs : st₀.seed = seed)
    (ht : st₀.total = .ofNat 64 (xs.length + c.length)) (hb : st₀.bulk = true) :
    Represents seed (xs ++ c) st' := by
  obtain ⟨k, hheld, hL⟩ := h.held
  have hlen : (xs ++ c).length - st'.nbuf.toNat = 64 * k := by
    rw [List.length_append]
    omega
  refine ⟨h.kept.seed.trans hs, ?_, .inr ⟨h.kept.bulk.trans hb, ?_, h.floor, hlt, ?_, ?_, ?_⟩⟩
  · rw [h.kept.total, ht, List.length_append]
  · rwa [List.length_append]
  · rw [hlen]
    omega
  · rw [hlen]
    exact hheld.buf
  · have hk : 64 * k / 64 = k := by omega
    rw [hlen, hk]
    exact hheld.lanes

/-- What fits continues the input in the buffer. -/
theorem same_fit (hu : Undecided xs st) (hfit : xs.length + c.length ≤ bufcap) :
    Same (bufMem (overwrite st.buf st.nbuf.toNat c.length ((ofList c).read ⟨0, c.length⟩))) 0
      (ofList (xs ++ c)) 0 (st.nbuf.toNat + c.length : ℕ) := by
  have hn := hu.nbuf
  have hold : Same (bufMem st.buf) 0 (ofList (xs ++ c)) 0 st.nbuf.toNat :=
    Same.trans hu.buf (same_append_left (by omega))
  have hnew : Same (ofList c) 0 (ofList (xs ++ c)) (0 + st.nbuf.toNat) c.length := by
    have hpos : ((xs.length + c.length : ℕ) : ℤ) - c.length = 0 + (st.nbuf.toNat : ℤ) := by omega
    have hright := same_append_right xs c
    rwa [hpos] at hright
  exact same_append hold hnew (by omega)

/-- **An update keeps what the state stands for**, does only safe operations and ends. It leaves as
much in the buffer as the machine holds. -/
theorem update_fill (h : Represents seed xs st) (hc : c.length ≤ t.ptrdiffMax) :
    Safely (ofList c) c.length (hayahash64Update t st c.length) fun st' =>
      Represents seed (xs ++ c) st' ∧
        st'.nbuf.toNat = Absorber.heldAfter st.bulk st.nbuf.toNat c.length := by
  have hcap := bufcap_add_lt t hc
  unfold hayahash64Update Absorber.heldAfter
  by_cases h0 : c.length = 0
  · rw [if_pos h0, if_pos h0, List.eq_nil_of_length_eq_zero h0, List.append_nil]
    exact .pure ⟨h, rfl⟩
  rw [if_neg h0, if_neg h0]
  dsimp only
  have htotal : st.total + .ofNat 64 c.length = .ofNat 64 (xs.length + c.length) := by
    rw [h.total, BitVec.ofNat_add]
  rcases h.phase with hu | hbk
  · have hn := hu.nbuf
    have hlt := hu.lt
    rw [if_pos hu.bulk]
    refine (addW_safe (by omega)).bind fun sum hsum => ?_
    by_cases hfit : sum < bufcap
    · rw [if_pos hfit]
      rw [mod_of_le_bufcap (by omega)]
      refine (memcpy_safe (by omega) le_rfl (by omega)).bind fun buf hbuf => ?_
      refine (addW_safe (by unfold bufcap at *; omega)).bind fun b hb => .pure ?_
      have hnat : (BitVec.ofNat 32 b).toNat = xs.length + c.length := by
        rw [hb, hn]
        exact toNat_of_le_bufcap (by omega)
      have hsame := same_fit hu (c := c) (by omega)
      rw [if_pos ⟨hu.bulk, by omega⟩]
      refine ⟨⟨h.seed, ?_, .inl ⟨hu.bulk, ?_, ?_, ?_, hu.lanes⟩⟩, ?_⟩
      · rw [List.length_append]
        exact htotal
      · rw [List.length_append]
        exact hnat
      · rw [List.length_append]
        omega
      · dsimp only
        rw [hbuf, hnat, ← hn]
        exact hsame
      · rw [hn]
        exact hnat
    · rw [if_neg hfit, if_neg (by omega)]
      obtain ⟨hf, hlt'⟩ := feeding_start (c := c)
        { st with total := st.total + .ofNat 64 c.length, bulk := true } h rfl rfl rfl rfl
        (by unfold keep bufcap at *; omega)
      refine (updateLoop_safe t (same_append_right xs c) _ (by omega) (by omega) hf hlt').mono
        fun st' ⟨hf', hl, hfill⟩ =>
          ⟨represents_of_feeding hf' hl (by omega) h.seed htotal rfl, hfill⟩
  · have hge := hbk.ge
    have hkeep := hbk.keep_le
    rw [if_neg (by simp [hbk.bulk]), if_neg (by simp [hbk.bulk])]
    obtain ⟨hf, hlt'⟩ := feeding_start (c := c)
      { st with total := st.total + .ofNat 64 c.length } h rfl rfl rfl rfl (by omega)
    refine (updateLoop_safe t (same_append_right xs c) _ (by omega) (by omega) hf hlt').mono
      fun st' ⟨hf', hl, hfill⟩ =>
        ⟨represents_of_feeding hf' hl (by omega) h.seed htotal hbk.bulk, hfill⟩

/-- **An update is safe**, and the state then stands for the longer input. -/
theorem update_safe (h : Represents seed xs st) (hc : c.length ≤ t.ptrdiffMax) :
    Safely (ofList c) c.length (hayahash64Update t st c.length) (Represents seed (xs ++ c)) :=
  (update_fill t h hc).mono fun _ hst => hst.1

theorem represents_init (st : State) (seed : Word) : Represents seed [] (hayahash64Init st seed) :=
  ⟨rfl, rfl, .inl ⟨rfl, rfl, by simp [bufcap], fun i h0 hi => absurd hi (not_lt.mpr h0), rfl⟩⟩

/-- **Every reachable state stands for the input since its `init`.** -/
theorem reachable_represents {t : Target} (h : Reachable t seed xs st) :
    Represents seed xs st := by
  induction h with
  | init st seed => exact represents_init st seed
  | update c _ hst ih =>
    obtain ⟨st', hst', hrep⟩ := (update_safe t ih c.fits).value
    rw [hst] at hst'
    exact Option.some.inj hst' ▸ hrep

theorem ptrdiffMax_pos : 0 < t.ptrdiffMax := by
  unfold Target.ptrdiffMax Target.sizeBits
  cases t.sizeWidth <;> simp

/-- Every input leads to a state, if only byte by byte. -/
theorem exists_reachable (seed : Word) (xs : List Byte) : ∃ st, Reachable t seed xs st := by
  induction xs using List.reverseRecOn with
  | nil => exact ⟨_, .init .zeroed seed⟩
  | append_singleton xs x ih =>
    obtain ⟨st, h⟩ := ih
    obtain ⟨st', hst, -⟩ := (update_safe t (c := [x]) (reachable_represents h)
      (ptrdiffMax_pos t)).value
    exact ⟨st', .update ⟨[x], ptrdiffMax_pos t⟩ h hst⟩

/-- From 448 bytes on a reachable state is on the bulk path. -/
theorem reachable_bulk {t : Target} (h : Reachable t seed xs st) (hge : bufcap ≤ xs.length) :
    Bulk xs st := by
  rcases (reachable_represents h).phase with hu | hb
  · have := hu.lt
    omega
  · exact hb

end Whole

end Hayahash.Refine.Update
