import Hayahash.Ports.Stream
import Hayahash.Refine.PortWalk

/-! # The streaming states of the ports are the machine

`Stands st a`: the state `st` of a port has the lanes, the words, the phase and the buffered bytes
of the machine `a`. `Lawful P`: what a port does in its own way is what it should be, on ranges of
arrays of at most `hi` bytes. Then `init`, updates and digests do not fault, and do what the machine
does (`update_stands`, `digest64_eq`, `digest128_eq`). -/

namespace Hayahash.Refine.PortStream

open Hayahash.Lib.ReadProg Hayahash.Lib.Bytes Hayahash.Lib.Walk Hayahash.Lib.Checked
open Hayahash.Lib.Arrays
open Hayahash.C.Primitives (Word Lanes4 Lanes8 K)
open Hayahash.C.Walk (iv8)
open Hayahash.Spec.Reference Hayahash.Spec.Machine Hayahash.Ports.Walk
open Hayahash.Ports.Stream Hayahash.Refine.PortWalk
open Hayahash.C.Stream (bufcap)

variable {σ τ : Type}

/-- A buffer is no longer than the integers of a port can say. -/
theorem cap_le (w : Width) : bufcap ≤ w.maxInt := by
  have hge := w.maxInt_ge
  unfold bufcap
  omega

theorem wholeBlocks_eq (n : ℕ) : wholeBlocks n = (64 * (n / 64) : ℕ) := by
  unfold wholeBlocks
  omega

theorem castInt_eq {n : ℕ} (hn : n < bufcap) : castInt (.ofNat 64 n) = n := by
  unfold bufcap at hn
  have hnat : ((BitVec.ofNat 64 n).setWidth 32).toNat = n := by
    rw [BitVec.toNat_setWidth, BitVec.toNat_ofNat, Nat.mod_eq_of_lt (by omega),
      Nat.mod_eq_of_lt (by omega)]
  rw [castInt, BitVec.toInt_eq_toNat_of_lt (by omega), hnat]

/-- **What the parts of a port have to do**, with the machine's lanes and words as the port has
them. -/
structure Lawful (P : Port σ τ) (lanesOf : Lanes8 × Word → σ) (wordOf : Word → τ) (hi : ℕ) :
    Prop where
  cap : bufcap ≤ hi
  ints : P.ints.Upto hi
  addTotal : ∀ (x : Word) (n : ℕ), P.addTotal (wordOf x) n = wordOf (x + .ofNat 64 n)
  fits : ∀ b n : ℕ, b < bufcap → n ≤ hi → P.fits b n = pure (decide (b + n < bufcap))
  blocks : ∀ {v : View} (k : ℕ) (s : Lanes8 × Word), v.Valid → v.data.length ≤ hi → 64 * k ≤ v.len →
    P.blocks v (64 * k : ℕ) (lanesOf s) = pure (lanesOf (absorb (v.bytes.take (64 * k)) s))
  skip : ∀ {v : View} (k : ℕ), v.Valid → v.data.length ≤ hi → k ≤ v.len →
    P.skip v k = pure (v.dropped k)
  copyIn : ∀ {buf : List Byte} {v : View} (b k : ℕ), buf.length = bufcap → v.Valid →
    v.data.length ≤ hi → k ≤ v.len → b + k ≤ bufcap →
    P.copyIn buf b v k = pure (spliced buf b (v.bytes.take k))
  moveDown : ∀ {buf : List Byte} (src len : ℕ), buf.length = bufcap → src + len ≤ bufcap →
    P.moveDown buf src len = pure (spliced buf 0 ((buf.drop src).take len))

/-- **The state of a port and the machine agree**, up to the bytes of the buffer that are not in
use. -/
structure Stands (lanesOf : Lanes8 × Word → σ) (wordOf : Word → τ) (st : State σ τ) (a : Absorber) :
    Prop where
  lanes : st.lanes = lanesOf a.lanes
  seed : st.seed = wordOf a.seed
  total : st.total = wordOf a.total
  nbuf : st.nbuf = a.held.length
  bulk : st.bulk = a.bulk
  cap : st.buf.length = bufcap
  held : st.buf.take a.held.length = a.held

/-- The range `v` of an array the port can have, and the bytes in it. -/
structure Shows (hi : ℕ) (v : View) (c : List Byte) : Prop where
  valid : v.Valid
  fits : v.data.length ≤ hi
  bytes : v.bytes = c

variable {P : Port σ τ} {lanesOf : Lanes8 × Word → σ} {wordOf : Word → τ} {hi : ℕ}
variable {st : State σ τ} {a : Absorber} {v : View} {c : List Byte}

theorem Shows.len (h : Shows hi v c) : v.len = c.length := by
  rw [← h.bytes, h.valid.length_bytes]

theorem Shows.le (h : Shows hi v c) : c.length ≤ hi := by
  have hlen := h.len
  have hfin := h.valid.fin
  have hoff := h.valid.off
  have hfits := h.fits
  omega

theorem Shows.dropped (h : Shows hi v c) {k : ℕ} (hk : k ≤ c.length) :
    Shows hi (v.dropped k) (c.drop k) where
  valid := h.valid.dropped (by omega) (by rw [h.len]; omega)
  fits := h.fits
  bytes := by rw [h.valid.bytes_dropped, h.bytes]

theorem Shows.part (h : Shows hi v c) {a b : ℕ} (hab : a ≤ b) (hb : b ≤ c.length) :
    Yields (v.part a b) (Shows hi · ((c.drop a).take (b - a))) := by
  have hlen := h.len
  have hoff := h.valid.off
  have hfin := h.valid.fin
  refine .of_eq (View.part_eq (by omega) (by omega) (by omega)) ⟨?_, h.fits, ?_⟩
  · exact ⟨by dsimp only; omega, by dsimp only; omega, by dsimp only; omega⟩
  · have hstart : (v.off + (a : ℤ)).toNat = v.off.toNat + a := by omega
    have hcount : ((b : ℤ) - a).toNat = b - a := by omega
    rw [← h.bytes, View.bytes, View.bytes, hstart, hcount, List.drop_take, List.drop_drop,
      List.take_take, Nat.min_eq_left (by omega)]

theorem shows_all (h : c.length ≤ hi) : Shows hi (.all c) c where
  valid := View.all_valid c
  fits := h
  bytes := View.all_bytes c

/-- The array a range is in: what is before it, the range, and what is behind it. -/
theorem Shows.split (h : Shows hi v c) :
    ∃ pre post, v.data = pre ++ (c ++ post) ∧ v.off = pre.length := by
  have hoff := h.valid.off
  have hlen := h.valid.len
  have hfin := h.valid.fin
  refine ⟨v.data.take v.off.toNat, (v.data.drop v.off.toNat).drop v.len.toNat, ?_, ?_⟩
  · rw [← h.bytes, View.bytes, List.take_append_drop, List.take_append_drop]
  · rw [List.length_take]
    omega

theorem ofList_middle {pre c post : List Byte} {i : ℤ} (h0 : 0 ≤ i) (hi : i < c.length) :
    ofList (pre ++ (c ++ post)) (pre.length + i) = ofList c i := by
  rw [ofList_append_right h0, ofList_append_left hi]

/-- **A reader that reads as a range does**, of which the key is a part. -/
theorem reads_of_shows {R : Reader} {pre c post : List Byte} (h : Shows hi v (pre ++ (c ++ post)))
    (hints : R.ints.Upto hi)
    (h64 : ∀ {i : ℤ}, pre.length ≤ i → i + 8 ≤ pre.length + c.length → R.load64 i = v.read64 i)
    (h32 : ∀ {i : ℤ}, pre.length ≤ i → i + 4 ≤ pre.length + c.length →
      R.load32 i = do return (← v.read32 i).setWidth 64)
    (h8 : ∀ {i : ℤ}, pre.length ≤ i → i < pre.length + c.length →
      R.load8 i = do return (← v.get i).setWidth 64)
    (hstart : ∀ {k : ℤ}, 0 ≤ k → k ≤ c.length → R.fromStart k = pure (pre.length + k))
    (hend : ∀ {k : ℤ}, 0 ≤ k → k ≤ c.length → R.fromEnd k = pure (pre.length + c.length - k))
    (hmix : R.mix = .header) :
    Reads R (ofList c) pre.length c.length := by
  have hlen := h.len
  have hle := h.le
  rw [List.length_append, List.length_append] at hlen hle
  have hbyte : ∀ i : ℤ, pre.length ≤ i → i < pre.length + c.length →
      ofList v.bytes i = ofList c (i - pre.length) := by
    intro i h0 h1
    have hmid : ofList (pre ++ (c ++ post)) (pre.length + (i - pre.length)) =
      ofList c (i - pre.length) :=
      ofList_middle (by omega) (by omega)
    rwa [add_sub_cancel, ← h.bytes] at hmid
  refine ⟨hmix, by omega, hints.mono (by omega), ?_, ?_, ?_, hstart, hend⟩
  · intro i h0 h1
    rw [h64 h0 h1, h.valid.read64 (by omega) (by omega)]
    refine congrArg pure (word64_shift fun j hj hj' => ?_)
    rw [hbyte _ (by omega) (by omega), add_sub_right_comm]
  · intro i h0 h1
    rw [h32 h0 h1, h.valid.read32 (by omega) (by omega), pure_bind]
    refine congrArg (fun x : BitVec 32 => pure (x.setWidth 64)) (congrArg le32 (funext fun j => ?_))
    rw [hbyte _ (by omega) (by omega), add_sub_right_comm]
  · intro i h0 h1
    rw [h8 h0 (by omega), h.valid.get (by omega) (by omega), pure_bind,
      hbyte _ (by omega) (by omega)]

theorem reads_of_all {R : Reader} (h : Shows hi v c) (hints : R.ints.Upto hi)
    (h64 : ∀ {i : ℤ}, 0 ≤ i → i + 8 ≤ v.len → R.load64 i = v.read64 i)
    (h32 : ∀ {i : ℤ}, 0 ≤ i → i + 4 ≤ v.len →
      R.load32 i = do return (← v.read32 i).setWidth 64)
    (h8 : ∀ {i : ℤ}, 0 ≤ i → i < v.len → R.load8 i = do return (← v.get i).setWidth 64)
    (hstart : ∀ k, R.fromStart k = pure k)
    (hend : ∀ {k : ℤ}, 0 ≤ k → k ≤ v.len → R.fromEnd k = pure (v.len - k))
    (hmix : R.mix = .header) :
    Reads R (ofList c) 0 c.length := by
  have hlen := h.len
  have hzero : (([] : List Byte).length : ℤ) = 0 := rfl
  have hshows : Shows hi v ([] ++ (c ++ [])) := by rwa [List.append_nil]
  refine reads_of_shows hshows hints
    (fun h0 h1 => h64 (by omega) (by omega)) (fun h0 h1 => h32 (by omega) (by omega))
    (fun h0 h1 => h8 (by omega) (by omega)) ?_ ?_ hmix
  · intro k _ _
    rw [hstart, List.length_nil, Nat.cast_zero, zero_add]
  · intro k h0 h1
    rw [hend h0 (by omega), hlen, List.length_nil, Nat.cast_zero, zero_add]

/-! ### Whole blocks -/

/-- A step of a loop that takes the block at its position into the lanes, as the port has them. The
blocks are those of `c`, which begins at `lo`. -/
def TakesBlocks (f : ℤ → σ → Chk σ) (lanesOf : Lanes8 × Word → σ) (lo : ℤ) (c : List Byte) : Prop :=
  ∀ (p : ℤ) (s : Lanes8 × Word), lo ≤ p → p + 64 ≤ lo + c.length →
    f p (lanesOf s) = pure (lanesOf (Spec.Reference.blockStep (ofList c) (p - lo) s))

theorem takesBlocks_block {R : Reader} {lo : ℤ} (hR : Reads R (ofList c) lo c.length) :
    TakesBlocks (block R) id lo c :=
  fun _ s h0 h1 => block_eq hR h0 h1 s

theorem takesBlocks_blockLoop {R : Reader} {lo : ℤ} (hR : Reads R (ofList c) lo c.length) :
    TakesBlocks (blockLoop R) arrayed lo c :=
  fun _ s h0 h1 => blockLoop_eq hR h0 h1 s

theorem TakesBlocks.step {f : ℤ → σ → Chk σ} {lo : ℤ} {k : ℕ} (hf : TakesBlocks f lanesOf lo c)
    (hk : c.length = 64 * k) :
    StepYields f (fun q => Spec.Reference.blockStep (ofList c) (q - lo)) (fun v x => v = lanesOf x)
      lo (lo + (64 : ℕ) * k) 64 := by
  rintro p v x h0 h1 rfl
  exact .of_eq (hf p x h0 (by omega)) rfl

theorem walk_absorb {lo : ℤ} {k : ℕ} (hk : c.length = 64 * k) (s : Lanes8 × Word) :
    walk (fun q => Spec.Reference.blockStep (ofList c) (q - lo)) (64 : ℕ) k lo s =
      Spec.Machine.absorb c s := by
  have hdiv : c.length / 64 = k := by omega
  rw [walk_shift, sub_self, Spec.Machine.absorb, hdiv]
  rfl

variable (lanesOf) in
theorem untilLt_absorb {I : Ints} {f : ℤ → σ → Chk σ} {lo : ℤ} {k fuel : ℕ}
    (hI : I.Upto (lo + c.length)) (hlo : 0 ≤ lo) (hf : TakesBlocks f lanesOf lo c)
    (hk : c.length = 64 * k) (hfuel : k < fuel) (s : Lanes8 × Word) :
    untilLt I f 64 (lo + c.length) fuel lo (lanesOf s) =
      pure (lanesOf (Spec.Machine.absorb c s)) := by
  have hend : lo + (64 : ℕ) * k = lo + c.length := by omega
  have hloop := untilLt_yields hI (by omega) fuel k hfuel hlo hend.le (hf.step hk)
    (rfl : lanesOf s = lanesOf s)
  rw [hend, walk_absorb hk] at hloop
  rw [← yields_eq]
  exact hloop

variable (lanesOf) in
theorem untilNe_absorb {I : Ints} {f : ℤ → σ → Chk σ} {lo : ℤ} {k fuel : ℕ}
    (hI : I.Upto (lo + c.length)) (hlo : 0 ≤ lo) (hf : TakesBlocks f lanesOf lo c)
    (hk : c.length = 64 * k) (hfuel : k < fuel) (s : Lanes8 × Word) :
    untilNe I f 64 (lo + c.length) fuel lo (lanesOf s) =
      pure (lanesOf (Spec.Machine.absorb c s)) := by
  have hend : lo + (64 : ℕ) * k = lo + c.length := by omega
  have hloop := untilNe_yields hI (by omega) fuel k hfuel hlo hend.le (hf.step hk)
    (rfl : lanesOf s = lanesOf s)
  rw [hend, walk_absorb hk] at hloop
  rw [← yields_eq]
  exact hloop

theorem Shows.blocks {k : ℕ} (h : Shows hi v c) (hk : 64 * k ≤ c.length) :
    Yields (v.part 0 (64 * k : ℕ)) (Shows hi · (c.take (64 * k))) := by
  have hpart := h.part (Nat.zero_le _) hk
  rwa [List.drop_zero, Nat.sub_zero] at hpart

theorem length_blocks {k : ℕ} (hk : 64 * k ≤ c.length) : (c.take (64 * k)).length = 64 * k := by
  rw [List.length_take]
  omega

theorem absorb_take {k : ℕ} (hk : 64 * k ≤ c.length) (s : Lanes8 × Word) :
    absorb (c.take (64 * k)) s = blocks (ofList c) k 0 s := by
  have hlen := length_blocks hk
  have hsame := same_left (c.take (64 * k)) (c.drop (64 * k)) (l := 64 * k) (by omega)
  rw [List.take_append_drop] at hsame
  rw [Spec.Machine.absorb, hlen, Nat.mul_div_cancel_left k (by decide),
    Spec.Shift.blocks_same hsame]

theorem Shows.blocksIn {k : ℕ} (h : Shows hi v c) (hk : 64 * k ≤ c.length) :
    ∃ pre post, v.off = (pre.length : ℕ) ∧ (c.take (64 * k)).length = 64 * k ∧
      Shows hi (.all v.data) (pre ++ (c.take (64 * k) ++ post)) := by
  obtain ⟨pre, post, hdata, hoff⟩ := h.split
  refine ⟨pre, c.drop (64 * k) ++ post, hoff, length_blocks hk, ?_⟩
  have hshows := shows_all h.fits
  rwa [← List.append_assoc (c.take _), List.take_append_drop, ← hdata]

variable (lanesOf) in
theorem partBlocks_absorb {I : Ints} {f : View → ℤ → σ → Chk σ} {k : ℕ} (h : Shows hi v c)
    (hI : I.Upto hi) (hf : ∀ {p d}, Shows hi p d → TakesBlocks (f p) lanesOf 0 d)
    (hk : 64 * k ≤ c.length) (s : Lanes8 × Word) :
    (do
      let p ← v.part 0 (64 * k : ℕ)
      untilLt I (f p) 64 p.len (p.len.toNat + 1) 0 (lanesOf s)) =
      pure (lanesOf (Spec.Machine.absorb (c.take (64 * k)) s)) := by
  rw [← yields_eq]
  refine (h.blocks hk).bind fun p hp => ?_
  have hle := hp.le
  have hfuel : k < p.len.toNat + 1 := by
    rw [hp.len, length_blocks hk]
    omega
  have hloop :=
    untilLt_absorb lanesOf (hI.mono (by omega)) le_rfl (hf hp) (length_blocks hk) hfuel s
  rw [zero_add, ← hp.len] at hloop
  rw [yields_eq]
  exact hloop

theorem fits_sub {I : Ints} (hI : I.Upto hi) (hcap : bufcap ≤ hi) (b n : ℕ) (hb : b < bufcap) :
    (do return decide ((n : ℤ) < (← I.sub bufCap b))) =
      pure (f := Chk) (decide (b + n < bufcap)) := by
  unfold bufcap at hb hcap
  rw [hI.sub (by unfold bufCap; omega) (by unfold bufCap; omega), pure_bind]
  congr 1
  rw [decide_eq_decide]
  unfold bufCap bufcap
  omega

theorem Stands.held_le (h : Stands lanesOf wordOf st a) : a.held.length ≤ bufcap := by
  have hlen := congrArg List.length h.held
  rw [List.length_take, h.cap] at hlen
  omega

theorem Stands.take (h : Stands lanesOf wordOf st a) {k : ℕ} (hk : k ≤ a.held.length) :
    st.buf.take k = a.held.take k := by
  rw [← h.held, List.take_take, Nat.min_eq_left hk]

theorem Stands.inUse (h : Stands lanesOf wordOf st a) :
    Yields ((View.all st.buf).part 0 a.held.length) (Shows bufcap · a.held) := by
  have hpart :=
    (shows_all h.cap.le).part (Nat.zero_le a.held.length) (by rw [h.cap]; exact h.held_le)
  rwa [List.drop_zero, Nat.sub_zero, h.held] at hpart

theorem shows_held (h : Stands lanesOf wordOf st a) :
    Shows bufcap ⟨st.buf, 0, a.held.length⟩ a.held := by
  have hcap := h.cap
  have hle := h.held_le
  refine ⟨⟨le_rfl, by dsimp only; omega, by dsimp only; omega⟩, hcap.le, ?_⟩
  rw [View.bytes, Int.toNat_zero, List.drop_zero, Int.toNat_natCast, h.held]

theorem Stands.whole (h : Stands lanesOf wordOf st a) :
    Shows bufcap (.all st.buf) ([] ++ (a.held ++ st.buf.drop a.held.length)) := by
  have hheld := h.held
  have hbuf : a.held ++ st.buf.drop a.held.length = st.buf := by
    rw [← hheld, List.length_take, h.cap, Nat.min_eq_left h.held_le, List.take_append_drop]
  rw [List.nil_append, hbuf]
  exact shows_all h.cap.le

section Steps
variable (hP : Lawful P lanesOf wordOf hi)
include hP

theorem bufBlocks_eq (h : Stands lanesOf wordOf st a) {k : ℕ} (hk : 64 * k ≤ a.held.length)
    (s : Lanes8 × Word) : P.blocks (.all st.buf) (64 * k : ℕ) (lanesOf s) =
      pure (lanesOf (absorb (a.held.take (64 * k)) s)) := by
  have hle := h.held_le
  have hcap := hP.cap
  rw [hP.blocks k s (View.all_valid _) (by simp only [View.all, h.cap]; exact hcap)
    (by simp only [View.all, h.cap]; omega), View.all_bytes, h.take hk]

theorem direct_stands (h : Stands lanesOf wordOf st a) (hv : Shows hi v c) :
    Yields (direct P st v) fun r =>
      Stands lanesOf wordOf r.1 (a.direct c).1 ∧ Shows hi r.2 (a.direct c).2 := by
  have hlen := hv.len
  have hle := hv.le
  unfold direct Absorber.direct
  by_cases hfast : a.held.length = C.Stream.keep ∧ bufcap < c.length
  · obtain ⟨hkeep, hcap⟩ := hfast
    have hnbuf := h.nbuf
    have hfloor : a.held.take (64 * 2) = a.held := List.take_of_length_le (by rw [hkeep]; decide)
    have htest : st.nbuf = keep ∧ v.len > bufCap := by
      unfold C.Stream.keep at hkeep
      unfold bufcap at hcap
      unfold keep bufCap
      omega
    rw [if_pos htest, if_pos ⟨hkeep, hcap⟩]
    unfold C.Stream.keep at hkeep ⊢
    unfold bufcap at hcap
    have hsub : v.len - keep = (c.length - 128 : ℕ) := by
      unfold keep
      omega
    have hbuf := bufBlocks_eq hP h (k := 2) (by omega) a.lanes
    have hblocks := hP.blocks ((c.length - 128) / 64) (absorb a.held a.lanes) hv.valid hv.fits
      (by omega)
    rw [hfloor] at hbuf
    refine .bind_eq (hP.ints.sub (by omega) (by omega)) ?_
    rw [hsub, wholeBlocks_eq, h.lanes]
    refine .bind_eq hbuf ?_
    refine .bind_eq hblocks ?_
    refine .bind_eq (hP.skip _ hv.valid hv.fits (by omega)) ?_
    rw [hv.bytes]
    exact .pure ⟨⟨rfl, h.seed, h.total, rfl, h.bulk, h.cap, rfl⟩, hv.dropped (by omega)⟩
  · have hnbuf := h.nbuf
    rw [if_neg hfast, if_neg]
    · exact .pure ⟨h, hv⟩
    · unfold keep bufCap
      unfold C.Stream.keep bufcap at hfast
      omega

theorem refill_stands (h : Stands lanesOf wordOf st a) (hv : Shows hi v c) :
    Yields (refill P st v) fun r =>
      Stands lanesOf wordOf r.1 (a.refill c).1 ∧ Shows hi r.2 (a.refill c).2 := by
  have hlen := hv.len
  have hle := hv.le
  have hheld := h.held_le
  have hnbuf := h.nbuf
  have hcap := hP.cap
  have hmin : min (bufCap - st.nbuf) v.len = (min (bufcap - a.held.length) c.length : ℕ) := by
    unfold bufCap
    unfold bufcap at hheld ⊢
    omega
  have htake : (c.take (min (bufcap - a.held.length) c.length)).length =
      min (bufcap - a.held.length) c.length := by
    rw [List.length_take]
    omega
  unfold refill Absorber.refill
  dsimp only
  unfold bufcap at hheld hcap
  refine .bind_eq (hP.ints.sub (by unfold bufCap; omega) (by unfold bufCap; omega)) ?_
  rw [hmin, hnbuf]
  refine .bind_eq (hP.copyIn _ _ h.cap hv.valid hv.fits (by omega) (by unfold bufcap; omega)) ?_
  refine .bind_eq (hP.ints.add (by omega) (by unfold bufcap; omega)) ?_
  refine .bind_eq (hP.skip _ hv.valid hv.fits (by omega)) ?_
  rw [hv.bytes]
  refine .pure ⟨⟨h.lanes, h.seed, h.total, ?_, h.bulk, ?_, ?_⟩, hv.dropped (by omega)⟩
  · rw [List.length_append, htake]
    push_cast
    rfl
  · rw [length_spliced (by rw [htake, h.cap]; unfold bufcap; omega)]
    exact h.cap
  · rw [List.length_append, take_spliced (by rw [h.cap]; exact h.held_le), h.held]

theorem drain_stands (h : Stands lanesOf wordOf st a) (hfull : a.held.length = bufcap) :
    Yields (drain P st) (Stands lanesOf wordOf · a.drain) := by
  have hnbuf := h.nbuf
  have hcap := hP.cap
  have hbuf : st.buf = a.held := by
    have hheld := h.held
    rwa [List.take_of_length_le (by rw [h.cap, hfull])] at hheld
  have hsub : st.nbuf - keep = (320 : ℕ) := by
    rw [hnbuf, hfull]
    rfl
  have hleft : st.nbuf - ((64 * (320 / 64) : ℕ) : ℤ) = (128 : ℕ) := by
    rw [hnbuf, hfull]
    rfl
  have hconsume : 64 * ((a.held.length - C.Stream.keep) / 64) = 64 * (320 / 64) := by
    rw [hfull]
    rfl
  unfold bufcap at hcap hfull
  have hrest : (a.held.drop (64 * (320 / 64))).length = 128 := by
    rw [List.length_drop, hfull]
  unfold drain Absorber.drain
  dsimp only
  rw [hconsume]
  refine .bind_eq (hP.ints.sub (by omega) (by omega)) ?_
  rw [hsub, wholeBlocks_eq, h.lanes]
  refine .bind_eq (bufBlocks_eq hP h (by omega) _) ?_
  refine .bind_eq (hP.ints.sub (by omega) (by omega)) ?_
  rw [hleft]
  refine .bind_eq (hP.moveDown _ _ h.cap (by decide)) ?_
  rw [hbuf, List.take_of_length_le hrest.le]
  refine .pure ⟨rfl, h.seed, h.total, by rw [hrest], h.bulk, ?_, ?_⟩
  · rw [length_spliced (by rw [hrest, hfull]; omega), hfull]
    rfl
  · have hspliced : (spliced a.held 0 (a.held.drop (64 * (320 / 64)))).take
        (0 + (a.held.drop (64 * (320 / 64))).length) = _ := take_spliced (by omega)
    rwa [zero_add, List.take_zero, List.nil_append] at hspliced

/-- **The loop of an update ends**, and does what the machine does. -/
theorem updateLoop_stands : ∀ (fuel : ℕ) {st : State σ τ} {a : Absorber} {v : View} {c : List Byte},
    c.length < fuel → a.held.length < bufcap → Stands lanesOf wordOf st a → Shows hi v c →
    Yields (updateLoop P fuel st v) (Stands lanesOf wordOf · (Absorber.feed fuel a c)) := by
  intro fuel
  induction fuel with
  | zero => intro st a v c hc; omega
  | succ fuel ih =>
    intro st a v c hc hlt h hv
    unfold updateLoop Absorber.feed
    dsimp only
    refine (direct_stands hP h hv).bind fun r hr => ?_
    refine (refill_stands hP hr.1 hr.2).bind fun q hq => ?_
    have hnbuf := hq.1.nbuf
    by_cases hdone : (((a.direct c).1.refill (a.direct c).2).1).held.length < bufcap
    · rw [if_pos hdone, if_pos (by unfold bufCap; unfold bufcap at hdone; omega)]
      exact .pure hq.1
    · rw [if_neg hdone, if_neg (by unfold bufCap; unfold bufcap at hdone; omega)]
      have hfull := le_antisymm hq.1.held_le (not_lt.mp hdone)
      refine (drain_stands hP hq.1 hfull).bind fun s hs => ?_
      have hheld : (((a.direct c).1.refill (a.direct c).2).1).drain.held.length =
        C.Stream.keep := by
        simp only [Absorber.drain, List.length_drop, hfull]
        rfl
      exact ih (Absorber.feed_lt hlt hfull |>.trans_le (by omega)) (by rw [hheld]; decide) hs hq.2

/-- **An update does what the machine does.** -/
theorem update_stands (h : Stands lanesOf wordOf st a) (hlt : a.held.length < bufcap)
    (hv : Shows hi v c) : Yields (update P st v) (Stands lanesOf wordOf · (a.update c)) := by
  have hlen := hv.len
  have hle := hv.le
  have hnbuf := h.nbuf
  have hcap := hP.cap
  unfold update Absorber.update
  dsimp only
  by_cases h0 : c.length = 0
  · rw [if_pos h0, if_pos (by omega)]
    exact .pure h
  have htotal : P.addTotal st.total v.len = wordOf (a.total + .ofNat 64 c.length) := by
    rw [h.total, hlen, hP.addTotal]
  rw [if_neg h0, if_neg (by omega), htotal, hlen, Int.toNat_natCast]
  cases hb : a.bulk with
  | false =>
    rw [if_pos (h.bulk.trans hb), if_pos rfl]
    refine .bind_eq (a := decide (a.held.length + c.length < bufcap))
      (by rw [hnbuf, hP.fits _ _ hlt hle]) ?_
    by_cases hfit : a.held.length + c.length < bufcap
    · rw [if_pos (decide_eq_true hfit), if_pos hfit]
      rw [hnbuf]
      refine .bind_eq (hP.copyIn _ _ h.cap hv.valid hv.fits (by omega) hfit.le) ?_
      unfold bufcap at hfit hcap
      refine .bind_eq (hP.ints.add (by omega) (by omega)) ?_
      rw [hv.bytes, List.take_length]
      refine .pure ⟨h.lanes, h.seed, rfl, by rw [List.length_append]; push_cast; rfl,
        h.bulk.trans hb, ?_, ?_⟩
      · rw [length_spliced (by rw [h.cap]; exact hfit.le), h.cap]
      · rw [List.length_append, take_spliced (by rw [h.cap]; exact hlt.le), h.held]
    · rw [if_neg (by simpa using hfit), if_neg hfit]
      exact updateLoop_stands hP _ (by omega) hlt
        ⟨h.lanes, h.seed, rfl, h.nbuf, rfl, h.cap, h.held⟩ hv
  | true =>
    rw [if_neg (by rw [h.bulk, hb]; decide), if_neg (by decide)]
    exact updateLoop_stands hP _ (by omega) hlt
      ⟨h.lanes, h.seed, rfl, h.nbuf, h.bulk.trans hb, h.cap, h.held⟩ hv

end Steps

theorem fresh_stands (lanesOf : Lanes8 × Word → σ) (wordOf : Word → τ) (seed : Word)
    {buf : List Byte} (hbuf : buf.length = bufcap) :
    Stands lanesOf wordOf (fresh (lanesOf (iv8 (seed ^^^ K), 0)) (wordOf 0) (wordOf seed) buf)
      (Absorber.init seed) :=
  ⟨rfl, rfl, rfl, rfl, rfl, hbuf, rfl⟩

/-! ### Digests -/

/-- **What the parts of the digests have to do.** -/
structure Finishes (F : Finish σ) (lanesOf : Lanes8 × Word → σ) : Prop where
  mix : F.mix = .header
  held : ∀ {st a}, Stands lanesOf id st a → a.total = .ofNat 64 a.held.length →
    a.held.length < bufcap → Yields (F.held st) (Shows bufcap · a.held)
  hash64 : ∀ {v c} (seed : Word), Shows bufcap v c →
    F.hash64 v seed = pure (compact64 (ofList c) c.length seed)
  hash128 : ∀ {v c} (seed : Word), Shows bufcap v c →
    F.hash128 v seed = pure (compact128 (ofList c) c.length seed)
  rest : ∀ {st a}, Stands lanesOf id st a → C.Stream.keep ≤ a.held.length →
    F.rest st = pure (Absorber.restLanes (ofList a.held) a.held.length a.lanes)

variable {F : Finish σ} {seed : Word} {xs : List Byte}

/-- **The 128-bit digest** is the hash of what the machine was fed. -/
theorem digest128_eq {st : State σ Word} (hF : Finishes F lanesOf) (h : Stands lanesOf id st a)
    (hold : Absorber.Holds seed xs a) :
    digest128 F st = pure (compact128 (ofList xs) xs.length seed) := by
  have hdigest := Absorber.digest128_eq hold
  unfold digest128
  unfold Absorber.digest128 at hdigest
  cases hb : a.bulk with
  | false =>
    have hheld := hold.undecided hb
    obtain ⟨v, hv, hshows⟩ := hF.held h (by rw [hold.total, hheld]) hold.lt
    rw [if_pos (h.bulk.trans hb), hv, pure_bind, hF.hash128 _ hshows, h.seed, hheld]
    exact congrArg (fun s => pure (compact128 (ofList xs) xs.length s)) hold.seed
  | true =>
    rw [if_neg (by rw [hb]; decide)] at hdigest
    rw [if_neg (by rw [h.bulk, hb]; decide), hF.rest h (hold.bulk hb).2,
      pure_bind, ← hdigest, h.seed, h.total, hF.mix]
    rfl

/-- **The 64-bit digest** is the low word of it. -/
theorem digest64_eq {st : State σ Word} (hF : Finishes F lanesOf) (h : Stands lanesOf id st a)
    (hold : Absorber.Holds seed xs a) :
    digest64 F st = pure (compact64 (ofList xs) xs.length seed) := by
  have hdigest := Absorber.digest64_eq hold
  unfold digest64
  unfold Absorber.digest64 Absorber.digest128 at hdigest
  cases hb : a.bulk with
  | false =>
    have hheld := hold.undecided hb
    obtain ⟨v, hv, hshows⟩ := hF.held h (by rw [hold.total, hheld]) hold.lt
    rw [if_pos (h.bulk.trans hb), hv, pure_bind, hF.hash64 _ hshows, h.seed, hheld]
    exact congrArg (fun s => pure (compact64 (ofList xs) xs.length s)) hold.seed
  | true =>
    rw [if_neg (by rw [hb]; decide)] at hdigest
    rw [if_neg (by rw [h.bulk, hb]; decide), hF.rest h (hold.bulk hb).2,
      pure_bind, ← hdigest, h.seed, h.total, hF.mix]
    rfl

end Hayahash.Refine.PortStream
