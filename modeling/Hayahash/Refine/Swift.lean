import Hayahash.C.Loads
import Hayahash.Ports.Swift
import Hayahash.Refine.Session

/-! # The Swift port does what the machine does -/

namespace Hayahash.Refine.Swift

open Hayahash.Lib.ReadProg Hayahash.Lib.Bytes Hayahash.Lib.Checked Hayahash.Lib.Arrays
open Hayahash.Spec.Reference Hayahash.Spec.Machine Hayahash.Ports.Walk Hayahash.Ports.Stream
open Hayahash.Ports.Session Hayahash.Ports.Swift Hayahash.Refine.PortWalk
open Hayahash.Refine.PortStream Hayahash.Refine.Session
open Hayahash.C.Primitives (Word Lanes8 decode64 decode32)
open Hayahash.C.Loads (decode64_eq decode32_eq)
open Hayahash.C.Stream (bufcap)

variable (w : Width) {v : View} {c : List Byte} {hi : ℕ}

theorem wrapping_upto : (wrapping w).Upto w.maxInt := w.wrap_upto

/-! ### Mixers -/

theorem mixers_eq : mixers = .header := by
  have hrotl : Ports.Swift.rotl = C.Primitives.rotl := shiftRotl_eq
  unfold mixers inj inj2 iv
  rw [hrotl]
  rfl

/-! ### Loads -/

section Loads
variable {w} {i : ℤ} (h0 : 0 ≤ i) (hmax : v.len ≤ w.maxInt)
include h0 hmax

theorem shifted_eq {k : ℤ} (hk : 0 ≤ k) (hi : i + k < v.len) : shifted w v i k =
    pure ((ofList v.data (v.off + i + k)).setWidth 64 <<< (8 * k.toNat)) := by
  rw [shifted, (wrapping_upto w).add (by omega) (by omega), pure_bind,
    View.get_eq (by omega) (by omega), pure_bind, add_assoc]

theorem load64_eq (hi : i + 8 ≤ v.len) : Ports.Swift.load64 w v i = v.read64 i := by
  have hdecode := decode64_eq .unknown fun j => ofList v.data (v.off + i + j)
  rw [View.read64_eq h0 hi, word64, ← hdecode]
  simp (disch := omega) only [Ports.Swift.load64, View.get_eq h0 (show i < v.len by omega),
    shifted_eq h0 hmax, pure_bind]
  simp [decode64]

theorem load32_eq (hi : i + 4 ≤ v.len) :
    Ports.Swift.load32 w v i = do return (← v.read32 i).setWidth 64 := by
  have hdecode := decode32_eq .unknown fun j => ofList v.data (v.off + i + j)
  rw [View.read32_eq h0 hi, pure_bind, word32, ← hdecode]
  simp (disch := omega) only [Ports.Swift.load32, View.get_eq h0 (show i < v.len by omega),
    shifted_eq h0 hmax, pure_bind]
  simp [decode32]

end Loads

/-! ### One-shot -/

theorem len_le (h : Shows hi v c) (hhi : hi ≤ w.maxInt) : v.len ≤ w.maxInt := by
  have hlen := h.len
  have hle := h.le
  omega

theorem reads (h : Shows hi v c) (hhi : hi ≤ w.maxInt) :
    Reads (reader w w.signed v) (ofList c) 0 c.length := by
  have hlen := h.len
  have hle := h.le
  have hmax := len_le w h hhi
  have hints : w.signed.Upto hi := w.signed_upto.mono (by omega)
  exact reads_of_all h hints (fun h0 hi => load64_eq h0 hmax hi) (fun h0 hi => load32_eq h0 hmax hi)
    (fun _ _ => rfl) (fun _ => rfl) (fun _ _ => hints.sub (by omega) (by omega)) mixers_eq

/-- **`hash64` is the hash of the buffer.** -/
theorem hash64_eq (h : Shows hi v c) (hhi : hi ≤ w.maxInt) (seed : Word) :
    Ports.Swift.hash64 w v seed = pure (compact64 (ofList c) c.length seed) := by
  have hR := reads w h hhi
  rw [Ports.Swift.hash64, h.len]
  exact hashImpl_eq hR (fun hn => tailFromCursor_eq hR hn) seed

/-- **`hash128` is the hash of the buffer.** -/
theorem hash128_eq (h : Shows hi v c) (hhi : hi ≤ w.maxInt) (seed : Word) :
    Ports.Swift.hash128 w v seed = pure (compact128 (ofList c) c.length seed) := by
  have hR := reads w h hhi
  rw [Ports.Swift.hash128, h.len]
  exact hash128Impl_eq hR (fun hn => tailFromCursor_eq hR hn) seed

section Ranges
variable {r : Range} {bs : List Byte} (h : r.IsInt w)
include h

theorem range_eq (hbs : r.bytes = some bs) :
    range w r.data r.offset r.length = pure ⟨r.data, r.offset, r.length⟩ := by
  obtain ⟨h0, h1, h2, -⟩ := shows_range h hbs
  have hmax := h.1
  rw [range, if_pos ⟨h0, h1, by omega⟩, w.signed_upto.sub (by omega) (by omega), pure_bind,
    if_pos (by omega), w.signed_upto.add (by omega) (by omega), pure_bind, part_range hbs]

theorem range_none (hbs : r.bytes = none) : range w r.data r.offset r.length = throw .bounds := by
  have hmax := h.1
  unfold Range.bytes at hbs
  split_ifs at hbs with hvalid
  unfold range
  by_cases hpos : r.offset ≥ 0 ∧ r.length ≥ 0 ∧ r.offset ≤ r.data.length
  · rw [if_pos hpos, w.signed_upto.sub (by omega) (by omega), pure_bind, if_neg (by omega)]
  · rw [if_neg hpos]

theorem hash64Range_eq (hbs : r.bytes = some bs) (seed : Word) :
    hash64Range w r.data r.offset r.length seed = pure (compact64 (ofList bs) bs.length seed) := by
  rw [hash64Range, range_eq w h hbs, pure_bind, hash64_eq w (shows_range h hbs).2.2.2 le_rfl]

theorem hash128Range_eq (hbs : r.bytes = some bs) (seed : Word) :
    hash128Range w r.data r.offset r.length seed =
      pure (compact128 (ofList bs) bs.length seed) := by
  rw [hash128Range, range_eq w h hbs, pure_bind, hash128_eq w (shows_range h hbs).2.2.2 le_rfl]

theorem hash64Range_none (hbs : r.bytes = none) (seed : Word) :
    hash64Range w r.data r.offset r.length seed = throw .bounds := by
  rw [hash64Range, range_none w h hbs]
  rfl

theorem hash128Range_none (hbs : r.bytes = none) (seed : Word) :
    hash128Range w r.data r.offset r.length seed = throw .bounds := by
  rw [hash128Range, range_none w h hbs]
  rfl

end Ranges

/-! ### Hasher -/

/-- The reader of a part of a buffer, with indices into the whole of it. -/
def within (p : View) (off count : ℤ) : Reader :=
  { reader w (wrapping w) p with
    fromStart := fun k => pure (off + k), fromEnd := fun k => pure (off + count - k) }

theorem reads_within {pre post : List Byte} (h : Shows hi v (pre ++ (c ++ post)))
    (hhi : hi ≤ w.maxInt) :
    Reads (within w v pre.length c.length) (ofList c) pre.length c.length := by
  have hmax := len_le w h hhi
  have hlen := h.len
  rw [List.length_append, List.length_append] at hlen
  exact reads_of_shows h ((wrapping_upto w).mono (by omega))
    (fun h0 h1 => load64_eq (by omega) hmax (by omega))
    (fun h0 h1 => load32_eq (by omega) hmax (by omega)) (fun _ _ => rfl) (fun _ _ => rfl)
    (fun _ _ => rfl) mixers_eq

theorem block_within (off count : ℤ) : block (within w v off count) =
    block (reader w (wrapping w) v) := rfl

theorem restRound_within (off count : ℤ) : restRound (within w v off count) =
    restRound (reader w (wrapping w) v) := rfl

/-- **`absorbBlocks`**, of the bytes `c` in a buffer. -/
theorem absorbBlocks_eq {pre post : List Byte} {k : ℕ} (h : Shows hi v (pre ++ (c ++ post)))
    (hhi : hi ≤ w.maxInt) (hk : c.length = 64 * k) (s : Lanes8 × Word) :
    absorbBlocks w v pre.length (64 * k : ℕ) s = pure (absorb c s) := by
  have hle := h.le
  rw [List.length_append, List.length_append] at hle
  have hI : (wrapping w).Upto (pre.length + c.length) := (wrapping_upto w).mono (by omega)
  have hf := takesBlocks_block (reads_within w h hhi)
  rw [block_within] at hf
  rw [absorbBlocks, ← hk]
  simp only [hI.add (a := pre.length) (b := c.length) (by omega) (by omega), pure_bind]
  exact untilLt_absorb id hI (by omega) hf hk (by omega) s

theorem copyIn_eq {buf : List Byte} {b : ℕ} (h : Shows hi v c) (hhi : hi ≤ w.maxInt) {k : ℕ}
    (hk : k ≤ c.length) (hbuf : buf.length ≤ w.maxInt) (hfit : b + k ≤ buf.length) :
    copyIn w buf v.data v.off k b = pure (spliced buf b (c.take k)) := by
  have hlen := h.len
  have hoff := h.valid.off
  have hfin := h.valid.fin
  have hdata := h.fits
  unfold copyIn
  by_cases h0 : k = 0
  · subst h0
    rw [if_pos Nat.cast_zero, List.take_zero, spliced, List.append_nil, List.length_nil, add_zero,
      List.take_append_drop]
  · have hsrc : (v.data.drop v.off.toNat).take k = c.take k := by
      rw [← h.bytes, View.bytes, List.take_take, Nat.min_eq_left (by omega)]
    have hcount : (v.off + (k : ℤ) - v.off).toNat = k := by omega
    have htake : (c.take k).length = k := by
      rw [List.length_take]
      omega
    rw [if_neg (by omega), w.signed_upto.add (by omega) (by omega), pure_bind,
      View.part_eq hoff (by omega) (by simp only [View.all]; omega), pure_bind,
      w.signed_upto.add (by omega) (by omega), pure_bind,
      View.part_eq (by omega) (by omega) (by simp only [View.all]; omega), pure_bind]
    dsimp only [View.all]
    rw [if_pos (by omega), zero_add, zero_add, View.bytes]
    dsimp only
    rw [hcount, hsrc]
    exact blit_eq (by omega)

theorem lawful : Lawful (port w) id id w.maxInt where
  cap := cap_le w
  ints := w.signed_upto
  addTotal x n := by simp [port]
  fits b n hb _ := fits_sub w.signed_upto (cap_le w) b n hb
  blocks {v} k s hv hfits hk := by
    have hshows : Shows w.maxInt v v.bytes := ⟨hv, hfits, rfl⟩
    have hlen := hshows.len
    obtain ⟨pre, post, hoff, hblocks, hin⟩ := hshows.blocksIn (k := k) (by omega)
    simp only [port, hoff]
    exact absorbBlocks_eq w hin le_rfl hblocks s
  skip {v} k hv hfits hk := by
    have hoff := hv.off
    have hfin := hv.fin
    simp only [port]
    rw [w.signed_upto.add (by omega) (by omega), pure_bind, w.signed_upto.sub (by omega) (by omega),
      pure_bind]
    rfl
  copyIn {buf v} b k hbuf hv hfits hk hfit := by
    have hshows : Shows w.maxInt v v.bytes := ⟨hv, hfits, rfl⟩
    have hlen := hshows.len
    have hcap := cap_le w
    exact copyIn_eq w hshows le_rfl (by omega) (by omega) (by omega)
  moveDown {buf} src len hbuf hfit := by
    have hcap := cap_le w
    simp only [port, Int.toNat_natCast]
    exact moveForwards_eq ((wrapping_upto w).mono (by omega)) (by omega)

/-- **`finish`**: the blocks, the round and the tail of what is buffered. -/
theorem finish_eq {st : Hasher} {a : Absorber} (h : Stands id id st a)
    (hkeep : C.Stream.keep ≤ a.held.length) : finish w st =
      pure (Absorber.restLanes (ofList a.held) a.held.length a.lanes) := by
  have hcap := cap_le w
  have hwhole := h.whole
  have hR := reads_within w hwhole hcap
  have hk : 64 * (a.held.length / 64) ≤ a.held.length := by omega
  -- the buffer, cut behind its whole blocks
  have hcut : a.held ++ st.buf.drop a.held.length = a.held.take (64 * (a.held.length / 64)) ++
      (a.held.drop (64 * (a.held.length / 64)) ++ st.buf.drop a.held.length) := by
    rw [← List.append_assoc, List.take_append_drop]
  have hblocks : absorbBlocks w (.all st.buf) 0 (64 * (a.held.length / 64) : ℕ) a.lanes =
      pure (blocks (ofList a.held) (a.held.length / 64) 0 a.lanes) := by
    rw [← absorb_take hk]
    rw [hcut] at hwhole
    have hwhole' : Shows bufcap _ ([] ++ (_ ++ _)) := hwhole
    exact absorbBlocks_eq w hwhole' hcap (length_blocks hk) a.lanes
  have hleft : (a.held.length : ℤ) - (64 * (a.held.length / 64) : ℕ) =
    (a.held.length % 64 : ℕ) := by
    omega
  have hle := h.held_le
  have hround := restRound_eq hR (w.signed_upto.mono (by omega))
    (by unfold C.Stream.keep at hkeep; omega)
    (blocks (ofList a.held) (a.held.length / 64) 0 a.lanes)
  rw [restRound_within] at hround
  unfold finish
  simp only [h.nbuf, h.lanes, id, wholeBlocks_eq]
  rw [hblocks, pure_bind, w.signed_upto.sub (by omega) (by omega), pure_bind, hleft]
  exact hround

theorem finishes : Finishes (tail w) id where
  mix := mixers_eq
  held {st a} h _ _ := by
    have hrange := range_of_shows w (shows_held h) (cap_le w)
    simp only [tail, h.nbuf]
    exact .of_eq (range_eq w hrange.1 hrange.2) (shows_held h)
  hash64 seed h := hash64_eq w h (cap_le w) seed
  hash128 seed h := hash128_eq w h (cap_le w) seed
  rest h hkeep := finish_eq w h hkeep

theorem init_stands (seed : Word) : Stands id id (init seed) (.init seed) :=
  fresh_stands id id seed List.length_replicate

/-- **`Hasher` is faithful**, for buffers as long as an `Int` can say. -/
theorem faithful : Faithful (hasher w) (.plain fun r s => r.getD s) (fun p => p.length ≤ w.maxInt)
    (Stands id id) := by
  refine faithful_of_lawful (lawful w) (finishes w) rfl rfl init_stands ?_
    (fun _ _ hbs => by cases hbs) (fun _ => rfl) (fun _ => rfl) ?_
  · intro c bs st hok hbs
    obtain rfl := Option.some.inj hbs
    exact ⟨.all c, shows_all hok, rfl⟩
  · intro st a r h
    cases r with
    | some seed => exact init_stands seed
    | none =>
      have hseed : a.seed = st.seed := h.seed.symm
      rw [hseed]
      exact init_stands st.seed

end Hayahash.Refine.Swift
