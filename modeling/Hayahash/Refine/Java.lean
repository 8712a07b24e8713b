import Hayahash.Ports.Java
import Hayahash.Refine.Session

/-! # The Java port does what the machine does -/

namespace Hayahash.Refine.Java

open Hayahash.Lib.ReadProg Hayahash.Lib.Bytes Hayahash.Lib.Checked Hayahash.Lib.Arrays
open Hayahash.Spec.Reference Hayahash.Spec.Machine Hayahash.Ports.Walk Hayahash.Ports.Stream
open Hayahash.Ports.Session Hayahash.Ports.Java Hayahash.Refine.PortWalk
open Hayahash.Refine.PortStream Hayahash.Refine.Session
open Hayahash.C.Primitives (Word Lanes8)
open Hayahash.C.Stream (bufcap)

variable {v : View} {c : List Byte} {hi : ℕ}

/-! ### Mixers -/

theorem mixers_eq : mixers = .header := rfl

/-! ### One-shot -/

/-- **Only the range is read**: of the array, `key` is what may be read, and the range lies in
it. -/
theorem reads {key : View} {pre post : List Byte}
    (h : Shows hi (.all key.data) (pre ++ (c ++ post)))
    (hhi : hi ≤ int.maxInt) (h0 : key.off ≤ pre.length)
    (h1 : pre.length + c.length ≤ key.off + key.len) :
    Reads (reader key pre.length c.length) (ofList c) pre.length c.length := by
  have hle := h.le
  rw [List.length_append, List.length_append] at hle
  have hints : int.signed.Upto hi := int.signed_upto.mono (by omega)
  have hadd : ∀ k : ℤ, 0 ≤ k → k ≤ c.length → int.signed.add pre.length k = pure (pre.length + k) :=
    fun k hk hk' => hints.add (by omega) (by omega)
  have hlen := h.len
  rw [List.length_append, List.length_append] at hlen
  refine reads_of_shows h hints ?_ ?_ ?_ (fun hk hk' => hadd _ hk hk') ?_ mixers_eq
  · intro i hi hi'
    simp only [reader, Ports.Java.load64]
    rw [View.read64_eq (by omega) (by omega), View.read64_eq (by omega) (by omega)]
    simp [View.all]
  · intro i hi hi'
    simp only [reader, Ports.Java.load32]
    rw [View.read32_eq (by omega) (by omega), View.read32_eq (by omega) (by omega)]
    simp [View.all]
  · intro i hi hi'
    simp only [reader, Ports.Java.load8]
    rw [View.get_eq (by omega) (by omega), View.get_eq (by omega) (by omega)]
    simp [View.all]
  · intro k hk hk'
    simp only [reader, hadd c.length (by omega) le_rfl, pure_bind]
    exact hints.sub (by omega) (by omega)

theorem Shows.inArray (h : Shows hi v c) : ∃ pre post, v.off = (pre.length : ℕ) ∧
    Shows hi (.all v.data) (pre ++ (c ++ post)) := by
  obtain ⟨pre, post, hdata, hoff⟩ := h.split
  have hshows := shows_all h.fits
  exact ⟨pre, post, hoff, by rwa [← hdata]⟩

section Range
variable (key : View) {off len : ℤ} (h : Shows hi ⟨key.data, off, len⟩ c) (hhi : hi ≤ int.maxInt)
  (h0 : key.off ≤ off) (h1 : off + len ≤ key.off + key.len)
include h hhi h0 h1

theorem reads_range : Reads (reader key off len) (ofList c) off c.length := by
  obtain ⟨pre, post, hoff, hin⟩ := Shows.inArray h
  have hlen := h.len
  dsimp only at hoff hlen
  subst hoff hlen
  exact reads hin hhi h0 h1

theorem hashImpl_range (seed : Word) : Ports.Java.hashImpl key off len seed =
    pure (compact64 (ofList c) c.length seed) := by
  have hR := reads_range key h hhi h0 h1
  have hlen : len = c.length := h.len
  rw [hlen] at hR
  rw [Ports.Java.hashImpl, hlen]
  exact hashImpl_eq hR (fun hn => tailFromCursor_eq hR hn) seed

theorem hash128Impl_range (seed : Word) : Ports.Java.hash128Impl key off len seed =
    pure (compact128 (ofList c) c.length seed) := by
  have hR := reads_range key h hhi h0 h1
  have hlen : len = c.length := h.len
  rw [hlen] at hR
  rw [Ports.Java.hash128Impl, hlen]
  exact hash128Impl_eq hR (fun hn => tailFromCursor_eq hR hn) seed

end Range

theorem checkFromIndexSize_eq {r : Range} : checkFromIndexSize r.offset r.length r.data.length =
    if r.bytes.isSome then pure () else throw .bounds := by
  rw [checkFromIndexSize, Range.bytes]
  by_cases h : 0 ≤ r.offset ∧ 0 ≤ r.length ∧ r.offset + r.length ≤ r.data.length
  · simp only [if_pos h, Option.isSome_some, if_true]
  · simp only [if_neg h, Option.isSome_none, Bool.false_eq_true, if_false]

section Ranges
variable {r : Range} {bs : List Byte} (h : r.IsInt int) (hbs : r.bytes = some bs) (seed : Word)
include h hbs

/-- **`hash64` of a range** is the hash of the bytes in it. -/
theorem hash64Range_eq : hash64Range (.all r.data) r.offset r.length seed =
    pure (compact64 (ofList bs) bs.length seed) := by
  obtain ⟨h0, h1, h2, hshows⟩ := shows_range h hbs
  have hcheck := checkFromIndexSize_eq (r := r)
  rw [hbs, Option.isSome_some, if_pos rfl] at hcheck
  rw [hash64Range, View.all, hcheck, pure_bind]
  exact hashImpl_range _ hshows le_rfl h0 (by dsimp only; omega) seed

/-- **`hash128` of a range** is the hash of the bytes in it. -/
theorem hash128Range_eq : hash128Range (.all r.data) r.offset r.length seed =
    pure (compact128 (ofList bs) bs.length seed) := by
  obtain ⟨h0, h1, h2, hshows⟩ := shows_range h hbs
  have hcheck := checkFromIndexSize_eq (r := r)
  rw [hbs, Option.isSome_some, if_pos rfl] at hcheck
  rw [hash128Range, View.all, hcheck, pure_bind]
  exact hash128Impl_range _ hshows le_rfl h0 (by dsimp only; omega) seed

/-- **No more than the range is read.** -/
theorem hash64Range_fenced : hash64Range ⟨r.data, r.offset, r.length⟩ r.offset r.length seed =
    pure (compact64 (ofList bs) bs.length seed) := by
  have hshows := (shows_range h hbs).2.2.2
  have hcheck := checkFromIndexSize_eq (r := r)
  rw [hbs, Option.isSome_some, if_pos rfl] at hcheck
  rw [hash64Range, hcheck, pure_bind]
  exact hashImpl_range _ hshows le_rfl le_rfl le_rfl seed

theorem hash128Range_fenced : hash128Range ⟨r.data, r.offset, r.length⟩ r.offset r.length seed =
    pure (compact128 (ofList bs) bs.length seed) := by
  have hshows := (shows_range h hbs).2.2.2
  have hcheck := checkFromIndexSize_eq (r := r)
  rw [hbs, Option.isSome_some, if_pos rfl] at hcheck
  rw [hash128Range, hcheck, pure_bind]
  exact hash128Impl_range _ hshows le_rfl le_rfl le_rfl seed

end Ranges

section None
variable {r : Range} (hbs : r.bytes = none) (seed : Word) (key : View) (hkey : key.data = r.data)
include hbs hkey

theorem hash64Range_none : hash64Range key r.offset r.length seed = throw .bounds := by
  rw [hash64Range, hkey, checkFromIndexSize_eq, hbs]
  rfl

theorem hash128Range_none : hash128Range key r.offset r.length seed = throw .bounds := by
  rw [hash128Range, hkey, checkFromIndexSize_eq, hbs]
  rfl

end None

section All
variable (h : c.length ≤ int.maxInt) (seed : Word)
include h

theorem hash64_eq : Ports.Java.hash64 c seed = pure (compact64 (ofList c) c.length seed) :=
  hashImpl_range (.all c) (shows_all h) le_rfl le_rfl le_rfl seed

theorem hash128_eq : Ports.Java.hash128 c seed = pure (compact128 (ofList c) c.length seed) :=
  hash128Impl_range (.all c) (shows_all h) le_rfl le_rfl le_rfl seed

end All

/-! ### Hasher -/

theorem shows_front {k : ℕ} (hv : v.Valid) (hfits : v.data.length ≤ hi) (hk : k ≤ v.len) :
    Shows hi ⟨v.data, v.off, k⟩ (v.bytes.take k) := by
  have hoff := hv.off
  have hfin := hv.fin
  refine ⟨⟨hoff, by dsimp only; omega, by dsimp only; omega⟩, hfits, ?_⟩
  rw [View.bytes, View.bytes, List.take_take, Nat.min_eq_left (by omega), Int.toNat_natCast]

/-- **`blocks`**, of the bytes `c` in an array. -/
theorem blocks_eq {data : List Byte} {off : ℤ} {k : ℕ} (h : Shows hi ⟨data, off, (64 * k : ℕ)⟩ c)
    (hhi : hi ≤ int.maxInt) (s : Lanes8 × Word) :
    Ports.Java.blocks data off (64 * k : ℕ) s = pure (absorb c s) := by
  have hlen := h.len
  have hoff := h.valid.off
  have hfin := h.valid.fin
  have hfits := h.fits
  dsimp only at hlen hoff hfin hfits
  have hI : int.signed.Upto (off + c.length) := int.signed_upto.mono (by omega)
  have hR := reads_range (.all data) h hhi hoff (by simp only [View.all]; omega)
  rw [Ports.Java.blocks, hlen, hI.add (by omega) (by omega), pure_bind]
  rw [hlen] at hR
  exact untilNe_absorb id (k := k) hI hoff (takesBlocks_block hR) (by omega) (by omega) s

theorem arraycopy_eq {buf : List Byte} {b k : ℕ} (h : Shows hi ⟨v.data, v.off, k⟩ c)
    (hfit : b + k ≤ buf.length) :
    arraycopy v.data v.off buf b k = pure (spliced buf b c) := by
  have hoff := h.valid.off
  have hfin := h.valid.fin
  have hlen := h.len
  dsimp only at hoff hfin hlen
  have hcount : v.off + (k : ℤ) - v.off = k := by omega
  rw [arraycopy, View.part_eq hoff (by omega) (by simp only [View.all]; omega), pure_bind]
  simp only [View.all, zero_add, hcount]
  rw [h.bytes]
  exact blit_eq (by omega)

theorem lawful : Lawful port id id int.maxInt where
  cap := cap_le int
  ints := int.signed_upto
  addTotal x n := by simp [port]
  fits b n hb _ := fits_sub int.signed_upto (cap_le int) b n hb
  blocks {v} k s hv hfits hk := blocks_eq (shows_front hv hfits hk) le_rfl s
  skip {v} k hv hfits hk := by
    have hoff := hv.off
    have hfin := hv.fin
    simp only [port]
    rw [int.signed_upto.add (by omega) (by omega), pure_bind,
      int.signed_upto.sub (by omega) (by omega), pure_bind]
    rfl
  copyIn b k hbuf hv hfits hk hfit := arraycopy_eq (shows_front hv hfits hk) (by omega)
  moveDown {buf} src len hbuf hfit := by
    have hcap := cap_le int
    have hshows : Shows int.maxInt ⟨buf, src, len⟩ ((buf.drop src).take len) :=
      ⟨⟨by dsimp only; omega, by dsimp only; omega, by dsimp only; omega⟩, by dsimp only; omega,
        rfl⟩
    exact arraycopy_eq (v := ⟨buf, src, len⟩) (b := 0) hshows (by omega)

theorem finishes : Finishes tail id where
  mix := mixers_eq
  held {st a} h htotal hlt := by
    have htotal' : st.total = .ofNat 64 a.held.length := h.total.trans htotal
    simp only [tail, htotal', castInt_eq hlt]
    exact .pure (shows_held h)
  hash64 {v c} seed h := by
    obtain ⟨hok, hbs⟩ := range_of_shows int h (cap_le int)
    exact hash64Range_eq hok hbs seed
  hash128 {v c} seed h := by
    obtain ⟨hok, hbs⟩ := range_of_shows int h (cap_le int)
    exact hash128Range_eq hok hbs seed
  rest {st a} h hkeep := by
    have hcap := h.cap
    have hle := h.held_le
    have hR := reads_range (.all st.buf) (shows_held h) (cap_le int) le_rfl
      (by simp only [View.all]; omega)
    simp only [tail, h.nbuf, h.lanes]
    exact restLanes_eq hR (by unfold C.Stream.keep at hkeep; omega) _

/-! ### Calls -/

theorem reset_stands {st : Hasher} {a : Absorber} (h : Stands id id st a) (seed : Word) :
    Stands id id (reset st seed) (.init seed) :=
  fresh_stands id id seed h.cap

theorem new_stands (seed : Word) : Stands id id (new seed) (.init seed) :=
  fresh_stands id id seed List.length_replicate

/-- **A range that is none is rejected**, and the state stays as it is. -/
theorem update_none {r : Range} (h : r.IsInt int) (hbs : r.bytes = none) (st : Hasher) :
    Ports.Java.update st r = pure (st, [.thrown]) := by
  rw [Ports.Java.update, outside_eq h, pure_bind, hbs]
  rfl

/-- **`Hasher` is faithful.** -/
theorem faithful : Faithful hasher meaning (Range.IsInt int) (Stands id id) := by
  refine faithful_of_lawful lawful finishes rfl rfl new_stands ?_ ?_ (fun _ => rfl)
    (fun _ => rfl) ?_
  · intro r bs st hok hbs
    refine ⟨_, (shows_range hok hbs).2.2.2, ?_⟩
    have hsome : r.bytes = some bs := hbs
    simp only [hasher, Ports.Java.update, outside_eq hok, hsome, pure_bind]
    rfl
  · intro r st hok hbs
    exact update_none hok hbs st
  · intro st a r h
    cases r with
    | some seed => exact reset_stands h seed
    | none =>
      have hseed : a.seed = st.seed := h.seed.symm
      simp only [meaning, Meaning.plain, Option.getD_none, hseed]
      exact reset_stands h st.seed

end Hayahash.Refine.Java
