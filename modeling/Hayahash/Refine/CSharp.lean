import Hayahash.Ports.CSharp
import Hayahash.Refine.Session

/-! # The C# port does what the machine does -/

namespace Hayahash.Refine.CSharp

open Hayahash.Lib.ReadProg Hayahash.Lib.Bytes Hayahash.Lib.Checked Hayahash.Lib.Arrays
open Hayahash.Spec.Reference Hayahash.Spec.Machine Hayahash.Ports.Walk Hayahash.Ports.Stream
open Hayahash.Ports.Session Hayahash.Ports.CSharp Hayahash.Refine.PortWalk
open Hayahash.Refine.PortStream Hayahash.Refine.Session
open Hayahash.C.Primitives (Word Lanes8)
open Hayahash.C.Stream (bufcap)

variable {v : View} {c : List Byte} {hi : ℕ}

/-! ### Mixers -/

theorem mixers_eq : mixers = .header := rfl

/-! ### One-shot -/

theorem load32_eq {i : ℤ} (h0 : 0 ≤ i) (hi : i + 4 ≤ v.len) :
    load32 v i = do return (← v.read32 i).setWidth 64 := by
  rw [load32, ← View.suffix_read32 h0 hi, bind_assoc]

theorem reads (h : Shows hi v c) (hhi : hi ≤ int.maxInt) :
    Reads (reader v) (ofList c) 0 c.length := by
  have hlen := h.len
  have hle := h.le
  have hints : int.signed.Upto hi := int.signed_upto.mono (by omega)
  exact reads_of_all h hints View.suffix_read64 load32_eq (fun _ _ => rfl) (fun _ => rfl)
    (fun _ _ => hints.sub (by omega) (by omega)) mixers_eq

/-- **`Hash64` is the hash of the span.** -/
theorem hash64_eq (h : Shows hi v c) (hhi : hi ≤ int.maxInt) (seed : Word) :
    Ports.CSharp.hash64 v seed = pure (compact64 (ofList c) c.length seed) := by
  have hR := reads h hhi
  rw [Ports.CSharp.hash64, h.len]
  exact hashImpl_eq hR (fun hn => tailFromCursor_eq hR hn) seed

/-- **`Hash128` is the hash of the span.** -/
theorem hash128_eq (h : Shows hi v c) (hhi : hi ≤ int.maxInt) (seed : Word) :
    hash128 v seed = pure (compact128 (ofList c) c.length seed) := by
  have hR := reads h hhi
  rw [hash128, h.len]
  exact hash128Impl_eq hR (fun hn => tailFromCursor_eq hR hn) seed

section Ranges
variable {r : Range} {bs : List Byte} (h : r.IsInt int) (hbs : r.bytes = some bs) (seed : Word)
include h hbs

theorem hash64Range_eq : hash64Range r.data r.offset r.length seed =
    pure (compact64 (ofList bs) bs.length seed) := by
  rw [hash64Range, asSpan, part_range hbs, pure_bind,
    hash64_eq (shows_range h hbs).2.2.2 le_rfl]

theorem hash128Range_eq : hash128Range r.data r.offset r.length seed =
    pure (compact128 (ofList bs) bs.length seed) := by
  rw [hash128Range, asSpan, part_range hbs, pure_bind,
    hash128_eq (shows_range h hbs).2.2.2 le_rfl]

end Ranges

section None
variable {r : Range} (hbs : r.bytes = none) (seed : Word)
include hbs

theorem hash64Range_none : hash64Range r.data r.offset r.length seed = throw .bounds := by
  rw [hash64Range, asSpan, part_none hbs]
  rfl

theorem hash128Range_none : hash128Range r.data r.offset r.length seed = throw .bounds := by
  rw [hash128Range, asSpan, part_none hbs]
  rfl

end None

/-! ### Hasher -/

theorem copyTo_eq {dst : List Byte} {start : ℕ} (h : Shows hi v c)
    (hfit : start + c.length ≤ dst.length) : copyTo v dst start = pure (spliced dst start c) := by
  rw [copyTo, View.suffix_eq (by omega) (by simp only [View.all]; omega), pure_bind, h.bytes]
  simp only [View.dropped, View.all, zero_add]
  exact blit_eq hfit

theorem lawful : Lawful port id id int.maxInt where
  cap := cap_le int
  ints := int.signed_upto
  addTotal x n := by simp [port]
  fits b n hb _ := fits_sub int.signed_upto (cap_le int) b n hb
  blocks {v} k s hv hfits hk := by
    have hshows : Shows int.maxInt v v.bytes := ⟨hv, hfits, rfl⟩
    have hlen := hshows.len
    exact partBlocks_absorb id hshows int.signed_upto
      (fun hp => takesBlocks_block (reads hp le_rfl)) (by omega) s
  skip k hv hfits hk := View.suffix_eq (by omega) (by omega)
  copyIn {buf v} b k hbuf hv hfits hk hfit := by
    have hshows : Shows int.maxInt v v.bytes := ⟨hv, hfits, rfl⟩
    have hlen := hshows.len
    rw [← yields_eq]
    refine (hshows.part (Nat.zero_le _) (b := k) (by omega)).bind fun p hp => ?_
    rw [List.drop_zero, Nat.sub_zero] at hp
    rw [yields_eq]
    exact copyTo_eq hp (by rw [List.length_take]; omega)
  moveDown {buf} src len hbuf hfit := by
    have hsum : (src : ℤ) + len = (src + len : ℕ) := by omega
    rw [← yields_eq]
    simp only [port, asSpan, hsum]
    refine ((shows_all hbuf.le).part (by omega) (by omega)).bind fun p hp => ?_
    rw [Nat.add_sub_cancel_left] at hp
    rw [yields_eq]
    have hfit' : 0 + ((buf.drop src).take len).length ≤ buf.length := by
      rw [List.length_take]
      omega
    exact copyTo_eq hp hfit'

theorem finishes : Finishes tail id where
  mix := mixers_eq
  held {st a} h htotal hlt := by
    have htotal' : st.total = .ofNat 64 a.held.length := h.total.trans htotal
    simp only [tail, asSpan, htotal', castInt_eq hlt, zero_add]
    exact h.inUse
  hash64 seed h := hash64_eq h (cap_le int) seed
  hash128 seed h := hash128_eq h (cap_le int) seed
  rest {st a} h hkeep := by
    rw [← yields_eq]
    simp only [tail, asSpan, h.nbuf, h.lanes, zero_add]
    refine h.inUse.bind fun p hp => ?_
    rw [yields_eq]
    exact restLanes_eq (reads hp (cap_le int)) (by unfold C.Stream.keep at hkeep; omega) _

/-! ### Calls -/

theorem reset_stands {st : Hasher} {a : Absorber} (h : Stands id id st a) (seed : Word) :
    Stands id id (reset st seed) (.init seed) :=
  fresh_stands id id seed h.cap

theorem new_stands (seed : Word) : Stands id id (new seed) (.init seed) :=
  fresh_stands id id seed List.length_replicate

theorem updateRange_eq {r : Range} (h : r.IsInt int) {bs : List Byte} (hbs : r.bytes = some bs)
    (st : Hasher) : updateRange st r = do
      return (← Ports.CSharp.update st ⟨r.data, r.offset, r.length⟩, []) := by
  rw [updateRange, outside_eq h, pure_bind, hbs, asSpan, part_range hbs]
  simp

/-- **`Hasher` is faithful.** -/
theorem faithful : Faithful hasher meaning Input.IsInt (Stands id id) := by
  refine faithful_of_lawful lawful finishes rfl rfl new_stands ?_ ?_ (fun _ => rfl)
    (fun _ => rfl) ?_
  · intro c bs st hok hbs
    cases c with
    | span data =>
      obtain rfl := Option.some.inj hbs
      exact ⟨.all data, shows_all hok, rfl⟩
    | range r => exact ⟨_, (shows_range hok hbs).2.2.2, updateRange_eq hok hbs st⟩
  · intro c st hok hbs
    cases c with
    | span data => cases hbs
    | range r =>
      have hnone : r.bytes = none := hbs
      simp only [hasher, updateRange, outside_eq hok, hnone, pure_bind]
      rfl
  · intro st a r h
    cases r with
    | some seed => exact reset_stands h seed
    | none =>
      have hseed : a.seed = st.seed := h.seed.symm
      simp only [meaning, Meaning.plain, Option.getD_none, hseed]
      exact reset_stands h st.seed

end Hayahash.Refine.CSharp
