import Hayahash.Ports.Zig
import Hayahash.Refine.Session

/-! # The Zig port does what the machine does -/

namespace Hayahash.Refine.Zig

open Hayahash.Lib.ReadProg Hayahash.Lib.Bytes Hayahash.Lib.Checked Hayahash.Lib.Arrays
open Hayahash.Spec.Reference Hayahash.Spec.Machine Hayahash.Ports.Walk Hayahash.Ports.Stream
open Hayahash.Ports.Session Hayahash.Ports.Zig Hayahash.Refine.PortWalk
open Hayahash.Refine.PortStream Hayahash.Refine.Session
open Hayahash.C.Primitives (Word Lanes8)
open Hayahash.C.Stream (bufcap)

variable (w : Width) {v : View} {c : List Byte} {hi : ℕ}

theorem upto (hhi : hi ≤ 2 * w.maxInt + 1) : w.unsigned.Upto hi := w.unsigned_upto.mono (by omega)

theorem isize_le : w.maxInt ≤ 2 * w.maxInt + 1 := by omega

/-! ### Mixers -/

theorem mixers_eq : mixers = .header := by
  have hrotl : Ports.Zig.rotl = C.Primitives.rotl := shiftRotl_eq
  unfold mixers inj inj2 iv
  rw [hrotl]
  rfl

theorem K_eq : K = C.Primitives.K := congrArg Mixers.k mixers_eq

/-! ### One-shot -/

theorem window_eq {i n : ℤ} (h0 : 0 ≤ i) (h1 : 0 ≤ n) (h : i + n ≤ v.len) :
    window v i n = v.part i (i + n) := View.suffix_part h0 h1 h

theorem load64le_eq {i : ℤ} (h0 : 0 ≤ i) (hi : i + 8 ≤ v.len) : load64le v i = v.read64 i := by
  rw [load64le, window_eq h0 (by decide) hi, View.part_read64 h0 hi]

theorem load32le_eq {i : ℤ} (h0 : 0 ≤ i) (hi : i + 4 ≤ v.len) :
    load32le v i = do return (← v.read32 i).setWidth 64 := by
  rw [load32le, window_eq h0 (by decide) hi, ← View.part_read32 h0 hi, bind_assoc]

theorem reads (h : Shows hi v c) (hhi : hi ≤ 2 * w.maxInt + 1) :
    Reads (reader w v) (ofList c) 0 c.length := by
  have hlen := h.len
  have hle := h.le
  have hints := upto w hhi
  exact reads_of_all h hints load64le_eq load32le_eq (fun _ _ => rfl) (fun _ => rfl)
    (fun _ _ => hints.sub (by omega) (by omega)) mixers_eq

theorem hash_eq (wide : Bool) (h : Shows hi v c) (hhi : hi ≤ 2 * w.maxInt + 1) (seed : Word) :
    Ports.Zig.hash w wide v seed = pure ⟨(compact128 (ofList c) c.length seed).lo,
      if wide then (compact128 (ofList c) c.length seed).hi else 0⟩ := by
  have hR := reads w h hhi
  rw [Ports.Zig.hash, h.len, K_eq, hash128Impl_eq hR (fun hn => tailFromLength_eq hR hn), pure_bind]

/-- **`hayahash64` is the hash of the slice.** -/
theorem hayahash64_eq (h : Shows hi v c) (hhi : hi ≤ 2 * w.maxInt + 1) (seed : Word) :
    hayahash64 w v seed = pure (compact64 (ofList c) c.length seed) := by
  rw [hayahash64, hash_eq w false h hhi, pure_bind, compact128_lo]

/-- **`hayahash128` is the hash of the slice.** -/
theorem hayahash128_eq (h : Shows hi v c) (hhi : hi ≤ 2 * w.maxInt + 1) (seed : Word) :
    hayahash128 w v seed = pure (compact128 (ofList c) c.length seed) := by
  rw [hayahash128, hash_eq w true h hhi, if_pos rfl]

/-! ### Hasher -/

theorem memcpy_eq {dst : List Byte} {lo : ℕ} (h : Shows hi v c)
    (hfit : lo + c.length ≤ dst.length) : memcpy dst lo c.length v = pure (spliced dst lo c) := by
  have hlen := h.len
  rw [memcpy, window_eq (by omega) (by omega) (by simp only [View.all]; omega),
    View.part_eq (by omega) (by omega) (by simp only [View.all]; omega), pure_bind]
  simp only [View.all, zero_add]
  rw [if_pos (by omega), h.bytes]
  exact blit_eq hfit

theorem copyForwards_eq {a : List Byte} {src len : ℕ} (h : src + len ≤ a.length) :
    copyForwards a src len = pure (spliced a 0 ((a.drop src).take len)) := by
  rw [copyForwards, View.part_eq le_rfl (by omega) (by simp only [View.all]; omega), pure_bind,
    window_eq (by omega) (by omega) (by simp only [View.all]; omega),
    View.part_eq (by omega) (by omega) (by simp only [View.all]; omega), pure_bind,
    Int.toNat_natCast]
  exact moveForwards_eq (Ints.exact_upto _) h

theorem lawful : Lawful (port w) arrayed id w.maxInt where
  cap := cap_le w
  ints := upto w (isize_le w)
  addTotal x n := by simp [port]
  fits b n hb hn := by
    have hcap := cap_le w
    have hadd : w.unsigned.add b n = pure ((b : ℤ) + n) :=
      w.unsigned_upto.add (by omega) (by unfold bufcap at hb hcap; omega)
    have htest : (b + n : ℤ) < bufCap ↔ b + n < bufcap := by
      unfold bufCap bufcap
      omega
    simp only [port, hadd, pure_bind, htest]
  blocks {v} k s hv hfits hk := by
    have hshows : Shows w.maxInt v v.bytes := ⟨hv, hfits, rfl⟩
    have hlen := hshows.len
    exact partBlocks_absorb arrayed hshows (upto w (isize_le w))
      (fun hp => takesBlocks_blockLoop (reads w hp (isize_le w))) (by omega) s
  skip k hv hfits hk := View.suffix_eq (by omega) (by omega)
  copyIn {buf v} b k hbuf hv hfits hk hfit := by
    have hshows : Shows w.maxInt v v.bytes := ⟨hv, hfits, rfl⟩
    have hlen := hshows.len
    have hcap := cap_le w
    have htake : (v.bytes.take k).length = k := by
      rw [List.length_take]
      omega
    rw [← yields_eq]
    refine (hshows.part (Nat.zero_le _) (b := k) (by omega)).bind fun p hp => ?_
    rw [List.drop_zero, Nat.sub_zero] at hp
    have hfit' : b + (v.bytes.take k).length ≤ buf.length := by omega
    have hcopy := memcpy_eq hp hfit'
    rw [htake] at hcopy
    rw [yields_eq]
    exact hcopy
  moveDown {buf} src len hbuf hfit := copyForwards_eq (by omega)

theorem intCast_eq {n : ℕ} (hn : n < bufcap) : intCast w (.ofNat 64 n) = pure (n : ℤ) := by
  have hcap := cap_le w
  have hnat : (BitVec.ofNat 64 n).toNat = n := by
    rw [BitVec.toNat_ofNat, Nat.mod_eq_of_lt]
    unfold bufcap at hn
    omega
  rw [intCast, hnat]
  exact inRange_eq (by omega) (by omega)

theorem finishes : Finishes (tail w) arrayed where
  mix := mixers_eq
  held {st a} h htotal hlt := by
    have htotal' : st.total = .ofNat 64 a.held.length := h.total.trans htotal
    simp only [tail, htotal', intCast_eq w hlt, pure_bind]
    exact h.inUse
  hash64 seed h := hayahash64_eq w h ((cap_le w).trans (isize_le w)) seed
  hash128 seed h := hayahash128_eq w h ((cap_le w).trans (isize_le w)) seed
  rest {st a} h hkeep := by
    rw [← yields_eq]
    simp only [tail, h.nbuf, h.lanes]
    refine h.inUse.bind fun p hp => ?_
    rw [yields_eq]
    exact restLanesLoop_eq (reads w hp ((cap_le w).trans (isize_le w)))
      (by unfold C.Stream.keep at hkeep; omega) _

theorem init_stands (undefined : Vector Byte 448) (seed : Word) :
    Stands arrayed id (init undefined seed) (.init seed) :=
  fresh_stands arrayed id seed undefined.length_toList

/-- **`Hasher` is faithful**, for slices as long as an `isize` can say. -/
theorem faithful : Faithful (hasher w) meaning (fun p => p.length ≤ w.maxInt)
    (Stands arrayed id) := by
  refine faithful_of_lawful (lawful w) (finishes w) rfl rfl (fun s => init_stands s.2 s.1) ?_
    (fun _ _ hbs => by cases hbs) (fun _ => rfl) (fun _ => rfl) fun s _ => init_stands s.2 s.1
  intro c bs st hok hbs
  obtain rfl := Option.some.inj hbs
  exact ⟨.all c, shows_all hok, rfl⟩

end Hayahash.Refine.Zig
