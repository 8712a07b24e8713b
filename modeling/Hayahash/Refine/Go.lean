import Hayahash.Ports.Go
import Hayahash.Refine.Session

/-! # The Go port does what the machine does -/

namespace Hayahash.Refine.Go

open Hayahash.Lib.ReadProg Hayahash.Lib.Bytes Hayahash.Lib.Checked Hayahash.Lib.Arrays
open Hayahash.Spec.Reference Hayahash.Spec.Machine Hayahash.Ports.Walk Hayahash.Ports.Stream
open Hayahash.Ports.Session Hayahash.Ports.Go Hayahash.Refine.PortWalk Hayahash.Refine.PortStream
open Hayahash.Refine.Session
open Hayahash.C.Primitives (Word Lanes8 K)
open Hayahash.C.Stream (bufcap)

variable (w : Width) {v : View} {c : List Byte}

/-! ### Mixers -/

theorem iv_eq : iv = C.Walk.iv8 := by
  have h21 : uint64 (k <<< 21 &&& mask64) = K <<< 21 := by decide
  have h42 : uint64 (k <<< 42 &&& mask64) = K <<< 42 := by decide
  have h9 : uint64 (k <<< 9 &&& mask64) = K <<< 9 := by decide
  have h30 : uint64 (k <<< 30 &&& mask64) = K <<< 30 := by decide
  funext s
  rw [iv, h21, h42, h9, h30, rotateLeft64, shiftRotl_eq]
  rfl

theorem mixers_eq : mixers = .header := by
  unfold mixers inj inj2 rotateLeft64
  rw [iv_eq, shiftRotl_eq]
  rfl

theorem k_eq : uint64 k = K := congrArg Mixers.k mixers_eq

/-! ### One-shot -/

theorem load32le_eq {i : ℤ} (h0 : 0 ≤ i) (hi : i + 4 ≤ v.len) :
    load32le v i = do return (← v.read32 i).setWidth 64 := by
  rw [load32le, ← View.suffix_read32 h0 hi, bind_assoc]

theorem reads {hi : ℕ} (h : Shows hi v c) (hhi : hi ≤ w.maxInt) :
    Reads (reader w v) (ofList c) 0 c.length := by
  have hlen := h.len
  have hle := h.le
  have hints : w.signed.Upto hi := w.signed_upto.mono (by omega)
  exact reads_of_all h hints View.suffix_read64 load32le_eq (fun _ _ => rfl) (fun _ => rfl)
    (fun _ _ => hints.sub (by omega) (by omega)) mixers_eq

/-- **`Hash64` is the hash of the slice.** -/
theorem hash64_eq {hi : ℕ} (h : Shows hi v c) (hhi : hi ≤ w.maxInt) (seed : Word) :
    Ports.Go.hash64 w v seed = pure (compact64 (ofList c) c.length seed) := by
  have hR := reads w h hhi
  rw [Ports.Go.hash64, h.len]
  exact hashImpl_eq hR (fun hn => tailFromLength_eq hR hn) seed

/-- **`Hash128` is the hash of the slice.** -/
theorem hash128_eq {hi : ℕ} (h : Shows hi v c) (hhi : hi ≤ w.maxInt) (seed : Word) :
    hash128 w v seed = pure (compact128 (ofList c) c.length seed) := by
  have hR := reads w h hhi
  rw [hash128, h.len]
  exact hash128Impl_eq hR (fun hn => tailFromLength_eq hR hn) seed

/-! ### Digest -/

theorem copy_eq {hi lo len : ℕ} {dst : List Byte} (h : Shows hi v c)
    (hlen : lo + len ≤ dst.length) (hc : c.length ≤ len) :
    copy dst lo (lo + len : ℕ) v = pure (spliced dst lo c) := by
  have hcount : ((lo + len : ℕ) - (lo : ℤ)).toNat = len := by omega
  rw [copy, View.part_eq (by omega) (by omega) (by simp only [View.all]; omega), pure_bind]
  dsimp only
  rw [hcount, h.bytes, List.take_of_length_le hc]
  simp only [View.all, zero_add]
  exact blit_eq (by omega)

theorem lawful : Lawful (port w) id id w.maxInt where
  cap := cap_le w
  ints := w.signed_upto
  addTotal x n := by simp [port]
  fits b n hb _ := fits_sub w.signed_upto (cap_le w) b n hb
  blocks {v} k s hv hfits hk := by
    have hshows : Shows w.maxInt v v.bytes := ⟨hv, hfits, rfl⟩
    have hlen := hshows.len
    exact partBlocks_absorb id hshows w.signed_upto
      (fun hp => takesBlocks_block (reads w hp le_rfl)) (by omega) s
  skip k hv hfits hk := View.suffix_eq (by omega) (by omega)
  copyIn {buf v} b k hbuf hv hfits hk hfit := by
    have hshows : Shows w.maxInt v v.bytes := ⟨hv, hfits, rfl⟩
    have hlen := hshows.len
    rw [← yields_eq]
    refine (hshows.part (Nat.zero_le _) (b := k) (by omega)).bind fun p hp => ?_
    rw [List.drop_zero, Nat.sub_zero] at hp
    have hroom : ((buf.length : ℕ) : ℤ) = (b + (buf.length - b) : ℕ) := by omega
    rw [yields_eq, hroom]
    exact copy_eq hp (by omega) (by rw [List.length_take]; omega)
  moveDown {buf} src len hbuf hfit := by
    have hge := w.maxInt_ge
    have hshows : Shows bufcap (.all buf) buf := shows_all hbuf.le
    unfold bufcap at hfit
    have hsum : (src : ℤ) + len = (src + len : ℕ) := by omega
    rw [← yields_eq]
    refine .bind_eq (w.signed_upto.add (by omega) (by omega)) ?_
    rw [hsum]
    refine (hshows.part (by omega) (by rw [hbuf]; exact hfit)).bind fun p hp => ?_
    rw [Nat.add_sub_cancel_left] at hp
    have hend : (len : ℤ) = (0 + len : ℕ) := by omega
    rw [yields_eq, hend]
    have hroom : 0 + len ≤ buf.length := by
      rw [hbuf]
      unfold bufcap
      omega
    exact copy_eq hp hroom (by rw [List.length_take]; omega)

theorem finishes : Finishes (finish w) id where
  mix := mixers_eq
  held {st a} h htotal hlt := by
    have hnat : st.total.toNat = a.held.length := by
      rw [h.total, id, htotal, BitVec.toNat_ofNat, Nat.mod_eq_of_lt]
      unfold bufcap at hlt
      omega
    simp only [finish, hnat]
    exact h.inUse
  hash64 seed h := hash64_eq w h (cap_le w) seed
  hash128 seed h := hash128_eq w h (cap_le w) seed
  rest {st a} h hkeep := by
    rw [← yields_eq]
    simp only [finish, h.nbuf, h.lanes]
    refine h.inUse.bind fun p hp => ?_
    rw [yields_eq]
    exact restLanes_eq (reads w hp (cap_le w)) (by unfold C.Stream.keep at hkeep; omega) _

theorem reset64_stands {st : Digest} {a : Absorber} (h : Stands id id st a) (seed : Word) :
    Stands id id (reset64 st seed) (.init seed) := by
  have hfresh := fresh_stands id id seed h.cap
  rw [reset64, iv_eq, k_eq]
  exact hfresh

theorem new_stands (seed : Word) : Stands id id (new seed) (.init seed) := by
  have hfresh := fresh_stands id id seed (List.length_replicate (n := bufcap)
    (a := (0 : Byte)))
  rw [new, reset64, iv_eq, k_eq]
  exact hfresh

/-- **`*Digest` is faithful**, for slices as long as an `int` can say. -/
theorem faithful : Faithful (digest w) (.plain fun r s => r.getD s) (fun p => p.length ≤ w.maxInt)
    (Stands id id) := by
  refine faithful_of_lawful (lawful w) (finishes w) rfl rfl new_stands ?_
    (fun _ _ hbs => by cases hbs) (fun _ => rfl) (fun _ => rfl) ?_
  · intro c bs st hok hbs
    obtain rfl := Option.some.inj hbs
    exact ⟨.all c, shows_all hok, by simp [digest, write]⟩
  · intro st a r h
    cases r with
    | some seed => exact reset64_stands h seed
    | none =>
      have hseed : a.seed = st.seed := h.seed.symm
      rw [hseed]
      exact reset64_stands h st.seed

end Hayahash.Refine.Go
