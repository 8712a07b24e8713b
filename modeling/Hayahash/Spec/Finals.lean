import Hayahash.C.Mixers
import Hayahash.Spec.Reference

/-! # The short path and the finalizers, inverted

The words of a short key determine its bytes (`shortWords_inj`), the products determine the words,
and the two output words determine the products (`short128_inj`). In the folds of a long key, `t0`
alone or `t1` alone determines each of the two output words (`longmix_t0`, `longmix_t1`). -/

namespace Hayahash.Spec.Finals

open Hayahash.Lib.ReadProg Hayahash.Lib.Bytes Hayahash.Lib.Bits Hayahash.C.Primitives
open Hayahash.C.Mixers Hayahash.C.Walk Hayahash.C.Oneshot Hayahash.Spec.Reference
open Function (Bijective Injective)

variable {m m' : Mem Byte} {n : ℕ}

/-! ### The words of a short key -/

theorem packed_inj {x y x' y' : Byte}
    (h : (x.setWidth 64 <<< 8) ||| (y.setWidth 64 <<< 16) =
      (x'.setWidth 64 <<< 8) ||| (y'.setWidth 64 <<< 16)) : x = x' ∧ y = y' := by
  have hbit : ∀ i, ((x.setWidth 64 <<< 8) ||| (y.setWidth 64 <<< 16) : Word).getLsbD i =
      ((x'.setWidth 64 <<< 8) ||| (y'.setWidth 64 <<< 16) : Word).getLsbD i := fun i => by rw [h]
  constructor
  · refine BitVec.eq_of_getLsbD_eq fun i hi => ?_
    have hlow := hbit (8 + i)
    have h64 : 8 + i < 64 := by omega
    have h16 : 8 + i < 16 := by omega
    simpa [hi, h64, h16] using hlow
  · refine BitVec.eq_of_getLsbD_eq fun i hi => ?_
    have hhigh := hbit (16 + i)
    have h64 : 16 + i < 64 := by omega
    have h16 : ¬16 + i < 16 := by omega
    have hsub : 16 + i - 8 = 8 + i := by omega
    simpa [hi, h64, h16, hsub] using hhigh

theorem setWidth_inj {v w : ℕ} (hv : v ≤ w) {x y : BitVec v} (h : x.setWidth w = y.setWidth w) :
    x = y := by
  refine BitVec.eq_of_getLsbD_eq fun i hi => ?_
  have hbit := congrArg (·.getLsbD i) h
  have hw : i < w := by omega
  simpa [hw] using hbit

/-- **The two words of a short key determine it.** -/
theorem shortWords_inj (hn : n ≤ 16) (ha : shortA m n = shortA m' n) (hb : shortB m n = shortB m' n)
    {i : ℤ} (h0 : 0 ≤ i) (hi : i < n) : m i = m' i := by
  unfold shortA at ha
  unfold shortB at hb
  by_cases h8 : 8 ≤ n
  · rw [if_pos h8, if_pos h8] at ha hb
    by_cases hlt : i < 8
    · exact word64_inj ha h0 (by omega)
    · exact word64_inj hb (by omega) (by omega)
  rw [if_neg h8, if_neg h8] at ha hb
  by_cases h4 : 4 ≤ n
  · rw [if_pos h4, if_pos h4] at ha hb
    by_cases hlt : i < 4
    · exact word32_inj (setWidth_inj (by decide) ha) h0 (by omega)
    · exact word32_inj (setWidth_inj (by decide) hb) (by omega) (by omega)
  rw [if_neg h4, if_neg h4, if_pos (by omega), if_pos (by omega)] at ha hb
  -- at most three bytes: the first, the middle one and the last
  obtain ⟨hmid, hlast⟩ := packed_inj hb
  by_cases hi0 : i = 0
  · rw [hi0]
    exact setWidth_inj (by decide) ha
  by_cases hi1 : i = n / 2
  · rw [hi1]
    exact hmid
  · have hi2 : i = n - 1 := by omega
    rw [hi2]
    exact hlast

/-! ### The products -/

theorem shortX_bijective (s : Word) : Bijective fun a => shortX a s :=
  (mul_bijective K_mul_inv).comp ((xor_bijective K).comp ((xor_bijective s).comp inj_bijective))

theorem shortY_bijective (s : Word) : Bijective fun b => shortY b s :=
  (mul_bijective M1_mul_inv).comp ((xor_bijective (K >>> 19)).comp
    ((xor_bijective (rotl s 23)).comp inj2_bijective))

theorem shortX_seed_injective (a : Word) : Injective fun s => shortX a s := by
  intro s s' h
  have hs : inj a ^^^ s ^^^ K = inj a ^^^ s' ^^^ K := (mul_bijective K_mul_inv).1 h
  simpa using hs

/-- The input of the finalizer, as a function of either product. -/
theorem shortU_bijective_left (y : Word) (n : ℕ) : Bijective fun x => shortU x y n :=
  (xor_bijective _).comp ((xor_bijective y).comp (rotl_bijective (by decide)))

theorem xor_bijective_mid (c lm : Word) : Bijective fun y => c ^^^ y ^^^ lm := by
  have : (fun y => c ^^^ y ^^^ lm) = fun y => y ^^^ c ^^^ lm := by
    funext y
    rw [BitVec.xor_comm c]
  rw [this]
  exact (xor_bijective lm).comp (xor_bijective c)

theorem shortU_bijective_right (x : Word) (n : ℕ) : Bijective fun y => shortU x y n :=
  xor_bijective_mid _ _

/-! ### The two output words of a short key -/

/-- **The two output words determine the two products.** -/
theorem short128_inj {x y x' y' lm : Word} (h : short128 x y lm = short128 x' y' lm) :
    x = x' ∧ y = y' := by
  have hu : rotl x 27 ^^^ y ^^^ lm = rotl x' 27 ^^^ y' ^^^ lm :=
    fmix_bijective.1 (congrArg Hash128.lo h)
  have hhi : x + rotl (rotl x 27 ^^^ y ^^^ lm) 32 = x' + rotl (rotl x' 27 ^^^ y' ^^^ lm) 32 :=
    fmix128_bijective.1 (congrArg Hash128.hi h)
  have hx : x = x' := by
    rw [hu] at hhi
    exact (add_bijective _).1 hhi
  subst hx
  exact ⟨rfl, by simpa using hu⟩

/-- **Every pair of output words has its products.** -/
theorem short128_surj (lm : Word) (H : Hash128) : ∃ x y, short128 x y lm = H := by
  obtain ⟨u, hu⟩ := fmix_bijective.2 H.lo
  obtain ⟨v, hv⟩ := fmix128_bijective.2 H.hi
  obtain ⟨x, hx⟩ := (add_bijective (rotl u 32)).2 v
  obtain ⟨y, hy⟩ := (xor_bijective_mid (rotl x 27) lm).2 u
  refine ⟨x, y, Hash128.ext ?_ ?_⟩
  · show fmix (rotl x 27 ^^^ y ^^^ lm) = _
    rw [← hu, ← hy]
  · show fmix128 (x + rotl (rotl x 27 ^^^ y ^^^ lm) 32) = _
    rw [← hv, ← hx, ← hy]

theorem compact64_short (m : Mem Byte) (hn : n ≤ 16) (seed : Word) :
    compact64 m n seed = fmix (shortU (shortX (shortA m n) (seed ^^^ K))
      (shortY (shortB m n) (seed ^^^ K)) n) := by
  rw [compact64, if_pos hn]

theorem compact128_short (m : Mem Byte) (hn : n ≤ 16) (seed : Word) :
    compact128 m n seed = short128 (shortX (shortA m n) (seed ^^^ K))
      (shortY (shortB m n) (seed ^^^ K)) (lenmix n) := by
  rw [compact128, compact64, compactHi, if_pos hn, if_pos hn]
  rfl

/-! ### The length -/

/-- **Lengths below `2 ^ 64` enter as different words.** -/
theorem lenmix_inj {n n' : ℕ} (hn : n < 2 ^ 64) (hn' : n' < 2 ^ 64) (h : lenmix n = lenmix n') :
    n = n' := by
  have hofNat := (mul_bijective K_mul_inv).1 h
  rw [BitVec.ofInt_natCast, BitVec.ofInt_natCast] at hofNat
  have := congrArg BitVec.toNat hofNat
  rwa [BitVec.toNat_ofNat, BitVec.toNat_ofNat, Nat.mod_eq_of_lt hn, Nat.mod_eq_of_lt hn'] at this

/-- For given lanes, the length is what `t0` depends on. -/
theorem foldT0_lenmix_inj {h : Lanes4} {l l' : Word} (he : foldT0 h l = foldT0 h l') : l = l' := by
  have hx : h.h0 ^^^ rotl h.h1 13 ^^^ l = h.h0 ^^^ rotl h.h1 13 ^^^ l' :=
    (mul_bijective K_mul_inv).1 he
  simpa using hx

/-! ### The folds -/

theorem compact128_long (m : Mem Byte) (hn : 16 < n) (seed : Word) :
    compact128 m n seed = longmix128 (seed ^^^ K)
      (foldT0 (foldLanes m n (seed ^^^ K)) (lenmix n)) (foldT1 (foldLanes m n (seed ^^^ K))) K := by
  rw [compact128, compact64, compactHi, if_neg (by omega), if_neg (by omega)]
  rfl

/-- With `t1` fixed, each output word determines `t0`. -/
theorem longmix_t0 {s t0 t0' t1 : Word}
    (h : (longmix128 s t0 t1 K).lo = (longmix128 s t0' t1 K).lo ∨
      (longmix128 s t0 t1 K).hi = (longmix128 s t0' t1 K).hi) : t0 = t0' := by
  rcases h with h | h
  · have := longFmix_bijective.1 h
    simpa using this
  · have hx := fmix128_bijective.1 h
    have hr : t1 + rotl t0 47 = t1 + rotl t0' 47 := by simpa using hx
    exact rotl_inj (by decide) ((BitVec.add_right_inj t1).mp hr)

/-- With `t0` fixed, each output word determines `t1`. -/
theorem longmix_t1 {s t0 t1 t1' : Word}
    (h : (longmix128 s t0 t1 K).lo = (longmix128 s t0 t1' K).lo ∨
      (longmix128 s t0 t1 K).hi = (longmix128 s t0 t1' K).hi) : t1 = t1' := by
  rcases h with h | h
  · have := longFmix_bijective.1 h
    have hr : rotl t1 29 = rotl t1' 29 := by simpa using this
    exact rotl_inj (by decide) hr
  · have hx := fmix128_bijective.1 h
    have hr : t1 + rotl t0 47 = t1' + rotl t0 47 := by simpa using hx
    exact (add_bijective _).1 hr

end Hayahash.Spec.Finals
