import Hayahash.Refine.Oneshot
import Hayahash.Spec.Finals

/-! # Short keys

**`short_keys`**: the 128-bit hash does not collide on keys of one length up to 16, it permutes the
keys of 16 bytes, and with one half of such a key fixed the 64-bit hash permutes the other. -/

namespace Hayahash.Main.Short

open Hayahash.Lib.ReadProg Hayahash.Lib.Bytes Hayahash.C.Primitives Hayahash.C.Mixers
open Hayahash.C.Walk Hayahash.C.Oneshot Hayahash.Spec.Reference Hayahash.Spec.Finals
open Hayahash.Refine.Oneshot
open Function (Bijective)

variable {n : ℕ}

theorem compact128_inj (seed : Word) (hn : n ≤ 16) {xs ys : List Byte} (hx : xs.length = n)
    (hy : ys.length = n) (h : compact128 (ofList xs) n seed = compact128 (ofList ys) n seed) :
    xs = ys := by
  rw [compact128_short _ hn, compact128_short _ hn] at h
  obtain ⟨hX, hY⟩ := short128_inj h
  have ha := (shortX_bijective _).1 hX
  have hb := (shortY_bijective _).1 hY
  exact ofList_inj (hx.trans hy.symm) fun i hi =>
    shortWords_inj hn ha hb (by omega) (by omega)

theorem short_words_16 (m : Mem Byte) : shortA m 16 = word64 m 0 ∧ shortB m 16 = word64 m 8 :=
  ⟨rfl, rfl⟩

/-- The hash of the key of two words. -/
def pairHash (seed : Word) (ab : Word × Word) : Hash128 :=
  short128 (shortX ab.1 (seed ^^^ K)) (shortY ab.2 (seed ^^^ K)) (lenmix 16)

theorem pairHash_bijective (seed : Word) : Bijective (pairHash seed) := by
  refine ⟨fun ab ab' h => ?_, fun H => ?_⟩
  · obtain ⟨hX, hY⟩ := short128_inj h
    exact Prod.ext ((shortX_bijective _).1 hX) ((shortY_bijective _).1 hY)
  · obtain ⟨x, y, rfl⟩ := short128_surj (lenmix 16) H
    obtain ⟨a, rfl⟩ := (shortX_bijective (seed ^^^ K)).2 x
    obtain ⟨b, rfl⟩ := (shortY_bijective (seed ^^^ K)).2 y
    exact ⟨(a, b), rfl⟩

/-- A pair of words as an output. -/
def hashEquiv : Hash128 ≃ Word × Word where
  toFun H := (H.lo, H.hi)
  invFun p := ⟨p.1, p.2⟩
  left_inv _ := rfl
  right_inv _ := rfl

/-- The 64-bit hash of the key of two words. -/
def halfHash (seed a b : Word) : Word :=
  fmix (shortU (shortX a (seed ^^^ K)) (shortY b (seed ^^^ K)) 16)

theorem halfHash_bijective_left (seed b : Word) : Bijective fun a => halfHash seed a b :=
  fmix_bijective.comp ((shortU_bijective_left _ 16).comp (shortX_bijective _))

theorem halfHash_bijective_right (seed a : Word) : Bijective fun b => halfHash seed a b :=
  fmix_bijective.comp ((shortU_bijective_right _ 16).comp (shortY_bijective _))

/-- **Short keys.** On every platform and for every seed: keys of one length up to 16 have different
128-bit hashes; on keys of 16 bytes, read as two little-endian words, the hash is a permutation of
the pairs of words; and with either word fixed `hayahash64` is a permutation of the other. -/
theorem short_keys (t : Target) (seed : Word) :
    (∀ n ≤ 16, ∀ xs ys : List Byte, xs.length = n → ys.length = n →
      value (ofList xs) (hayahash128 t n seed) = value (ofList ys) (hayahash128 t n seed) →
      xs = ys) ∧
    (∃ f : Equiv.Perm (Word × Word), ∀ m : Mem Byte, value m (hayahash128 t 16 seed) =
      some (hashEquiv.symm (f (word64 m 0, word64 m 8)))) ∧
    (∀ b, ∃ f : Equiv.Perm Word, ∀ m : Mem Byte, word64 m 8 = b →
      value m (hayahash64 t 16 seed) = some (f (word64 m 0))) ∧
    ∀ a, ∃ f : Equiv.Perm Word, ∀ m : Mem Byte, word64 m 0 = a →
      value m (hayahash64 t 16 seed) = some (f (word64 m 8)) := by
  have h64 : ∀ m, value m (hayahash64 t 16 seed) = some (compact64 m 16 seed) := fun m =>
    Nat.cast_ofNat (R := ℤ) (n := 16) ▸ (runs_hayahash64 t m 16 seed).value_eq
  have h128 : ∀ m, value m (hayahash128 t 16 seed) = some (compact128 m 16 seed) := fun m =>
    Nat.cast_ofNat (R := ℤ) (n := 16) ▸ (runs_hayahash128 t m 16 seed).value_eq
  refine ⟨fun n hn xs ys hx hy h => ?_, ?_, fun b => ?_, fun a => ?_⟩
  · rw [(runs_hayahash128 t _ n seed).value_eq, (runs_hayahash128 t _ n seed).value_eq] at h
    exact compact128_inj seed hn hx hy (Option.some.inj h)
  · refine ⟨(Equiv.ofBijective _ (pairHash_bijective seed)).trans hashEquiv, fun m => ?_⟩
    rw [h128, compact128_short m le_rfl, (short_words_16 m).1, (short_words_16 m).2]
    rfl
  · refine ⟨Equiv.ofBijective _ (halfHash_bijective_left seed b), fun m hm => ?_⟩
    rw [h64, compact64_short m le_rfl, (short_words_16 m).1, (short_words_16 m).2, hm]
    rfl
  · refine ⟨Equiv.ofBijective _ (halfHash_bijective_right seed a), fun m hm => ?_⟩
    rw [h64, compact64_short m le_rfl, (short_words_16 m).1, (short_words_16 m).2, hm]
    rfl

/-- Two keys of three bytes. -/
theorem short_keys_three :
    value (ofList [1, 2, 3]) (hayahash128 ⟨.x86_64, .gcc, false, .little, .w64⟩ 3 7) ≠
      value (ofList [1, 2, 4]) (hayahash128 ⟨.x86_64, .gcc, false, .little, .w64⟩ 3 7) :=
  fun h => absurd ((short_keys _ 7).1 3 (by decide) [1, 2, 3] [1, 2, 4] rfl rfl h) (by decide)

end Hayahash.Main.Short
