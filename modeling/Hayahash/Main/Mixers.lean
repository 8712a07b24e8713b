import Hayahash.C.Mixers

/-! # The mixers are bijections

**`mixers`**: a word with two of its rotations, and every xor of distinct rotations whose number is
odd, are bijections on words, an xor of an even number is not; so both injections are, and the three
finalizers. -/

namespace Hayahash.Main.Mixers

open Function (Bijective)
open Hayahash.C.Primitives Hayahash.C.Mixers

/-- **The mixers.** For all amounts `0 < a < b < 64` a word with its rotations by `a` and `b` is a
bijection; an xor of distinct rotations is one exactly when their number is odd; both injections and
all three finalizers are, the one of the long path with its multiplier `K`, and with any other
exactly when that is odd. -/
theorem mixers :
    (∀ a b, 0 < a → a < b → b < 64 → Bijective fun w : Word => w ^^^ rotl w a ^^^ rotl w b) ∧
    (∀ as : List ℕ, (∀ a ∈ as, a < 64) → as.Nodup → (Bijective (xorRotl as) ↔ as.length % 2 = 1)) ∧
    (Bijective inj ∧ Bijective inj2) ∧
    (Bijective fmix ∧ Bijective fmix128 ∧ Bijective fun x => longFmix x K) ∧
    ∀ k : Word, (Bijective fun x => longFmix x k) ↔ k.toNat % 2 = 1 := by
  refine ⟨fun a b _ hab hb => ?_, fun as has _ => ?_, ?_, ?_, longFmix_bijective_iff⟩
  · exact xor_rotl_rotl_bijective (hab.trans hb) hb
  · exact xorRotl_bijective_iff has
  · exact ⟨inj_bijective, inj2_bijective⟩
  · exact ⟨fmix_bijective, fmix128_bijective, longFmix_bijective⟩

/-- Three rotations, and four. -/
theorem mixers_four : (Bijective fun w : Word => w ^^^ rotl w 7 ^^^ rotl w 63) ∧
    Bijective (xorRotl [1, 21, 41]) ∧ ¬Bijective (xorRotl [0, 1, 21, 41]) :=
  ⟨mixers.1 7 63 (by decide) (by decide) (by decide),
    (mixers.2.1 [1, 21, 41] (by decide) (by decide)).mpr rfl,
    fun h => absurd ((mixers.2.1 [0, 1, 21, 41] (by decide) (by decide)).mp h) (by decide)⟩

end Hayahash.Main.Mixers
