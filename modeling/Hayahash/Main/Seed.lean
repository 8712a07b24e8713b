import Hayahash.Refine.Oneshot
import Hayahash.Spec.Finals
import Hayahash.Spec.Observe

/-! # The seed is never erased

**`seed_never_erased`**: on the short path the 128-bit hash determines the seed, and on a longer key
every lane that leaves the absorb phase is a bijective function of the seed, whatever the key. A
lane never sees another lane before the folds, so each step of each loop composes a bijection that
depends only on the key. -/

namespace Hayahash.Main.Seed

open Hayahash.Lib.ReadProg Hayahash.Lib.Bytes Hayahash.Lib.Bits Hayahash.Lib.Walk
open Hayahash.C.Primitives Hayahash.C.Mixers Hayahash.C.Walk Hayahash.C.Oneshot
open Hayahash.Spec.Reference Hayahash.Spec.Finals Hayahash.Spec.Observe Hayahash.Refine.Oneshot
open Function (Bijective Injective)

variable {m : Mem Byte} {n : ℕ}

/-! ### Lanes as functions of the seed -/

/-- Each of four lanes is a bijective function of the seed. -/
structure Bijective4 (f : Word → Lanes4) : Prop where
  h0 : Bijective fun s => (f s).h0
  h1 : Bijective fun s => (f s).h1
  h2 : Bijective fun s => (f s).h2
  h3 : Bijective fun s => (f s).h3

/-- Each of eight lanes is a bijective function of the seed. -/
structure Bijective8 (f : Word → Lanes8) : Prop where
  h0 : Bijective fun s => (f s).h0
  h1 : Bijective fun s => (f s).h1
  h2 : Bijective fun s => (f s).h2
  h3 : Bijective fun s => (f s).h3
  h4 : Bijective fun s => (f s).h4
  h5 : Bijective fun s => (f s).h5
  h6 : Bijective fun s => (f s).h6
  h7 : Bijective fun s => (f s).h7

theorem rotl_seed {n : ℕ} (hn : n < 64) : Bijective fun seed : Word => rotl (seed ^^^ K) n :=
  (rotl_bijective hn).comp (xor_bijective K)

theorem bijective_iv4 : Bijective4 fun seed => iv4 (seed ^^^ K) where
  h0 := (xor_bijective K).comp (xor_bijective K)
  h1 := (add_bijective _).comp (rotl_seed (by decide))
  h2 := (xor_bijective _).comp (rotl_seed (by decide))
  h3 := (add_bijective _).comp (rotl_seed (by decide))

theorem bijective_iv8 : Bijective8 fun seed => iv8 (seed ^^^ K) where
  h0 := (xor_bijective K).comp (xor_bijective K)
  h1 := (add_bijective _).comp (rotl_seed (by decide))
  h2 := (xor_bijective _).comp (rotl_seed (by decide))
  h3 := (add_bijective _).comp (rotl_seed (by decide))
  h4 := (add_bijective _).comp (xor_bijective K)
  h5 := (xor_bijective _).comp (rotl_seed (by decide))
  h6 := (add_bijective _).comp (rotl_seed (by decide))
  h7 := (xor_bijective _).comp (rotl_seed (by decide))

/-! ### Steps -/

section Steps
variable {g : Word → Word}

theorem bijective_mix (hg : Bijective g) (x : Word) : Bijective fun s => mix (g s) x :=
  (stripe_bijective x).comp hg

theorem bijective_mixTail (hg : Bijective g) (w : Word) : Bijective fun s => mixTail (g s) w :=
  (tail_bijective (inj w)).comp hg

theorem bijective_add (hg : Bijective g) (c : Word) : Bijective fun s => g s + c :=
  (add_bijective c).comp hg

end Steps

/-- A family of states, one for each seed: the lanes are functions of the seed as `B` says, the last
word is one of the key. -/
structure Keyed {σ : Type} (B : (Word → σ) → Prop) (f : Word → σ × Word) : Prop where
  lanes : B fun s => (f s).1
  last : ∃ wp, ∀ s, (f s).2 = wp

theorem keyed_blockStep (q : ℤ) {f : Word → Lanes8 × Word} (hf : Keyed Bijective8 f) :
    Keyed Bijective8 fun s => blockStep m q (f s) := by
  obtain ⟨hl, wp, hwp⟩ := hf
  refine ⟨?_, word64 m (q + 56), fun _ => rfl⟩
  constructor <;> simp only [blockStep, hwp]
  · exact bijective_add (bijective_mix hl.h0 _) _
  · exact bijective_mix hl.h1 _
  · exact bijective_mix hl.h2 _
  · exact bijective_mix hl.h3 _
  · exact bijective_mix hl.h4 _
  · exact bijective_mix hl.h5 _
  · exact bijective_mix hl.h6 _
  · exact bijective_mix hl.h7 _

theorem keyed_roundStep (p : ℤ) {f : Word → Lanes4 × Word} (hf : Keyed Bijective4 f) :
    Keyed Bijective4 fun s => roundStep m p (f s) := by
  obtain ⟨hl, wp, hwp⟩ := hf
  refine ⟨?_, word64 m (p + 24), fun _ => rfl⟩
  constructor <;> simp only [roundStep, hwp]
  · exact bijective_mix hl.h0 _
  · exact bijective_mix hl.h1 _
  · exact bijective_mix hl.h2 _
  · exact bijective_mix hl.h3 _

/-- **Any number of blocks.** -/
theorem keyed_blocks (k : ℕ) (q : ℤ) {f : Word → Lanes8 × Word} (hf : Keyed Bijective8 f) :
    Keyed Bijective8 fun s => blocks m k q (f s) :=
  walk_family (Keyed Bijective8) k (fun q _ h => keyed_blockStep q h) hf

/-- **Any number of rounds.** -/
theorem keyed_rounds (k : ℕ) (p : ℤ) {f : Word → Lanes4 × Word} (hf : Keyed Bijective4 f) :
    Keyed Bijective4 fun s => rounds m k p (f s) :=
  walk_family (Keyed Bijective4) k (fun p _ h => keyed_roundStep p h) hf

theorem bijective_wall {f : Word → Lanes4 × Word} (hf : Keyed Bijective4 f) :
    Bijective4 fun s => wallStep (f s) := by
  obtain ⟨hl, wp, hwp⟩ := hf
  constructor <;> simp only [wallStep, hwp]
  · exact bijective_add hl.h0 _
  · exact hl.h1
  · exact hl.h2
  · exact hl.h3

theorem bijective_tail (p l : ℤ) {f : Word → Lanes4} (hf : Bijective4 f) :
    Bijective4 fun s => tailStep m p l (f s) := by
  have hhead : Bijective4 fun s => headStep m p l (f s) := by
    unfold headStep
    split_ifs
    · exact ⟨bijective_mixTail hf.h0 _, bijective_mixTail hf.h1 _, hf.h2, hf.h3⟩
    · exact hf
  unfold tailStep lastStep
  split_ifs
  · exact ⟨hhead.h0, hhead.h1, bijective_mixTail hhead.h2 _, bijective_mixTail hhead.h3 _⟩
  · exact hhead

/-! ### The walk -/

theorem bijective_bulkState (m : Mem Byte) (n : ℕ) :
    Bijective8 fun seed => (bulkState m n (seed ^^^ K)).1 :=
  (keyed_blocks _ 0 ⟨bijective_iv8, 0, fun _ => rfl⟩).lanes

theorem bijective_foldLanes (m : Mem Byte) (hn : n < 320) :
    Bijective4 fun seed => foldLanes m n (seed ^^^ K) := by
  have hwalk : ∀ s, walkState m n s = rounds m (n / 32) 0 (iv4 s, 0) := fun s => by
    rw [walkState, if_pos hn]
  simp only [foldLanes, hwalk]
  exact bijective_tail _ _ (bijective_wall (keyed_rounds _ 0 ⟨bijective_iv4, 0, fun _ => rfl⟩))

/-! ### The short path -/

/-- **A short key keeps the seed.** -/
theorem compact128_seed_injective (m : Mem Byte) (hn : n ≤ 16) :
    Injective fun seed => compact128 m n seed := by
  intro seed seed' h
  simp only [compact128_short m hn] at h
  have hx := shortX_seed_injective _ (short128_inj h).1
  simpa using hx

/-! ### Main result -/

/-- **The seed is never erased.** For a fixed key of at most 16 bytes it is determined by the hash;
for a longer one each lane that reaches the folds, or the end of the bulk loop, is a bijective
function of it. -/
theorem seed_never_erased (t : Target) (m : Mem Byte) (n : ℕ) :
    (n ≤ 16 → Injective fun seed => value m (hayahash128 t n seed)) ∧
    (17 ≤ n → n < 320 → ∃ f, Bijective4 f ∧ ∀ seed,
      folds (notes m (hayahash64 t n seed)) = [f seed] ∧
      folds (notes m (hayahash128 t n seed)) = [f seed]) ∧
    (320 ≤ n → ∃ f, Bijective8 f ∧ ∀ seed,
      bulkExits (notes m (hayahash64 t n seed)) = [f seed] ∧
      bulkExits (notes m (hayahash128 t n seed)) = [f seed]) := by
  refine ⟨fun hn seed seed' h => ?_, fun h17 hn => ?_, fun h320 => ?_⟩
  · simp only [(runs_hayahash128 t m n _).value_eq] at h
    exact compact128_seed_injective m hn (Option.some.inj h)
  · refine ⟨_, bijective_foldLanes m hn, fun seed => ?_⟩
    rw [(runs_hayahash64 t m n seed).notes_eq, (runs_hayahash128 t m n seed).notes_eq,
      folds_trace h17 seed]
    exact ⟨rfl, rfl⟩
  · refine ⟨_, bijective_bulkState m n, fun seed => ?_⟩
    rw [(runs_hayahash64 t m n seed).notes_eq, (runs_hayahash128 t m n seed).notes_eq,
      bulkExits_trace h320 seed]
    exact ⟨rfl, rfl⟩

/-- Keys of 3, 40 and 400 zero bytes. -/
theorem seed_never_erased_zeros :
    (Injective fun seed => value (fun _ => 0)
      (hayahash128 ⟨.x86_64, .gcc, false, .little, .w64⟩ 3 seed)) ∧
    (∃ f, Bijective4 f ∧ ∀ seed, folds (notes (fun _ => 0)
      (hayahash64 ⟨.x86_64, .gcc, false, .little, .w64⟩ 40 seed)) = [f seed]) ∧
    ∃ f, Bijective8 f ∧ ∀ seed, bulkExits (notes (fun _ => 0)
      (hayahash64 ⟨.x86_64, .gcc, false, .little, .w64⟩ 400 seed)) = [f seed] := by
  refine ⟨(seed_never_erased _ _ 3).1 (by decide), ?_, ?_⟩
  · obtain ⟨f, hf, h⟩ := (seed_never_erased ⟨.x86_64, .gcc, false, .little, .w64⟩ (fun _ => 0)
      40).2.1 (by decide) (by decide)
    exact ⟨f, hf, fun seed => (h seed).1⟩
  · obtain ⟨f, hf, h⟩ := (seed_never_erased ⟨.x86_64, .gcc, false, .little, .w64⟩ (fun _ => 0)
      400).2.2 (by decide)
    exact ⟨f, hf, fun seed => (h seed).1⟩

end Hayahash.Main.Seed
