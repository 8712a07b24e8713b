import Hayahash.Lib.Fibers
import Hayahash.Main.Edit
import Hayahash.Main.Short
import Hayahash.Spec.Window
import Mathlib.Logic.Equiv.Fin.Basic

/-! # The last bytes of a key

* **`lone_window`**: with the rest of a key fixed, a window of the tail that exactly one load
  touches is permuted by each of the two words.
* **`balanced`**: where the last eight bytes are such a window, each of the two words takes every
  value for as many keys of that length as any other value.
* **`tail_capacity`**: the last sixteen bytes of a key, where they are two words of the tail, are
  seen by the 128-bit hash in no more than `2 ^ 64` ways, each for `2 ^ 64` of them. -/

namespace Hayahash.Main.Window

open Hayahash.Lib.ReadProg Hayahash.Lib.Bytes Hayahash.Lib.Bits Hayahash.Lib.Fibers
  Hayahash.C.Primitives
open Hayahash.C.Mixers Hayahash.C.Walk Hayahash.C.Oneshot Hayahash.Spec.Reference
  Hayahash.Spec.Finals
open Hayahash.Spec.Edit Hayahash.Spec.Window Hayahash.Spec.Reversal Hayahash.Refine.Oneshot
open Function (Bijective Injective)

variable {pre post : List Byte} {n : ℕ}

/-! ### Keys with a window -/

theorem length_store64 (ws : List Word) : (store64 ws).length = 8 * ws.length := by
  induction ws with
  | nil => rfl
  | cons w ws ih =>
    have hcons : store64 (w :: ws) = (List.range 8).map (byteOf w) ++ store64 ws := rfl
    rw [hcons, List.length_append, length_bytes, ih, List.length_cons]
    omega

theorem word64_window (pre post : List Byte) (w : Word) :
    word64 (ofList (pre ++ (store64 [w] ++ post))) pre.length = w := by
  have hword : word64 (ofList (store64 [w] ++ post)) 0 = w := by
    have hone : store64 [w] = (List.range 8).map (byteOf w) := List.append_nil _
    rw [hone]
    exact word64_bytes w post
  nth_rewrite 2 [← hword]
  refine word64_shift fun i h0 _ => ?_
  rw [zero_add]
  exact ofList_append_right h0

/-- **Another word in the window** is an edit of it. -/
theorem edited_window {w w' : Word} (hne : w ≠ w') :
    Edited (ofList (pre ++ (store64 [w] ++ post)))
      (ofList (pre ++ (store64 [w'] ++ post))) pre.length
      (pre.length + 8) where
  within i hi := by
    by_contra hout
    refine hi ?_
    by_cases hlow : i < pre.length
    · rw [ofList_append_left hlow, ofList_append_left hlow]
    · obtain ⟨j, rfl⟩ : ∃ j : ℕ, i = pre.length + (8 + j : ℤ) :=
        ⟨(i - pre.length - 8).toNat, by omega⟩
      have hbehind : ∀ w : Word, ofList (store64 [w] ++ post) (8 + j) = ofList post j := fun w => by
        have hright := ofList_append_right (a := store64 [w]) (b := post) (i := j) (by omega)
        rwa [length_store64] at hright
      rw [ofList_append_right (by omega), ofList_append_right (by omega), hbehind, hbehind]
  somewhere := by
    by_contra hall
    push Not at hall
    refine hne ?_
    rw [← word64_window pre post w, ← word64_window pre post w', funext hall]

theorem bijective_of_ne {f : Word → Word} (h : ∀ w w', w ≠ w' → f w ≠ f w') : Bijective f := by
  have hfinite : Finite Word := Finite.of_equiv _ BitVec.equivFin.symm.toEquiv
  refine Finite.injective_iff_bijective.mp fun w w' heq => ?_
  by_contra hne
  exact h w w' hne heq

/-- **Each word permutes a lone window.** -/
theorem bijective_window (pre post : List Byte) (h : Lone n pre.length) (seed : Word) :
    (Bijective fun w => (compact128 (ofList (pre ++ (store64 [w] ++ post))) n seed).lo) ∧
      Bijective fun w => (compact128 (ofList (pre ++ (store64 [w] ++ post))) n seed).hi :=
  ⟨bijective_of_ne fun _ _ hne => (h.differ (edited_window hne) seed).1,
    bijective_of_ne fun _ _ hne => (h.differ (edited_window hne) seed).2⟩

/-- **A window of the tail that exactly one load touches is permuted**, by `hayahash64` and by the
high word of `hayahash128`, whatever the other bytes are. -/
theorem lone_window (t : Target) (seed : Word) (pre post : List Byte)
    (h : Lone (pre.length + (8 + post.length)) pre.length) : ∃ f g : Equiv.Perm Word, ∀ w,
      value (ofList (pre ++ (store64 [w] ++ post)))
        (hayahash64 t (pre.length + (8 + post.length) : ℕ) seed) = some (f w) ∧
      value (ofList (pre ++ (store64 [w] ++ post)))
        (hayahash128 t (pre.length + (8 + post.length) : ℕ) seed) = some ⟨f w, g w⟩ := by
  obtain ⟨hlo, hhi⟩ := bijective_window pre post h seed
  refine ⟨Equiv.ofBijective _ hlo, Equiv.ofBijective _ hhi, fun w => ⟨?_, ?_⟩⟩
  · exact (runs_hayahash64 t _ _ seed).value_eq
  · exact (runs_hayahash128 t _ _ seed).value_eq

/-- The first eight bytes of a key of 24, and the last eight of one of 48. -/
theorem lone_window_24 :
    (∃ f g : Equiv.Perm Word, ∀ w,
      value (ofList ([] ++ (store64 [w] ++ List.replicate 16 0)))
        (hayahash64 ⟨.x86_64, .gcc, false, .little, .w64⟩ (24 : ℕ) 7) = some (f w) ∧
      value (ofList ([] ++ (store64 [w] ++ List.replicate 16 0)))
        (hayahash128 ⟨.x86_64, .gcc, false, .little, .w64⟩ (24 : ℕ) 7) = some ⟨f w, g w⟩) ∧
    ∃ f g : Equiv.Perm Word, ∀ w,
      value (ofList (List.replicate 40 0 ++ (store64 [w] ++ [])))
        (hayahash64 ⟨.wasm, .clang, false, .little, .w32⟩ (48 : ℕ) 7) = some (f w) ∧
      value (ofList (List.replicate 40 0 ++ (store64 [w] ++ [])))
        (hayahash128 ⟨.wasm, .clang, false, .little, .w32⟩ (48 : ℕ) 7) = some ⟨f w, g w⟩ :=
  ⟨lone_window _ 7 [] (List.replicate 16 0) ⟨by decide, by decide, by decide⟩,
    lone_window _ 7 (List.replicate 40 0) [] (lone_last (n := 48) (by decide) (by decide))⟩

/-! ### Balance -/

/-- **The last eight bytes are permuted by each word**, of keys of these lengths. -/
theorem bijective_last (pre : List Byte) (hn : pre.length + 8 = n) (h16 : 16 ≤ n)
    (hr : 8 ≤ n % 32 ∧ n % 32 ≤ 16 ∨ 24 ≤ n % 32) (seed : Word) :
    (Bijective fun w => (compact128 (ofList (pre ++ store64 [w])) n seed).lo) ∧
      Bijective fun w => (compact128 (ofList (pre ++ store64 [w])) n seed).hi := by
  have hend : ∀ w, ofList (pre ++ store64 [w]) = ofList (pre ++ (store64 [w] ++ [])) := fun w => by
    rw [List.append_nil]
  simp only [hend]
  rcases Nat.lt_or_ge 16 n with h17 | hle
  · have hlone := lone_last h17 hr
    rw [← hn, Nat.add_sub_cancel] at hlone
    rw [← hn]
    exact bijective_window pre [] hlone seed
  · -- on the short path the last eight bytes are the second word, and the first word is fixed
    obtain rfl : n = 16 := by omega
    have hpre : pre.length = 8 := by omega
    have hfirst : ∀ w, word64 (ofList (pre ++ (store64 [w] ++ []))) 0 = word64 (ofList pre) 0 :=
      fun w =>
      word64_shift fun i _ hi => ofList_append_left (by omega)
    have hlast : ∀ w, word64 (ofList (pre ++ (store64 [w] ++ []))) 8 = w := fun w => by
      have hword := word64_window pre [] w
      rwa [hpre] at hword
    simp only [compact128_short _ le_rfl, (Short.short_words_16 _).1, (Short.short_words_16 _).2,
      hfirst, hlast]
    generalize word64 (ofList pre) 0 = a
    have hu : Bijective fun w => shortU (shortX a (seed ^^^ K)) (shortY w (seed ^^^ K)) 16 :=
      (shortU_bijective_right _ 16).comp (shortY_bijective _)
    refine ⟨fmix_bijective.comp hu, ?_⟩
    have hadd : Bijective fun u : Word => shortX a (seed ^^^ K) + rotl u 32 := by
      have hcomm : (fun u : Word => shortX a (seed ^^^ K) + rotl u 32) =
          fun u => rotl u 32 + shortX a (seed ^^^ K) := funext fun u => BitVec.add_comm _ _
      rw [hcomm]
      exact (add_bijective _).comp (rotl_bijective (by decide))
    exact fmix128_bijective.comp (hadd.comp hu)

/-- Eight bytes are a word. -/
def wordEquiv : (Fin 8 → Byte) ≃ Word where
  toFun := le64
  invFun x i := byteOf x i
  left_inv _ := le64_inj (le64_bytes _)
  right_inv := le64_bytes

theorem ofFn_word (w : Word) : List.ofFn (wordEquiv.symm w) = store64 [w] := by
  have hone : store64 [w] = (List.range 8).map (byteOf w) := List.append_nil _
  rw [hone, List.ofFn_eq_map, ← List.map_coe_finRange_eq_range, List.map_map]
  rfl

/-- A key is what comes before the last eight bytes, and these. -/
def keyEquiv (a : ℕ) : (Fin (a + 8) → Byte) ≃ (Fin a → Byte) × Word :=
  (Fin.appendEquiv a 8).symm.trans (Equiv.prodCongr (Equiv.refl _) wordEquiv)

theorem ofFn_key {a : ℕ} (u : Fin a → Byte) (w : Word) :
    List.ofFn ((keyEquiv a).symm (u, w)) = List.ofFn u ++ store64 [w] := by
  rw [← ofFn_word]
  exact List.ofFn_fin_append u (wordEquiv.symm w)

theorem card_keys (a : ℕ) : Nat.card (Fin a → Byte) = 256 ^ a := by
  have hbyte : Nat.card Byte = 256 := by
    rw [Nat.card_congr BitVec.equivFin.toEquiv, Nat.card_eq_fintype_card, Fintype.card_fin]
    rfl
  have hfinite : Finite Byte := Finite.of_equiv _ BitVec.equivFin.symm.toEquiv
  rw [Nat.card_fun, hbyte, Nat.card_eq_fintype_card, Fintype.card_fin]

/-- **The words are balanced**: of the keys of `n` bytes, `256 ^ (n - 8)` have a given 64-bit hash,
and as many have a given high word, whichever it is. -/
theorem balanced (t : Target) (seed d : Word) {n : ℕ} (h16 : 16 ≤ n)
    (hr : 8 ≤ n % 32 ∧ n % 32 ≤ 16 ∨ 24 ≤ n % 32) :
    Nat.card {k : Fin n → Byte // value (ofList (List.ofFn k)) (hayahash64 t n seed) = some d} =
        256 ^ (n - 8) ∧
      Nat.card {k : Fin n → Byte //
        (value (ofList (List.ofFn k)) (hayahash128 t n seed)).map Hash128.hi = some d} =
          256 ^ (n - 8) := by
  obtain ⟨a, rfl⟩ : ∃ a, n = a + 8 := ⟨n - 8, by omega⟩
  have hbij := fun u : Fin a → Byte =>
    bijective_last (List.ofFn u) (by rw [List.length_ofFn]) h16 hr seed
  have h64 : ∀ m, value m (hayahash64 t (a + 8 : ℕ) seed) = some (compact128 m (a + 8) seed).lo :=
    fun m => (runs_hayahash64 t m (a + 8) seed).value_eq
  have h128 : ∀ m, value m (hayahash128 t (a + 8 : ℕ) seed) = some (compact128 m (a + 8) seed) :=
    fun m => (runs_hayahash128 t m (a + 8) seed).value_eq
  rw [Nat.add_sub_cancel, ← card_keys]
  simp only [h64, h128, Option.map_some, Option.some.injEq]
  constructor
  · refine card_fiber_split (keyEquiv a) (fun u => ?_) d
    simp only [ofFn_key]
    exact (hbij u).1
  · refine card_fiber_split (keyEquiv a) (fun u => ?_) d
    simp only [ofFn_key]
    exact (hbij u).2

/-- Keys of 16 bytes, and of 1000. -/
theorem balanced_16 :
    Nat.card {k : Fin 16 → Byte // value (ofList (List.ofFn k))
      (hayahash64 ⟨.x86_64, .gcc, false, .little, .w64⟩ (16 : ℕ) 7) = some 0} = 256 ^ (16 - 8) ∧
    Nat.card {k : Fin 1000 → Byte // value (ofList (List.ofFn k))
      (hayahash64 ⟨.aarch64, .clang, false, .little, .w64⟩ (1000 : ℕ) 7) = some 0} =
        256 ^ (1000 - 8) :=
  ⟨(balanced _ 7 0 (n := 16) (by decide) (by decide)).1,
    (balanced _ 7 0 (n := 1000) (by decide) (by decide)).1⟩

/-! ### Capacity -/

theorem words_behind (pre : List Byte) (a b : Word) :
    word64 (ofList (pre ++ store64 [a, b])) pre.length = a ∧
    word64 (ofList (pre ++ store64 [a, b])) (pre.length + 8) = b := by
  have hfirst : pre ++ store64 [a, b] = pre ++ (store64 [a] ++ store64 [b]) := by simp [store64]
  have hsecond :
    pre ++ store64 [a, b] = (pre ++ store64 [a]) ++ (store64 [b] ++ []) := by simp [store64]
  constructor
  · rw [hfirst]
    exact word64_window pre (store64 [b]) a
  · have hword := word64_window (pre ++ store64 [a]) [] b
    rw [List.length_append, length_store64] at hword
    rw [hsecond]
    exact_mod_cast hword

/-- **The lanes**: the two words enter one lane each, and nothing else depends on them. -/
theorem foldLanes_behind (h32 : pre.length % 32 = 0) (s : Word) : ∃ h : Lanes4, ∀ a b,
    foldLanes (ofList (pre ++ store64 [a, b])) (pre.length + 16) s =
      { h with h2 := mixTail h.h2 a, h3 := mixTail h.h3 b } := by
  refine ⟨wallStep (walkState (ofList pre) (pre.length + 16) s), fun a b => ?_⟩
  have hloops : 32 * ((pre.length + 16) / 32) = pre.length := by omega
  have hrest : (pre.length + 16) % 32 = 16 := by omega
  have hwalk : walkState (ofList (pre ++ store64 [a, b])) (pre.length + 16) s =
      walkState (ofList pre) (pre.length + 16) s := by
    refine walkState_same (fun i h0 hi => ofList_append_left ?_) s
    omega
  obtain ⟨ha, hb⟩ := words_behind pre a b
  have hpos : (pre.length : ℤ) + (16 : ℕ) - 16 = pre.length := by omega
  have hpos' : (pre.length : ℤ) + (16 : ℕ) - 8 = pre.length + 8 := by omega
  rw [foldLanes, hloops, hrest, hwalk]
  unfold tailStep lastStep headStep
  rw [if_pos (by decide), if_neg (by decide), hpos, hpos', ha, hb]

theorem foldT0_behind (h : Lanes4) (x y lm : Word) : foldT0 { h with h2 := x, h3 := y } lm =
    foldT0 h lm := by
  unfold foldT0
  rfl

/-- **What the 128-bit hash sees of the last sixteen bytes**, where these are all that is behind the
loops: no more than `2 ^ 64` different digests, each for `2 ^ 64` of the `2 ^ 128` pairs of
words. -/
theorem tail_capacity (t : Target) (seed : Word) (pre : List Byte) (hpos : 0 < pre.length)
    (h32 : pre.length % 32 = 0) :
    Nat.card (Set.range fun p : Word × Word =>
        value (ofList (pre ++ store64 [p.1, p.2])) (hayahash128 t (pre.length + 16 : ℕ) seed)) =
          2 ^ 64 ∧
      ∀ p : Word × Word, Nat.card {p' : Word × Word //
        value (ofList (pre ++ store64 [p'.1, p'.2])) (hayahash128 t (pre.length + 16 : ℕ) seed) =
          value (ofList (pre ++ store64 [p.1, p.2])) (hayahash128 t (pre.length + 16 : ℕ) seed)} =
            2 ^ 64 := by
  have hcard : Nat.card Word = 2 ^ 64 := by
    rw [Nat.card_congr BitVec.equivFin.toEquiv, Nat.card_eq_fintype_card, Fintype.card_fin]
  obtain ⟨h, hlanes⟩ := foldLanes_behind h32 (seed ^^^ K)
  -- `t1` as a function of the two words, and the digest as a function of `t1`
  let f : Word → Word → Word :=
    fun a b => foldT1 { h with h2 := mixTail h.h2 a, h3 := mixTail h.h3 b }
  let g : Word → Option Hash128 := fun t1 =>
    some (longmix128 (seed ^^^ K) (foldT0 h (lenmix (pre.length + 16 : ℕ))) t1 K)
  have hdigest : ∀ p : Word × Word, value (ofList (pre ++ store64 [p.1, p.2]))
      (hayahash128 t (pre.length + 16 : ℕ) seed) = g (f p.1 p.2) := fun p => by
    rw [(runs_hayahash128 t _ (pre.length + 16) seed).value_eq,
      compact128_long _ (by omega), hlanes, foldT0_behind]
  have hf : ∀ a, Bijective (f a) := fun a => by
    refine bijective_of_ne fun b b' hne heq => hne ?_
    have hx : mixTail h.h2 a ^^^ rotl (mixTail h.h3 b) 33 = mixTail h.h2 a ^^^ rotl
      (mixTail h.h3 b') 33 :=
      (mul_bijective K_mul_inv).1 heq
    rw [BitVec.xor_right_inj] at hx
    exact mixTail_word_inj (rotl_inj (by decide) hx)
  have hg : Injective g :=
    fun t1 t1' heq => longmix_t1 (.inl (congrArg Hash128.lo (Option.some.inj heq)))
  simp only [hdigest]
  refine ⟨?_, fun p => ?_⟩
  · rw [card_range_through hf hg, hcard]
  · rw [card_fiber_through hf hg, hcard]

/-- A key of 48 bytes. -/
theorem tail_capacity_48 :
    Nat.card (Set.range fun p : Word × Word =>
      value (ofList (List.replicate 32 0 ++ store64 [p.1, p.2]))
        (hayahash128 ⟨.x86_64, .gcc, false, .little, .w64⟩ (48 : ℕ) 7)) = 2 ^ 64 :=
  (tail_capacity _ 7 (List.replicate 32 0) (by decide) (by decide)).1

end Hayahash.Main.Window
