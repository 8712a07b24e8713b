import Hayahash.Refine.Update
import Hayahash.Spec.Machine
import Hayahash.Spec.Reversal

/-! # The blocks lose nothing

**`blocks_reversible`**: `hayahash64_internal_blocks` can be undone in the block and in the lanes,
and absorbing one string after the other is absorbing them in one piece. -/

namespace Hayahash.Main.Blocks

open Hayahash.Lib.ReadProg Hayahash.Lib.Bytes Hayahash.C.Primitives Hayahash.C.Stream
open Hayahash.Spec.Reversal Hayahash.Spec.Machine Hayahash.Refine.Update

/-- `hayahash64_internal_blocks(st, xs, n)`, for the `n` bytes of the string `xs`. -/
def blocksOf (t : Target) (st : State) (xs : List Byte) : Option State :=
  value (ofList xs) (internalBlocks t st 0 xs.length)

variable {t : Target} {st st' : State} {xs ys : List Byte}

/-- The state with other lanes. -/
def withLanes (st : State) (s : Lanes8 × Word) : State := { st with h := s.1, wp := s.2 }

theorem Absorbed.eq {s : Lanes8 × Word} (h : Absorbed st s st') : st' = withLanes st s := by
  obtain ⟨hlanes, hnbuf, hbuf, hseed, htotal, hbulk⟩ := h
  obtain ⟨hh, hwp⟩ := Prod.ext_iff.mp hlanes
  cases st'
  simp_all [withLanes]

theorem blocksOf_eq (t : Target) (st : State) (h : 64 ∣ xs.length) :
    blocksOf t st xs = some (withLanes st (absorb xs (st.h, st.wp))) := by
  obtain ⟨k, hk⟩ := h
  have hdiv : xs.length / 64 = k := by omega
  have hsafe := internalBlocks_safe (m := ofList xs) (N := xs.length) t st (p := 0) (k := k)
    le_rfl (by omega)
  rw [← hk] at hsafe
  obtain ⟨st', hst, habs⟩ := hsafe.value
  rw [absorb, hdiv, ← Absorbed.eq habs]
  exact hst

/-- **One block**: different blocks lead to different states. -/
theorem blocksOf_block (hx : xs.length = 64) (hy : ys.length = 64) (hne : xs ≠ ys)
    (hh : st.h = st'.h) (hwp : st.wp = st'.wp) : ∃ a b, blocksOf t st xs = some a ∧
      blocksOf t st' ys = some b ∧ (a.h, a.wp) ≠ (b.h, b.wp) := by
  refine ⟨_, _, blocksOf_eq t st (by omega), blocksOf_eq t st' (by omega), fun he => hne ?_⟩
  have hstep : absorb xs (st.h, st.wp) = absorb ys (st.h, st.wp) := by
    rw [← hh, ← hwp] at he
    exact he
  rw [absorb, absorb, hx, hy] at hstep
  refine ofList_inj (by omega) fun i hi => ?_
  exact word64_inj (blockStep_words hstep (i / 8) (by omega)) (by omega) (by omega)

/-- **Any number of blocks**: different lanes lead to different lanes. -/
theorem blocksOf_lanes (h : 64 ∣ xs.length) (hwp : st.wp = st'.wp) (hne : st.h ≠ st'.h) :
    ∃ a b, blocksOf t st xs = some a ∧ blocksOf t st' xs = some b ∧ a.h ≠ b.h :=
  ⟨_, _, blocksOf_eq t st h, blocksOf_eq t st' h, (blocks_lanes _ hwp hne).2⟩

/-- **One string after the other.** -/
theorem blocksOf_append (hx : 64 ∣ xs.length) (hy : 64 ∣ ys.length) : ∃ a b,
    blocksOf t st xs = some a ∧ blocksOf t a ys = some b ∧ blocksOf t st (xs ++ ys) = some b := by
  have hxy : 64 ∣ (xs ++ ys).length := by
    rw [List.length_append]
    exact Nat.dvd_add hx hy
  refine ⟨_, _, blocksOf_eq t st hx, blocksOf_eq t _ hy, ?_⟩
  rw [blocksOf_eq t st hxy, absorb_append hx]
  rfl

/-! ### Main result -/

/-- **The blocks lose nothing**, on every target. -/
theorem blocks_reversible (t : Target) :
    (∀ st st' xs ys, xs.length = 64 → ys.length = 64 → xs ≠ ys → st.h = st'.h → st.wp = st'.wp →
      ∃ a b, blocksOf t st xs = some a ∧ blocksOf t st' ys = some b ∧
        (a.h, a.wp) ≠ (b.h, b.wp)) ∧
    (∀ st st' xs, 64 ∣ xs.length → st.wp = st'.wp → st.h ≠ st'.h →
      ∃ a b, blocksOf t st xs = some a ∧ blocksOf t st' xs = some b ∧ a.h ≠ b.h) ∧
    ∀ st xs ys, 64 ∣ xs.length → 64 ∣ ys.length →
      ∃ a b, blocksOf t st xs = some a ∧ blocksOf t a ys = some b ∧
        blocksOf t st (xs ++ ys) = some b :=
  ⟨fun _ _ _ _ hx hy hne hh hwp => blocksOf_block hx hy hne hh hwp,
    fun _ _ _ h hwp hne => blocksOf_lanes h hwp hne, fun _ _ _ hx hy => blocksOf_append hx hy⟩

/-- A block of zeros and one of ones, from the same state, and blocks of zeros from two states. -/
theorem blocks_reversible_zeros :
    (∃ a b, blocksOf ⟨.x86_64, .gcc, true, .little, .w64⟩ .zeroed (List.replicate 64 0) = some a ∧
      blocksOf ⟨.x86_64, .gcc, true, .little, .w64⟩ .zeroed (List.replicate 64 1) = some b ∧
      (a.h, a.wp) ≠ (b.h, b.wp)) ∧
    (∃ a b, blocksOf ⟨.wasm, .clang, false, .little, .w32⟩ .zeroed (List.replicate 128 0) = some a ∧
      blocksOf ⟨.wasm, .clang, false, .little, .w32⟩ (hayahash64Init .zeroed 7)
        (List.replicate 128 0) = some b ∧ a.h ≠ b.h) ∧
    ∃ a b, blocksOf ⟨.other, .other, false, .big, .w32⟩ .zeroed (List.replicate 64 0) = some a ∧
      blocksOf ⟨.other, .other, false, .big, .w32⟩ a (List.replicate 64 1) = some b ∧
      blocksOf ⟨.other, .other, false, .big, .w32⟩ .zeroed
        (List.replicate 64 0 ++ List.replicate 64 1) = some b := by
  refine ⟨?_, ?_, ?_⟩
  · exact (blocks_reversible _).1 _ _ _ _ (by decide) (by decide) (by decide) rfl rfl
  · exact (blocks_reversible _).2.1 _ _ _ (by decide) rfl (by decide)
  · exact (blocks_reversible _).2.2 _ _ _ (by decide) (by decide)

end Hayahash.Main.Blocks
