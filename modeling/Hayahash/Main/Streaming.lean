import Hayahash.Refine.Digest

/-! # The streaming interface computes the one-shot functions

**`run_refines`**: in any run of calls, whatever the chunks, every digest returns what the one-shot
function returns on the input so far. **`update_keeps`**: the invariant behind it, and that an
update is safe and ends. -/

namespace Hayahash.Main.Streaming

open Hayahash.Lib.Bytes Hayahash.Lib.Triple Hayahash.C.Primitives Hayahash.C.Stream
open Hayahash.Spec.Reference Hayahash.Spec.Stream Hayahash.Refine.Oneshot
open Hayahash.Refine.Update Hayahash.Refine.Digest

variable {t : Target} {seed : Word} {xs : List Byte} {st : State}

/-! ### The invariant -/

/-- **Every reachable state stands for its input, and the next update is safe and ends** in a state
that stands for the longer input. -/
theorem update_keeps (t : Target) {seed : Word} {xs : List Byte} {st : State}
    (h : Reachable t seed xs st) (c : Chunk t) :
    Represents seed xs st ∧
      Ensures (ofList c.bytes) (fun r => r.Within 0 c.bytes.length) OpSafe
        (hayahash64Update t st c.bytes.length) (Represents seed (xs ++ c.bytes)) :=
  ⟨reachable_represents h, update_safe t (reachable_represents h) c.fits⟩

/-- The state after 448 bytes, and any chunk after them. -/
theorem update_keeps_zeros : ∃ st, Bulk (List.replicate 448 0) st ∧
    Represents 7 (List.replicate 448 0) st ∧
    Ensures (ofList [1, 2, 3]) (fun r => r.Within 0 3) OpSafe
      (hayahash64Update ⟨.x86_64, .gcc, true, .little, .w64⟩ st 3)
      (Represents 7 (List.replicate 448 0 ++ [1, 2, 3])) := by
  obtain ⟨st, h⟩ := exists_reachable ⟨.x86_64, .gcc, true, .little, .w64⟩ 7 (List.replicate 448 0)
  have hb := reachable_bulk h (by rw [List.length_replicate]; decide)
  exact ⟨st, hb, update_keeps _ h ⟨[1, 2, 3], by decide⟩⟩

/-- **The counter wraps**: after `2 ^ 64` bytes `total` is `0` again, on the bulk path. -/
theorem total_wraps : ∃ st, Reachable ⟨.x86_64, .gcc, true, .little, .w64⟩ 0
    (List.replicate (2 ^ 64) 0) st ∧ st.bulk = true ∧ st.total.toNat < bufcap := by
  have key : ∀ n, bufcap ≤ n → n % 2 ^ 64 < bufcap →
      ∃ st, Reachable ⟨.x86_64, .gcc, true, .little, .w64⟩ 0 (List.replicate n 0) st ∧
        st.bulk = true ∧ st.total.toNat < bufcap := by
    intro n hn hlt
    obtain ⟨st, h⟩ := exists_reachable ⟨.x86_64, .gcc, true, .little, .w64⟩ 0 (List.replicate n 0)
    refine ⟨st, h, (reachable_bulk h (by rwa [List.length_replicate])).bulk, ?_⟩
    rwa [(reachable_represents h).total, List.length_replicate, BitVec.toNat_ofNat]
  exact key (2 ^ 64) (by decide) (by decide)

/-! ### Runs of calls -/

/-- **One call** does what it should, and the state then stands for the input after it. -/
theorem call_refines (h : Represents seed xs st) (c : Call t) :
    ∃ st' xs' as, call st c = some (st', as) ∧ ask seed xs c = some (xs', as) ∧
      Represents seed xs' st' := by
  cases c with
  | update64 c =>
    obtain ⟨st', hst, hrep⟩ := (update_safe t h c.fits).value
    exact ⟨st', _, [], by simp [call, hst], rfl, hrep⟩
  | update128 c =>
    obtain ⟨st', hst, hrep⟩ := (update_safe t h c.fits).value
    exact ⟨st', _, [], by simp [call, hayahash128Update, hst], rfl, hrep⟩
  | digest64 =>
    refine ⟨st, xs, [.word (compact64 (ofList xs) xs.length seed)], ?_, ?_, h⟩
    · simp [call, value_digest64 t h]
    · simp [ask, (runs_hayahash64 t (ofList xs) xs.length seed).value_eq]
  | digest128 =>
    refine ⟨st, xs, [.pair (compact128 (ofList xs) xs.length seed)], ?_, ?_, h⟩
    · simp [call, value_digest128 t h]
    · simp [ask, (runs_hayahash128 t (ofList xs) xs.length seed).value_eq]

theorem run_represents (cs : List (Call t)) : ∀ {xs : List Byte} {st : State},
    Represents seed xs st → ∃ st' xs' as, run st cs = some (st', as) ∧
      askAll seed xs cs = some (xs', as) ∧ Represents seed xs' st' := by
  induction cs with
  | nil =>
    intro xs st h
    exact ⟨st, xs, [], rfl, rfl, h⟩
  | cons c cs ih =>
    intro xs st h
    obtain ⟨st₁, xs₁, as₁, hc, ha, h₁⟩ := call_refines h c
    obtain ⟨st₂, xs₂, as₂, hr, has, h₂⟩ := ih h₁
    exact ⟨st₂, xs₂, as₁ ++ as₂, by simp [run, hc, hr], by simp [askAll, ha, has], h₂⟩

/-- **Streaming refines the one-shot functions**: any run of calls ends, and its digests are, one by
one, the one-shot values of the input so far. -/
theorem run_refines (t : Target) (st : State) (seed : Word) (cs : List (Call t)) :
    ∃ st' xs as, run (hayahash64Init st seed) cs = some (st', as) ∧
      askAll seed [] cs = some (xs, as) := by
  obtain ⟨st', xs, as, hr, ha, -⟩ := run_represents cs (represents_init st seed)
  exact ⟨st', xs, as, hr, ha⟩

theorem run_represents_init128 (t : Target) (st : State) (seed : Word) (cs : List (Call t)) :
    ∃ st' xs as, run (hayahash128Init st seed) cs = some (st', as) ∧
      askAll seed [] cs = some (xs, as) ∧ Represents seed xs st' :=
  run_represents cs (represents_init st seed)

end Hayahash.Main.Streaming
