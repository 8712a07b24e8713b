import Hayahash.Refine.Digest

/-! # Every load is inside the key, every byte is absorbed

**`reads_exactly`**: for the one-shot functions in every shape, and for the digests of every
reachable bulk state over its buffer. -/

namespace Hayahash.Main.Bounds

open Hayahash.Lib.ReadProg Hayahash.Lib.Bytes Hayahash.C.Primitives
open Hayahash.C.Oneshot Hayahash.C.Stream Hayahash.Spec.Reference Hayahash.Spec.Spans
open Hayahash.Spec.Stream Hayahash.Refine.Oneshot Hayahash.Refine.Update Hayahash.Refine.Digest

variable {m : Mem Byte} {α : Type}

/-- `x` loads only bytes at offsets in `[0, n)`, and absorbs what it loads from each of them. -/
structure ReadsExactly (m : Mem Byte) (x : Code α) (n : ℕ) : Prop where
  inside : ∀ r ∈ loads m x, ∀ i, r.Covers i → 0 ≤ i ∧ i < n
  all : ∀ i : ℤ, 0 ≤ i → i < n →
    ∃ src v, .absorb src v ∈ notes m x ∧ ∃ r ∈ src, r ∈ loads m x ∧ r.Covers i

theorem ReadsExactly.of_runs {x : Code α} {a : α} {n : ℕ} {ls : List Span} {ns : List Event}
    (hx : Runs m x a ls ns) (hin : ∀ r ∈ ls, r.Within 0 n)
    (hall : ∀ i : ℤ, 0 ≤ i → i < n → Absorbed ls ns i) : ReadsExactly m x n where
  inside r hr i hi := by
    have hw := hin r ((hx.mem_loads r).mp hr)
    exact ⟨hw.1.trans hi.1, hi.2.trans_le hw.2⟩
  all i h0 hi := by
    obtain ⟨src, v, he, r, hr, hls, hc⟩ := hall i h0 hi
    exact ⟨src, v, hx.notes_eq ▸ he, r, hr, (hx.mem_loads r).mpr hls, hc⟩

theorem readsExactly_bulk {x : Code α} {a : α} {xs : List Byte} {st : State} {ns : List Event}
    (h : Bulk xs st)
    (hx : Runs (bufMem st.buf) x a (bufSpans st.nbuf.toNat) (bufEvents (bufMem st.buf) st ++ ns)) :
    ReadsExactly (bufMem st.buf) x st.nbuf.toNat := by
  have hkeep := h.keep_le
  unfold keep at hkeep
  refine .of_runs hx (fun r hr => ?_) fun i h0 hi => ?_
  · rcases List.mem_append.mp hr with hr | hr
    · obtain ⟨j, hj, rfl⟩ := mem_stripeSpans.mp hr
      exact ⟨by push_cast; omega, by push_cast; omega⟩
    · have hend : ((32 * (st.nbuf.toNat / 32) : ℕ) : ℤ) + (st.nbuf.toNat % 32 : ℕ) =
          st.nbuf.toNat := by omega
      have hw := tailSpans_within (by omega) (by omega) hr
      rwa [hend] at hw
  · refine absorbed_walk (m := bufMem st.buf) h0 hi (fun j hj => ?_) (List.subset_append_left _ _)
      (fun e he => ?_) (List.subset_append_right _ _)
    · exact exists_blocks_rounds hj
        (List.subset_append_of_subset_left _ (List.subset_append_left _ _))
        (List.subset_append_of_subset_left _ (List.subset_append_of_subset_right _
          (List.subset_append_left _ _)))
    · exact List.mem_append_left _ (List.mem_append_right _ (List.mem_append_right _
        (List.mem_cons_of_mem _ he)))

theorem readsExactly_oneshot {x : Code α} {a : α} {n : ℕ} {seed : Word}
    (hx : Runs m x a (spans n) (trace m n seed)) : ReadsExactly m x n :=
  .of_runs hx (fun _ => spans_within) fun _ => absorbed_trace seed

/-- **Every load is inside, every byte is absorbed.** -/
theorem reads_exactly (t : Target) :
    (∀ (m : Mem Byte) (n : ℕ) (seed : Word),
      ReadsExactly m (hayahash64 t n seed) n ∧ ReadsExactly m (hayahash128 t n seed) n) ∧
    ∀ (seed : Word) (xs : List Byte) (st : State), Reachable t seed xs st → st.bulk = true →
      ReadsExactly (bufMem st.buf) (hayahash64Digest t st) st.nbuf.toNat ∧
      ReadsExactly (bufMem st.buf) (hayahash128Digest t st) st.nbuf.toNat := by
  refine ⟨fun m n seed => ⟨readsExactly_oneshot (runs_hayahash64 t m n seed),
    readsExactly_oneshot (runs_hayahash128 t m n seed)⟩, fun seed xs st h hb => ?_⟩
  rcases (reachable_represents h).phase with hu | hbk
  · simp [hu.bulk] at hb
  · rw [hayahash64Digest, hayahash128Digest, if_neg (by simp [hb]), if_neg (by simp [hb])]
    exact ⟨readsExactly_bulk hbk (runs_bulk t (v := fun h => _) (fun _ => rfl) hbk),
      readsExactly_bulk hbk (runs_bulk t (v := fun h => _) (fun _ => rfl) hbk)⟩

/-- A bulk state, that of 500 zero bytes. -/
theorem reads_exactly_zeros : ∃ st, Reachable ⟨.wasm, .clang, false, .little, .w32⟩ 7
      (List.replicate 500 0) st ∧
    ReadsExactly (bufMem st.buf) (hayahash64Digest ⟨.wasm, .clang, false, .little, .w32⟩ st)
      st.nbuf.toNat ∧
    ReadsExactly (bufMem st.buf) (hayahash128Digest ⟨.wasm, .clang, false, .little, .w32⟩ st)
      st.nbuf.toNat := by
  obtain ⟨st, h⟩ := exists_reachable ⟨.wasm, .clang, false, .little, .w32⟩ 7 (List.replicate 500 0)
  have hb := reachable_bulk h (by rw [List.length_replicate]; decide)
  exact ⟨st, h, (reads_exactly _).2 _ _ _ h hb.bulk⟩

end Hayahash.Main.Bounds
