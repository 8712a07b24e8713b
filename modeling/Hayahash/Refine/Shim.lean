import Hayahash.Ports.Shim
import Hayahash.Refine.Wasm

/-! # The exports wrap the functions of the header -/

namespace Hayahash.Refine.Shim

open Hayahash.Lib.ReadProg Hayahash.Lib.Bytes Hayahash.Lib.Arrays Hayahash.Ports.Shim
open Hayahash.Spec.Reference Hayahash.Refine.Oneshot Hayahash.Refine.Wasm
open Hayahash.C.Primitives (Word Target)
open Hayahash.C.Stream (State bufcap)

theorem length_store64 (ws : List Word) : (store64 ws).length = 8 * ws.length := by
  induction ws with
  | nil => rfl
  | cons x ws ih =>
    have hcons : store64 (x :: ws) = (List.range 8).map (byteOf x) ++ store64 ws := rfl
    rw [hcons, List.length_append, length_bytes, ih, List.length_cons]
    omega

theorem length_words (st : State) : (words st).length = 12 := rfl

theorem length_layout (st : State) : (layout st).length = stateSize := by
  rw [layout, List.length_append, length_store64, Vector.length_toList]
  rfl

theorem flags_nbuf (st : State) : (flags st).setWidth 32 = st.nbuf := by
  unfold flags
  cases st.bulk <;> (ext i hi; simp; try omega)

theorem flags_bulk (st : State) : decide (flags st >>> 32 ≠ 0) = st.bulk := by
  have hnbuf : st.nbuf.setWidth 64 >>> 32 = 0 := by
    ext i hi
    simp
  unfold flags
  rw [BitVec.ushiftRight_or_distrib, hnbuf]
  cases st.bulk <;> decide

theorem buf_layout (st : State) :
    Vector.ofFn (fun i : Fin bufcap => (layout st).getD (96 + i) 0) = st.buf := by
  have hwords : (store64 (words st)).length = 96 := by
    have hlen := length_words st
    have hstore := length_store64 (words st)
    omega
  ext i hi
  rw [Vector.getElem_ofFn, layout, List.getD_append_right _ _ _ _ (by rw [hwords]; omega), hwords,
    Nat.add_sub_cancel_left, List.getD_eq_getElem _ _ (by rw [Vector.length_toList]; exact hi),
    Vector.getElem_toList]

/-- **The bytes of a state are that state.** -/
theorem unlayout_layout (st : State) : unlayout (layout st) = st := by
  have hword : ∀ j : ℕ, j < 12 → word64 (ofList (layout st)) (8 * j) = (words st).getD j 0 := by
    intro j hj
    rw [← word64_store64 (words st) j hj]
    refine word64_shift fun i h0 h1 => ofList_append_left ?_
    rw [length_store64]
    have hlen := length_words st
    omega
  have hflags : (words st).getD 11 0 = flags st := (rfl)
  simp only [unlayout, buf_layout, hword 0 (by decide), hword 1 (by decide), hword 2 (by decide),
    hword 3 (by decide), hword 4 (by decide), hword 5 (by decide), hword 6 (by decide),
    hword 7 (by decide), hword 8 (by decide), hword 9 (by decide), hword 10 (by decide),
    hword 11 (by decide), hflags, flags_nbuf, flags_bulk]
  rfl

/-! ### The exports -/

variable (t : Target)

/-- A state is read back from where it was put. -/
theorem putState_eq {m : List Byte} {p : BitVec 32} (st : State)
    (h : p.toNat + stateSize ≤ m.length) : (putState m p st).length = m.length ∧
      unlayout (region (putState m p st) p.toNat stateSize) = st := by
  have hlen := length_layout st
  refine ⟨length_spliced (by omega), ?_⟩
  have hregion : region (putState m p st) p.toNat (layout st).length = layout st :=
    region_spliced (by omega)
  rw [hlen] at hregion
  rw [hregion, unlayout_layout]

/-- A digest is read back from where it was put. -/
theorem putHash128_eq {m : List Byte} {out : BitVec 32} (x : C.Walk.Hash128)
    (h : out.toNat + 16 ≤ m.length) : (putHash128 m out x).length = m.length ∧
      region (putHash128 m out x) out.toNat 16 = store64 [x.lo, x.hi] := by
  have hlen : (store64 [x.lo, x.hi]).length = 16 := length_store64 _
  refine ⟨length_spliced (by omega), ?_⟩
  have hregion : region (putHash128 m out x) out.toNat (store64 [x.lo, x.hi]).length =
    store64 [x.lo, x.hi] :=
    region_spliced (by omega)
  rwa [hlen] at hregion

theorem toInt_len {len : BitVec 32} (h : len.toNat ≤ 0x7fffffff) : len.toInt = len.toNat :=
  BitVec.toInt_eq_toNat_of_lt (by omega)

/-- **The exports wrap the functions of the header**, wherever the heap begins in the first page. -/
theorem wraps {heapBase : ℕ} (h : heapBase + 560 ≤ 65536) :
    Wraps (api t heapBase) t fun bs st => unlayout bs = st where
  low := by
    have hsize : (api t heapBase).stateSize = 544 := rfl
    have hbase : (api t heapBase).heapBase = heapBase := rfl
    omega
  hayahash64 {m p len} seed _ _ hlen := by
    have hval := (runs_hayahash64 t (ofList (region m p.toNat len.toNat)) len.toNat seed).value_eq
    refine ⟨rfl, ?_⟩
    simp only [api, wasmHayahash64, toInt_len hlen, hval, Option.getD_some]
  hayahash128 {m p len out} seed _ hout hp hlen := by
    have hval := (runs_hayahash128 t (ofList (region m p.toNat len.toNat)) len.toNat seed).value_eq
    obtain ⟨hsize, hregion⟩ := putHash128_eq
      (compact128 (ofList (region m p.toNat len.toNat)) len.toNat seed)
      (show out.toNat + 16 ≤ m.length by omega)
    simp only [api, wasmHayahash128, toInt_len hlen, hval, Option.elim_some]
    exact ⟨hsize, _, rfl, hregion⟩
  streamInit {m st} seed _ hst := by
    obtain ⟨hsize, hrep⟩ := putState_eq (C.Stream.hayahash64Init (stateAt m st) seed) hst
    exact ⟨hsize, _, hrep⟩
  streamUpdate {m st p n cst cst'} _ hst hp _ hrep hval := by
    have hat : stateAt m st = cst := hrep
    obtain ⟨hsize, hrep'⟩ := putState_eq (m := m) (p := st) cst' (by
      have hstate : (api t heapBase).stateSize = stateSize := rfl
      omega)
    simp only [api, hat, hval, Option.elim_some]
    exact ⟨hsize, hrep'⟩
  streamDigest {m st out cst x} _ hst hout hrep hval := by
    have hat : stateAt m st = cst := hrep
    simp only [api, hat, hval, Option.elim_some]
    exact putHash128_eq x hout

end Hayahash.Refine.Shim
