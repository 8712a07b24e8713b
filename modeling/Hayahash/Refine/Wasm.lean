import Hayahash.Ports.Wasm
import Hayahash.Refine.Digest
import Hayahash.Refine.Js

/-! # The hashers on one engine do not disturb each other

`Wraps A t rep`: the exports do on the bytes they are pointed at what the functions of the header
do. Then every method of the engine does the same on arrays outside of the memory, whatever is in
the memory when it is called (`streamUpdate_does` and so on): all that a method reads there it has
put there before. So what a hasher stands for (`Has`) is up to its own calls. -/

namespace Hayahash.Refine.Wasm

open Hayahash.Lib.ReadProg Hayahash.Lib.Bytes Hayahash.Lib.Checked Hayahash.Lib.Arrays
open Hayahash.Lib.Bigint Hayahash.Lib.Effects
open Hayahash.Spec.Reference Hayahash.Spec.Stream Hayahash.Ports.Session Hayahash.Ports.Wasm
open Hayahash.Refine.Oneshot Hayahash.Refine.Update Hayahash.Refine.Digest
open Hayahash.C.Primitives (Word Target)
open Hayahash.C.Oneshot (hayahash64 hayahash128)
open Hayahash.C.Stream (State hayahash64Init hayahash64Update hayahash128Digest bufMem)
open Hayahash.Ports.Js (Big128)

/-! ### What the exports do -/

/-- **The exports wrap the functions of the header.** `rep` says which bytes are which state. What
the exports write besides, and below `heapBase`, is up to them, but they do not let the memory
grow. -/
structure Wraps (A : Api) (t : Target) (rep : List Byte → State → Prop) : Prop where
  low : A.heapBase + A.stateSize + 16 ≤ 65536
  hayahash64 : ∀ {m : List Byte} {p len : BitVec 32} (seed : Word), A.heapBase ≤ p.toNat →
    p.toNat + len.toNat ≤ m.length → len.toNat ≤ 0x7fffffff →
    (A.hayahash64 m p len seed).2.length = m.length ∧
      value (ofList (region m p.toNat len.toNat)) (hayahash64 t len.toNat seed) =
        some (A.hayahash64 m p len seed).1
  hayahash128 : ∀ {m : List Byte} {p len out : BitVec 32} (seed : Word), A.heapBase ≤ out.toNat →
    out.toNat + 16 ≤ p.toNat → p.toNat + len.toNat ≤ m.length → len.toNat ≤ 0x7fffffff →
    (A.hayahash128 m p len seed out).length = m.length ∧
      ∃ x, value (ofList (region m p.toNat len.toNat)) (hayahash128 t len.toNat seed) = some x ∧
        region (A.hayahash128 m p len seed out) out.toNat 16 = store64 [x.lo, x.hi]
  streamInit : ∀ {m : List Byte} {st : BitVec 32} (seed : Word), A.heapBase ≤ st.toNat →
    st.toNat + A.stateSize ≤ m.length →
    (A.streamInit m st seed).length = m.length ∧
      ∃ cst, rep (region (A.streamInit m st seed) st.toNat A.stateSize) (hayahash64Init cst seed)
  streamUpdate : ∀ {m : List Byte} {st p n : BitVec 32} {cst cst' : State}, A.heapBase ≤ st.toNat →
    st.toNat + A.stateSize ≤ p.toNat → p.toNat + n.toNat ≤ m.length → n.toNat ≤ 0x7fffffff →
    rep (region m st.toNat A.stateSize) cst →
    value (ofList (region m p.toNat n.toNat)) (hayahash64Update t cst n.toNat) = some cst' →
    (A.streamUpdate m st p n).length = m.length ∧
      rep (region (A.streamUpdate m st p n) st.toNat A.stateSize) cst'
  streamDigest : ∀ {m : List Byte} {st out : BitVec 32} {cst : State} {x : C.Walk.Hash128},
    A.heapBase ≤ st.toNat → st.toNat + A.stateSize ≤ out.toNat → out.toNat + 16 ≤ m.length →
    rep (region m st.toNat A.stateSize) cst →
    value (bufMem cst.buf) (hayahash128Digest t cst) = some x →
    (A.streamDigest m st out).length = m.length ∧
      region (A.streamDigest m st out) out.toNat 16 = store64 [x.lo, x.hi]

/-! ### The memory -/

variable {A : Api} {host : ℕ → Bool} {t : Target} {rep : List Byte → State → Prop}
variable {s : Instance} {xs : List Byte} {seed : Word}

theorem u32_eq {x : ℤ} {n : ℕ} (hx : x = n) (h : n < 2 ^ 32) : (u32 x).toNat = n := by
  rw [u32, hx, BitVec.ofInt_natCast, BitVec.toNat_ofNat, Nat.mod_eq_of_lt h]

/-- **The host lets the memory be so long**: it is, or it may grow. -/
def Granted (host : ℕ → Bool) (needed : ℤ) (s : Instance) : Prop :=
  needed ≤ s.bytes.length ∨ host s.growths = true

/-- **The memory is so long**, and no longer than it was if it was so long before. -/
structure Grown (needed : ℤ) (s s' : Instance) : Prop where
  enough : needed ≤ s'.bytes.length
  more : s.bytes.length ≤ s'.bytes.length
  same : needed ≤ s.bytes.length → s'.bytes.length = s.bytes.length

theorem growTo_does {needed : ℤ} (hg : Granted host needed s) :
    Does (growTo host needed) s fun _ s' => Grown needed s s' := by
  refine .get_bind ?_
  by_cases hlt : s.bytes.length < needed
  · have hhost : host s.growths = true := hg.resolve_left (not_le.mpr hlt)
    rw [if_pos hlt]
    unfold Does Ends grow page
    rw [if_pos hhost]
    refine ⟨?_, ?_, fun hle => absurd hle (not_le.mpr hlt)⟩
    · dsimp only
      rw [List.length_append, List.length_replicate]
      push_cast
      omega
    · dsimp only
      rw [List.length_append]
      omega
  · rw [if_neg hlt]
    exact .pure ⟨not_lt.mp hlt, le_rfl, fun _ => rfl⟩

/-- **After `reserve` the view is of the memory**, which is as long as it has to be. -/
theorem reserve_does {needed : ℤ} (hg : Granted host needed s) :
    Does (reserve host needed) s fun m s' => m = s'.buffer ∧ Grown needed s s' := by
  refine (growTo_does hg).bind fun _ s hs => .modify_bind <| .get_bind <| .pure ?_
  by_cases hview : s.view ≠ s.buffer
  · rw [if_pos hview]
    exact ⟨rfl, hs.enough, hs.more, hs.same⟩
  · rw [if_neg hview]
    exact ⟨not_not.mp hview, hs⟩

theorem viewSet_does {src : List Byte} {x : ℤ} {p : ℕ} (hp : x = p)
    (h : p + src.length ≤ s.bytes.length) :
    Does (viewSet s.buffer src x) s fun _ s' => s' = { s with bytes := spliced s.bytes p src } := by
  unfold Does Ends viewSet
  rw [if_neg (by simp), hp, blit_eq h]
  rfl

theorem viewRead_does {p n : ℕ} (h : p + n ≤ s.bytes.length) :
    Does (viewRead s.buffer p (p + n : ℕ)) s fun bs s' => bs = region s.bytes p n ∧ s' = s := by
  have hall := Refine.PortStream.shows_all (c := s.bytes) le_rfl
  have hsub := (Refine.Js.subarray_shows hall (Nat.le_add_right p n) h).bytes
  rw [Nat.add_sub_cancel_left] at hsub
  unfold Does Ends viewRead
  rw [if_neg (by simp)]
  exact ⟨hsub, rfl⟩

theorem stateSet_does {state src : List Byte} (h : src.length = state.length) :
    Does (stateSet state src) s fun st s' => st = src ∧ s' = s := by
  have hblit : blit state 0 src = pure src := by
    have hfit : blit state (0 : ℕ) src = pure (spliced state 0 src) := blit_eq (by omega)
    rw [spliced_zero, List.drop_eq_nil_of_le h.ge, List.append_nil] at hfit
    exact hfit
  rw [stateSet, hblit]
  exact .pure ⟨rfl, rfl⟩

theorem getBigUint64_does {p : ℕ} (h : p + 8 ≤ s.bytes.length) :
    Does (getBigUint64 p) s fun x s' => x = val (word64 (ofList s.bytes) p) ∧ s' = s := by
  unfold Does Ends getBigUint64
  rw [View.read64_eq (by omega) (by simp only [View.all]; omega)]
  simp only [View.all, zero_add]
  exact ⟨rfl, rfl⟩

theorem readHash128_does {q : ℤ} {p : ℕ} {x : C.Walk.Hash128} (hq : q = p)
    (h : p + 16 ≤ s.bytes.length) (hx : region s.bytes p 16 = store64 [x.lo, x.hi]) :
    Does (readHash128 q) s fun y s' => y = ⟨val x.lo, val x.hi⟩ ∧ s' = s := by
  subst hq
  have hword : ∀ j : ℕ, j < 2 → word64 (ofList s.bytes) ((p + 8 * j : ℕ) : ℤ) =
    [x.lo, x.hi].getD j 0 := by
    intro j hj
    have hregion := word64_region (i := 8 * j) (by omega) h
    rw [← hregion, hx, ← word64_store64 [x.lo, x.hi] j hj]
    push_cast
    rfl
  refine (getBigUint64_does (by omega)).bind ?_
  rintro _ s ⟨rfl, rfl⟩
  have hnext : (p : ℤ) + 8 = (p + 8 * 1 : ℕ) := by omega
  rw [hnext]
  refine (getBigUint64_does (by omega)).bind ?_
  rintro _ s ⟨rfl, rfl⟩
  have h0 := hword 0 (by decide)
  rw [Nat.mul_zero, Nat.add_zero] at h0
  rw [h0, hword 1 (by decide)]
  exact .pure ⟨rfl, rfl⟩

/-! ### The layout -/

theorem outPtr_nat : A.outPtr = (A.heapBase + A.stateSize : ℕ) := by
  unfold Api.outPtr
  push_cast
  rfl

theorem streamInputPtr_nat : A.streamInputPtr = (A.heapBase + A.stateSize + 16 : ℕ) := by
  unfold Api.streamInputPtr Api.outPtr
  push_cast
  rfl

section Pointers
variable (hA : Wraps A t rep)
include hA

theorem statePtr_eq : (u32 A.statePtr).toNat = A.heapBase :=
  u32_eq rfl (by have hlow := hA.low; omega)

theorem outPtr_eq : (u32 A.outPtr).toNat = A.heapBase + A.stateSize :=
  u32_eq outPtr_nat (by have hlow := hA.low; omega)

theorem streamInputPtr_eq : (u32 A.streamInputPtr).toNat = A.heapBase + A.stateSize + 16 :=
  u32_eq streamInputPtr_nat (by have hlow := hA.low; omega)

end Pointers

theorem readState_does {state : List Byte} (hlen : state.length = A.stateSize)
    (hs : A.heapBase + A.stateSize ≤ s.bytes.length) :
    Does (do stateSet state (← viewRead s.buffer A.statePtr (A.statePtr + A.stateSize))) s
      fun st s' => st = region s.bytes A.heapBase A.stateSize ∧ s' = s := by
  refine (viewRead_does hs).bind ?_
  rintro _ s ⟨rfl, rfl⟩
  exact stateSet_does (by rw [length_region hs, hlen])

/-! ### The engine -/

section Engine
variable (hA : Wraps A t rep)
include hA

theorem streamInit_does {state : List Byte} (hlen : state.length = A.stateSize) (seed : Word)
    (hg : Granted host (A.statePtr + A.stateSize) s) :
    Does (streamInit A host state (val seed)) s fun st s' => Grown (A.statePtr + A.stateSize) s s' ∧
      st.length = A.stateSize ∧ ∃ cst, rep st (hayahash64Init cst seed) := by
  refine (reserve_does hg).bind ?_
  rintro _ s ⟨rfl, hs, hmore, hsame⟩
  have hfit : A.heapBase + A.stateSize ≤ s.bytes.length := by
    unfold Api.statePtr at hs
    omega
  have hptr := statePtr_eq hA
  have hst : (u32 A.statePtr).toNat + A.stateSize ≤ s.bytes.length := by omega
  obtain ⟨hsize, hrep⟩ := hA.streamInit seed (by omega) hst
  rw [hptr] at hrep
  rw [ofInt_val]
  refine .modify_bind ?_
  refine (readState_does (s := { s with bytes := A.streamInit s.bytes _ _ }) hlen
    (by dsimp only; omega)).mono ?_
  rintro st _ ⟨rfl, rfl⟩
  refine ⟨⟨?_, ?_, fun hle => ?_⟩, length_region (by dsimp only; omega), hrep⟩
  · dsimp only
    omega
  · dsimp only
    omega
  · have hlen' := hsame hle
    dsimp only
    omega

/-- **A state is updated**, whatever is in the memory. -/
theorem streamUpdate_does {state data : List Byte} {cst cst' : State}
    (hlen : state.length = A.stateSize) (hrep : rep state cst) (hdata : data.length ≤ 0x7fffffff)
    (hval : value (ofList data) (hayahash64Update t cst data.length) = some cst')
    (hg : Granted host (A.streamInputPtr + data.length) s) :
    Does (streamUpdate A host state data) s fun st s' =>
    A.streamInputPtr + data.length ≤ s'.bytes.length ∧
      s.bytes.length ≤ s'.bytes.length ∧ st.length = A.stateSize ∧ rep st cst' := by
  refine (reserve_does hg).bind ?_
  rintro _ s ⟨rfl, hs, hmore, -⟩
  have hfit : A.heapBase + A.stateSize + 16 + data.length ≤ s.bytes.length := by
    rw [streamInputPtr_nat] at hs
    omega
  have hptr := statePtr_eq hA
  have hin := streamInputPtr_eq hA
  have hn : (u32 data.length).toNat = data.length := u32_eq rfl (by omega)
  refine (viewSet_does (p := A.heapBase) rfl (by omega)).bind ?_
  rintro _ s' rfl
  have hfirst : (spliced s.bytes A.heapBase state).length = s.bytes.length :=
    length_spliced (by omega)
  refine (viewSet_does (s := { s with bytes := spliced s.bytes A.heapBase state })
    streamInputPtr_nat (by rw [hfirst]; exact hfit)).bind ?_
  rintro _ s'' rfl
  refine .modify_bind ?_
  dsimp only
  -- both regions hold what was copied there
  generalize hm :
    spliced (spliced s.bytes A.heapBase state) (A.heapBase + A.stateSize + 16) data = m
  have hmlen : m.length = s.bytes.length := by
    rw [← hm, length_spliced (by rw [hfirst]; exact hfit), hfirst]
  have hstate : region m A.heapBase A.stateSize = state := by
    rw [← hm, region_spliced_apart (by rw [hfirst]; omega) (.inl (by omega)), ← hlen,
      region_spliced (by omega)]
  have hbytes : region m (A.heapBase + A.stateSize + 16) data.length = data := by
    rw [← hm, region_spliced (by rw [hfirst]; omega)]
  have hrep' : rep (region m (u32 A.statePtr).toNat A.stateSize) cst := by
    rw [hptr, hstate]
    exact hrep
  have hval' : value (ofList (region m (u32 A.streamInputPtr).toNat (u32 data.length).toNat))
      (hayahash64Update t cst (u32 data.length).toNat) = some cst' := by
    rw [hin, hn, hbytes]
    exact hval
  obtain ⟨hsize, hupdated⟩ :=
    hA.streamUpdate (by omega) (by omega) (by omega) (by omega) hrep' hval'
  rw [hptr] at hupdated
  refine (readState_does (s := { s with bytes := A.streamUpdate m _ _ _ }) hlen
    (by dsimp only; omega)).mono ?_
  rintro st _ ⟨rfl, rfl⟩
  exact ⟨by dsimp only; omega, by dsimp only; omega, length_region (by dsimp only; omega), hupdated⟩

/-- **A state is digested**, whatever is in the memory. -/
theorem streamDigest_does {state : List Byte} {cst : State} {x : C.Walk.Hash128}
    (hlen : state.length = A.stateSize) (hrep : rep state cst)
    (hval : value (bufMem cst.buf) (hayahash128Digest t cst) = some x)
    (hg : Granted host (A.outPtr + 16) s) :
    Does (streamDigest A host state) s fun y s' => s.bytes.length ≤ s'.bytes.length ∧
      y = ⟨val x.lo, val x.hi⟩ := by
  refine (reserve_does hg).bind ?_
  rintro _ s ⟨rfl, hs, hmore, -⟩
  have hfit : A.heapBase + A.stateSize + 16 ≤ s.bytes.length := by
    rw [outPtr_nat] at hs
    omega
  have hptr := statePtr_eq hA
  have hptr' := outPtr_eq hA
  refine (viewSet_does (p := A.heapBase) rfl (by omega)).bind ?_
  rintro _ s' rfl
  refine .modify_bind ?_
  have hmlen : (spliced s.bytes A.heapBase state).length = s.bytes.length :=
    length_spliced (by omega)
  have hstate : region (spliced s.bytes A.heapBase state) A.heapBase A.stateSize = state := by
    rw [← hlen, region_spliced (by omega)]
  have hrep' :
    rep (region (spliced s.bytes A.heapBase state) (u32 A.statePtr).toNat A.stateSize) cst := by
    rw [hptr, hstate]
    exact hrep
  have hout : (u32 A.outPtr).toNat + 16 ≤ (spliced s.bytes A.heapBase state).length := by omega
  obtain ⟨hsize, hdigest⟩ := hA.streamDigest (by omega) (by omega) hout hrep' hval
  rw [hptr'] at hdigest
  refine (readHash128_does outPtr_nat (by dsimp only; omega) hdigest).mono ?_
  rintro y _ ⟨rfl, rfl⟩
  exact ⟨by dsimp only; omega, rfl⟩

/-- **A one-shot hash**, whatever is in the memory. -/
theorem hash_does {data : List Byte} (hdata : data.length ≤ 0x7fffffff) (seed : Word)
    (hg : Granted host (A.heapBase + data.length) s) :
    Does (hash A host data (val seed)) s fun x s' => s.bytes.length ≤ s'.bytes.length ∧
      x = val (compact64 (ofList data) data.length seed) := by
  refine (reserve_does hg).bind ?_
  rintro _ s ⟨rfl, hs, hmore, -⟩
  have hfit : A.heapBase + data.length ≤ s.bytes.length := by omega
  have hptr : (u32 A.heapBase).toNat = A.heapBase := statePtr_eq hA
  have hn : (u32 data.length).toNat = data.length := u32_eq rfl (by omega)
  refine (viewSet_does (p := A.heapBase) rfl hfit).bind ?_
  rintro _ s' rfl
  refine .get_bind <| .modify_bind <| .pure ?_
  have hmlen : (spliced s.bytes A.heapBase data).length = s.bytes.length := length_spliced hfit
  have hbytes : region (spliced s.bytes A.heapBase data) A.heapBase data.length = data :=
    region_spliced (by omega)
  have hkey : (u32 A.heapBase).toNat + (u32 data.length).toNat ≤
      (spliced s.bytes A.heapBase data).length := by omega
  obtain ⟨hsize, hhash⟩ := hA.hayahash64 seed (by omega) hkey (by omega)
  rw [hptr, hn, hbytes, (runs_hayahash64 t (ofList data) data.length seed).value_eq] at hhash
  rw [ofInt_val, mask_eq, BitVec.ofInt_toInt, ← Option.some.inj hhash]
  exact ⟨by dsimp only; omega, rfl⟩

/-- **A one-shot hash of 128 bits**, whatever is in the memory. -/
theorem hash128_does {data : List Byte} (hdata : data.length ≤ 0x7fffffff) (seed : Word)
    (hg : Granted host (A.heapBase + 16 + data.length) s) :
    Does (hash128 A host data (val seed)) s fun x s' => s.bytes.length ≤ s'.bytes.length ∧
      x = ⟨val (compact128 (ofList data) data.length seed).lo,
        val (compact128 (ofList data) data.length seed).hi⟩ := by
  have hlow := hA.low
  refine (reserve_does hg).bind ?_
  rintro _ s ⟨rfl, hs, hmore, -⟩
  have hinput : (A.heapBase : ℤ) + 16 = (A.heapBase + 16 : ℕ) := by omega
  have hfit : A.heapBase + 16 + data.length ≤ s.bytes.length := by omega
  have hptr : (u32 A.heapBase).toNat = A.heapBase := statePtr_eq hA
  have hin : (u32 ((A.heapBase : ℤ) + 16)).toNat = A.heapBase + 16 := u32_eq hinput (by omega)
  have hn : (u32 data.length).toNat = data.length := u32_eq rfl (by omega)
  refine (viewSet_does hinput hfit).bind ?_
  rintro _ s' rfl
  refine .modify_bind ?_
  have hmlen : (spliced s.bytes (A.heapBase + 16) data).length = s.bytes.length :=
    length_spliced hfit
  have hbytes :
    region (spliced s.bytes (A.heapBase + 16) data) (A.heapBase + 16) data.length = data :=
    region_spliced (by omega)
  have hkey : (u32 ((A.heapBase : ℤ) + 16)).toNat + (u32 data.length).toNat ≤
      (spliced s.bytes (A.heapBase + 16) data).length := by omega
  have hbefore : (u32 A.heapBase).toNat + 16 ≤ (u32 ((A.heapBase : ℤ) + 16)).toNat := by omega
  obtain ⟨hsize, x, hx, hout⟩ := hA.hayahash128 seed (by omega) hbefore hkey (by omega)
  rw [hin, hn, hbytes, (runs_hayahash128 t (ofList data) data.length seed).value_eq] at hx
  rw [hptr] at hout
  rw [ofInt_val, Option.some.inj hx]
  refine (readHash128_does rfl (by dsimp only; omega) hout).mono ?_
  rintro y _ ⟨rfl, rfl⟩
  exact ⟨by dsimp only; omega, rfl⟩

/-! ### `index.ts` -/

omit hA in
theorem pureEngine_does {α : Type} (a : α) :
    Does (pureEngine (pure a)) s fun x s' => s.bytes.length ≤ s'.bytes.length ∧ x = a :=
  .ofExcept rfl ⟨le_rfl, rfl⟩

theorem oneshot64_does (data : List Byte) (seed : ℤ)
    (hg : Granted host (A.heapBase + data.length) s) :
    Does (oneshot64 A host data seed) s fun x s' => s.bytes.length ≤ s'.bytes.length ∧
      x = val (compact64 (ofList data) data.length (.ofInt 64 seed)) := by
  unfold oneshot64
  rw [mask_eq]
  by_cases hlen : (data.length : ℤ) ≤ wasmMaxLen
  · rw [if_pos hlen]
    unfold wasmMaxLen at hlen
    exact hash_does hA (by omega) _ hg
  · rw [if_neg hlen]
    rw [Refine.Js.hashPure_eq (PortStream.shows_all (c := data) le_rfl)]
    exact pureEngine_does _

theorem oneshot128_does (data : List Byte) (seed : ℤ)
    (hg : Granted host (A.heapBase + 16 + data.length) s) :
    Does (oneshot128 A host data seed) s fun x s' => s.bytes.length ≤ s'.bytes.length ∧
      x = ⟨val (compact128 (ofList data) data.length (.ofInt 64 seed)).lo,
        val (compact128 (ofList data) data.length (.ofInt 64 seed)).hi⟩ := by
  unfold oneshot128
  rw [mask_eq]
  by_cases hlen : (data.length : ℤ) ≤ wasmMaxLen
  · rw [if_pos hlen]
    unfold wasmMaxLen at hlen
    exact hash128_does hA (by omega) _ hg
  · rw [if_neg hlen]
    rw [Refine.Js.hash128Pure_eq (PortStream.shows_all (c := data) le_rfl)]
    exact pureEngine_does _

end Engine

/-! ### Hashers -/

/-- The array of a state stands for the input `xs` under `seed`. -/
def Has (A : Api) (rep : List Byte → State → Prop) (seed : Word) (xs state : List Byte) : Prop :=
  state.length = A.stateSize ∧ ∃ cst, rep state cst ∧ Represents seed xs cst

/-- **A hasher stands for a log.** -/
structure Stands (A : Api) (rep : List Byte → State → Prop) (log : Log) (h : Hasher) : Prop where
  seed : h.seed = val log.seed
  total : h.total = val (.ofNat 64 log.bytes.length)
  state : Has A rep log.seed log.bytes h.state

theorem log_bytes_take (log : Log) (c : List Byte) : (log.take c).bytes = log.bytes ++ c := by
  simp [Log.bytes, Log.take]

theorem piece_le : 0x7fffffff ≤ t.ptrdiffMax := by
  unfold Target.ptrdiffMax Target.sizeBits
  cases t.sizeWidth <;> decide

/-- The length of the first piece of `n` bytes. -/
def pieceLength (n : ℕ) : ℕ := min n 0x7fffffff

theorem pieceLength_mono {a b : ℕ} (h : a ≤ b) : pieceLength a ≤ pieceLength b :=
  min_le_min_right _ h

/-- **An update is given the memory it asks for.** It asks for it with its first piece: no other is
longer. -/
def UpdateGranted (A : Api) (host : ℕ → Bool) (data : List Byte) (s : Instance) : Prop :=
  data.length = 0 ∨ Granted host (A.streamInputPtr + pieceLength data.length) s

theorem onHasher_does {α : Type} {i : ℕ} {x : Hasher.Method α} {hs : List Hasher} {h : Hasher}
    {Q : α → Hasher × Instance → Prop} (hi : hs[i]? = some h) (hx : Does x (h, s) Q) :
    Does (onHasher i x) (hs, s) fun a s' => ∃ h', s'.1 = hs.set i h' ∧ Q a (h', s'.2) := by
  obtain ⟨a, s', hrun, hq⟩ := hx.run
  unfold Does Ends onHasher
  dsimp only
  rw [hi]
  dsimp only
  rw [hrun]
  exact ⟨s'.1, rfl, hq⟩

theorem forall₂_set {α β : Type} {R : α → β → Prop} {as : List α} {bs : List β}
    (h : List.Forall₂ R as bs) {a : α} {b : β} (hab : R a b) : ∀ i : ℕ,
    List.Forall₂ R (as.set i a) (bs.set i b) := by
  induction h with
  | nil => exact fun _ => .nil
  | cons hx hxs ih =>
    intro i
    cases i with
    | zero => exact .cons hab hxs
    | succ i => exact .cons hx (ih i)

section Hashers
variable (hA : Wraps A t rep)
include hA

theorem new_does (seed : ℤ) (hg : Granted host (A.statePtr + A.stateSize) s) :
    Does (Hasher.new A host seed) s fun h s' => Grown (A.statePtr + A.stateSize) s s' ∧
      Stands A rep ⟨.ofInt 64 seed, []⟩ h := by
  unfold Hasher.new
  dsimp only
  rw [mask_eq]
  refine (streamInit_does hA List.length_replicate _ hg).bind ?_
  rintro st s ⟨hgrown, hlen, cst, hrep⟩
  exact .pure ⟨hgrown, rfl, rfl, hlen, _, hrep, represents_init cst _⟩

variable {log : Log} {h : Hasher}

theorem restart_does (hlen : h.state.length = A.stateSize) (hseed : h.seed = val seed)
    (hg : Granted host (A.statePtr + A.stateSize) s) : Does (do
      Hasher.change fun h => { h with total := 0 }
      let h ← Eff.get
      let state ← Eff.second (streamInit A host h.1.state h.1.seed)
      Hasher.change fun h => { h with state := state }) (h, s)
      fun _ s' => s.bytes.length ≤ s'.2.bytes.length ∧ Stands A rep ⟨seed, []⟩ s'.1 := by
  refine .modify_bind <| .get_bind ?_
  dsimp only
  rw [hseed]
  refine (Does.second (streamInit_does hA hlen _ hg)).bind ?_
  rintro st ⟨h', s'⟩ ⟨rfl, hgrown, hlen, cst, hrep⟩
  exact .modify ⟨hgrown.more, rfl, rfl, hlen, _, hrep, represents_init cst _⟩

/-- A reset does not look at the total. -/
theorem reset_does (hlen : h.state.length = A.stateSize) (hseed : h.seed = val seed) (r : Option ℤ)
    (hg : Granted host (A.statePtr + A.stateSize) s) :
    Does (Hasher.reset A host r) (h, s) fun _ s' => s.bytes.length ≤ s'.2.bytes.length ∧
      Stands A rep ⟨meaning.reseed r seed, []⟩ s'.1 := by
  refine .modify_bind ?_
  cases r with
  | none => exact restart_does hA hlen hseed hg
  | some seed => exact restart_does (h := { h with seed := mask seed }) hA hlen (mask_eq seed) hg

/-- **The pieces of a chunk are absorbed one behind the other.** -/
theorem updatePieces_does (data : List Byte) : ∀ (fuel off : ℕ) {xs : List Byte} {h : Hasher}
    {s : Instance}, data.length - off < fuel → Has A rep seed (xs ++ data.take off) h.state →
    (off < data.length → Granted host (A.streamInputPtr + pieceLength (data.length - off)) s) →
    Does (Hasher.updatePieces A host data fuel off) (h, s) fun _ s' =>
      s.bytes.length ≤ s'.2.bytes.length ∧
        s'.1.seed = h.seed ∧ s'.1.total = h.total ∧ Has A rep seed (xs ++ data) s'.1.state := by
  intro fuel
  induction fuel with
  | zero => intro off xs h s hoff; omega
  | succ fuel ih =>
    intro off xs h s hoff hst hg
    unfold Hasher.updatePieces
    by_cases hlt : (off : ℤ) < data.length
    · have hall := PortStream.shows_all (c := data) le_rfl
      have hend : min ((off : ℤ) + wasmMaxLen) data.length =
          (min (off + 0x7fffffff) data.length : ℕ) := by
        unfold wasmMaxLen
        omega
      have hnext : (off : ℤ) + wasmMaxLen = (off + 0x7fffffff : ℕ) := by
        unfold wasmMaxLen
        omega
      have hpiece :=
        (Refine.Js.subarray_shows hall (a := off) (b := min (off + 0x7fffffff) data.length)
        (by omega) (by omega)).bytes
      generalize hp : (data.drop off).take (min (off + 0x7fffffff) data.length - off) =
        piece at hpiece
      have hlen : piece.length = min (off + 0x7fffffff) data.length - off := by
        rw [← hp, List.length_take, List.length_drop]
        omega
      have htaken : data.take off ++ piece = data.take (off + 0x7fffffff) := by
        have hmin :
          data.take (off + 0x7fffffff) = data.take (min (off + 0x7fffffff) data.length) := by
          rw [← List.take_take, List.take_length]
        have hsum : min (off + 0x7fffffff) data.length =
            off + (min (off + 0x7fffffff) data.length - off) := by omega
        rw [hmin, hsum, List.take_add, hp]
      obtain ⟨hsize, cst, hrep, hrepr⟩ := hst
      obtain ⟨cst', hval, hrepr'⟩ := (update_safe t (c := piece) hrepr
        (le_trans (by omega) piece_le)).value
      rw [if_pos hlt]
      refine .get_bind ?_
      dsimp only
      rw [hend, hpiece, hnext]
      have hpl : pieceLength (data.length - off) = piece.length := by
        unfold pieceLength
        omega
      have hgranted := hg (by omega)
      rw [hpl] at hgranted
      refine (Does.second (streamUpdate_does hA hsize hrep (by omega) hval hgranted)).bind ?_
      rintro st ⟨h', s'⟩ ⟨rfl, hfit, hmore, hsize', hrep'⟩
      refine .modify_bind ?_
      rw [List.append_assoc, htaken] at hrepr'
      -- the memory is long enough for the other pieces
      refine (ih (off + 0x7fffffff) (h := { h' with state := st }) (s := s') (by omega)
        ⟨hsize', cst', hrep', hrepr'⟩ fun _ => .inl ?_).mono ?_
      · have hle :=
          pieceLength_mono (Nat.sub_le_sub_left (Nat.le_add_right off 0x7fffffff) data.length)
        rw [hpl] at hle
        exact le_trans (by omega) hfit
      · rintro _ s'' ⟨hmore', hkept⟩
        exact ⟨le_trans hmore hmore', hkept⟩
    · rw [if_neg hlt]
      rw [List.take_of_length_le (by omega)] at hst
      exact .pure ⟨le_rfl, rfl, rfl, hst⟩

/-- **An update that is given the memory it asks for** absorbs the chunk. -/
theorem update_does (hstate : Has A rep log.seed log.bytes h.state) (data : List Byte)
    (hg : UpdateGranted A host data s) :
    Does (Hasher.update A host data) (h, s) fun _ s' => s.bytes.length ≤ s'.2.bytes.length ∧
      s'.1.seed = h.seed ∧
      s'.1.total = (if data.length = 0 then h.total else mask (h.total + data.length)) ∧
      Has A rep log.seed (log.take data).bytes s'.1.state := by
  unfold Hasher.update
  rw [log_bytes_take]
  by_cases hempty : data.length = 0
  · rw [if_pos hempty, if_pos hempty, List.eq_nil_of_length_eq_zero hempty, List.append_nil]
    exact .pure ⟨le_rfl, rfl, rfl, hstate⟩
  · rw [if_neg hempty, if_neg hempty]
    refine .modify_bind ?_
    have hnone : Has A rep log.seed (log.bytes ++ data.take 0) h.state := by
      rw [List.take_zero, List.append_nil]
      exact hstate
    have hfirst : Granted host (A.streamInputPtr + pieceLength (data.length - 0)) s := by
      rw [Nat.sub_zero]
      exact hg.resolve_left hempty
    exact updatePieces_does hA data (data.length + 1) 0
      (h := { h with total := mask (h.total + data.length) }) (by omega) hnone fun _ => hfirst

theorem update_stands (hst : Stands A rep log h) (data : List Byte)
    (hg : UpdateGranted A host data s) :
    Does (Hasher.update A host data) (h, s) fun _ s' => s.bytes.length ≤ s'.2.bytes.length ∧
      Stands A rep (log.take data) s'.1 := by
  refine (update_does hA hst.state data hg).mono ?_
  rintro _ ⟨h', s'⟩ ⟨hmore, hseed, htotal, hstate⟩
  refine ⟨hmore, hseed.trans hst.seed, ?_, hstate⟩
  rw [htotal, hst.total, log_bytes_take]
  by_cases hempty : data.length = 0
  · rw [if_pos hempty, List.eq_nil_of_length_eq_zero hempty, List.append_nil]
  · rw [if_neg hempty, List.length_append, mask_eq, BitVec.ofInt_add, ofInt_val,
      BitVec.ofInt_natCast, BitVec.ofNat_add]

theorem digest128_does (hstate : Has A rep log.seed log.bytes h.state)
    (hg : Granted host (A.outPtr + 16) s) :
    Does (Hasher.digest128 A host) (h, s) fun x s' => s'.1 = h ∧
      s.bytes.length ≤ s'.2.bytes.length ∧
      x = ⟨val (compact128 (ofList log.bytes) log.bytes.length log.seed).lo,
        val (compact128 (ofList log.bytes) log.bytes.length log.seed).hi⟩ := by
  obtain ⟨hsize, cst, hrep, hrepr⟩ := hstate
  refine .get_bind ?_
  exact Does.second (streamDigest_does hA hsize hrep (value_digest128 t hrepr) hg)

theorem digest64_does (hstate : Has A rep log.seed log.bytes h.state)
    (hg : Granted host (A.outPtr + 16) s) :
    Does (Hasher.digest64 A host) (h, s) fun x s' => s'.1 = h ∧
      s.bytes.length ≤ s'.2.bytes.length ∧
      x = val (compact64 (ofList log.bytes) log.bytes.length log.seed) := by
  obtain ⟨hsize, cst, hrep, hrepr⟩ := hstate
  refine .get_bind ?_
  refine (Does.second (streamDigest_does hA hsize hrep (value_digest128 t hrepr) hg)).bind ?_
  rintro _ ⟨h', s'⟩ ⟨rfl, hmore, rfl⟩
  exact .pure ⟨rfl, hmore, rfl⟩

variable (hgrow : ∀ n, host n = true)
include hgrow

/-- **A call on a hasher** returns what it should, on any target. -/
theorem call_does (t' : Target) (hst : Stands A rep log h) (c : Call (List Byte) (Option ℤ))
    (s : Instance) : Does (Hasher.call A host c) (h, s) fun as s' =>
    ∃ log', expect meaning t' log c = some (log', as) ∧
      Stands A rep log' s'.1 := by
  cases c with
  | update c =>
    refine (update_stands hA hst c (.inr (.inr (hgrow _)))).bind ?_
    rintro _ s' ⟨-, hst'⟩
    exact .pure ⟨_, rfl, hst'⟩
  | digest64 =>
    refine (digest64_does hA hst.state (.inr (hgrow _))).bind ?_
    rintro _ ⟨h', s'⟩ ⟨rfl, -, rfl⟩
    refine .pure ⟨log, ?_, hst⟩
    simp [expect, (runs_hayahash64 t' (ofList log.bytes) log.bytes.length log.seed).value_eq,
      meaning]
  | digest128 =>
    refine (digest128_does hA hst.state (.inr (hgrow _))).bind ?_
    rintro _ ⟨h', s'⟩ ⟨rfl, -, rfl⟩
    refine .pure ⟨log, ?_, hst⟩
    simp [expect, (runs_hayahash128 t' (ofList log.bytes) log.bytes.length log.seed).value_eq,
      meaning]
  | reset r =>
    refine (reset_does hA hst.state.1 hst.seed r (.inr (hgrow _))).bind ?_
    rintro _ s' ⟨-, hst'⟩
    exact .pure ⟨_, rfl, hst'⟩

/-! ### Systems -/

variable {logs : List Log} {hs : List Hasher}

/-- **A step returns what it should**, and leaves every hasher with what is its own. -/
theorem step_does (t' : Target) (hst : List.Forall₂ (Stands A rep) logs hs) (op : Op)
    (ops : List Op) (hop : Known hs.length (op :: ops)) (s : Instance) :
    Does (step A host op) (hs, s) fun as s' => ∃ logs', expectStep t' logs op = some (logs', as) ∧
      List.Forall₂ (Stands A rep) logs' s'.1 ∧ Known s'.1.length ops := by
  cases op with
  | new seed =>
    refine (Does.second (new_does hA seed (.inr (hgrow _)))).bind ?_
    rintro h ⟨hs', s'⟩ ⟨rfl, -, hh⟩
    refine .modify_bind <| .pure ⟨_, rfl, ?_, ?_⟩
    · exact List.rel_append hst (.cons hh .nil)
    · rw [List.length_append]
      exact hop
  | call i c =>
    obtain ⟨hi, hknown⟩ := hop
    have hlen := hst.length_eq
    have hlog := List.getElem?_eq_getElem (l := logs) (i := i) (by omega)
    have hone : Stands A rep logs[i] hs[i] := hst.get (by omega) hi
    refine (onHasher_does (List.getElem?_eq_getElem hi) (call_does hA hgrow t' hone c s)).mono ?_
    rintro as ⟨_, s'⟩ ⟨h', rfl, log', hexpect, hst'⟩
    refine ⟨logs.set i log', ?_, forall₂_set hst hst' i, ?_⟩
    · simp [expectStep, hlog, hexpect]
    · rw [List.length_set]
      exact hknown
  | hash64 data seed =>
    refine (Does.second (oneshot64_does hA data seed (.inr (hgrow _)))).bind ?_
    rintro x ⟨hs', s'⟩ ⟨rfl, -, rfl⟩
    refine .pure ⟨logs, ?_, hst, hop⟩
    simp [expectStep, (runs_hayahash64 t' (ofList data) data.length (.ofInt 64 seed)).value_eq]
  | hash128 data seed =>
    refine (Does.second (oneshot128_does hA data seed (.inr (hgrow _)))).bind ?_
    rintro x ⟨hs', s'⟩ ⟨rfl, -, rfl⟩
    refine .pure ⟨logs, ?_, hst, hop⟩
    simp [expectStep, (runs_hayahash128 t' (ofList data) data.length (.ofInt 64 seed)).value_eq]

/-- **A run returns what it should**, whatever is in the memory when it begins. -/
theorem runAll_does (t' : Target) (ops : List Op) :
    ∀ {logs : List Log} {hs : List Hasher} (s : Instance),
    List.Forall₂ (Stands A rep) logs hs → Known hs.length ops →
    Does (runAll A host ops) (hs, s) fun as s' =>
    ∃ logs', expectRun t' logs ops = some (logs', as) ∧
      List.Forall₂ (Stands A rep) logs' s'.1 := by
  induction ops with
  | nil =>
    intro logs hs s hst _
    exact .pure ⟨logs, rfl, hst⟩
  | cons op ops ih =>
    intro logs hs s hst hknown
    refine (step_does hA hgrow t' hst op ops hknown s).bind ?_
    rintro as ⟨hs', s'⟩ ⟨logs', hstep, hst', hknown'⟩
    refine (ih s' hst' hknown').bind ?_
    rintro as' ⟨hs'', s''⟩ ⟨logs'', hrest, hst''⟩
    exact .pure ⟨logs'', by simp [expectRun, hstep, hrest], hst''⟩

end Hashers

end Hayahash.Refine.Wasm
