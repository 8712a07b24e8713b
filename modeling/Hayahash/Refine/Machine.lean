import Hayahash.Refine.Update

/-! # The streaming state of the header is the machine

`Mirrors st a`: the state `st` has the lanes, the counter, the phase and the buffered bytes of the
machine `a`. A state and a machine that stand for one input mirror each other as soon as they hold
the same number of bytes (`mirrors_of`), and an update leaves as many in the buffer as the machine
holds, so they mirror each other after any updates (`feedAll_mirrors`). -/

namespace Hayahash.Refine.Machine

open Hayahash.Lib.ReadProg Hayahash.Lib.Bytes Hayahash.C.Primitives Hayahash.C.Walk
open Hayahash.C.Stream Hayahash.Spec.Reference Hayahash.Spec.Shift Hayahash.Spec.Stream
open Hayahash.Spec.Machine Hayahash.Refine.Update

variable {t : Target} {seed : Word} {xs : List Byte} {st : State} {a : Absorber}

/-- The state and the machine agree, up to the bytes of the buffer that are not in use. -/
structure Mirrors (st : State) (a : Absorber) : Prop where
  lanes : (st.h, st.wp) = a.lanes
  seed : st.seed = a.seed
  total : st.total = a.total
  nbuf : st.nbuf.toNat = a.held.length
  bulk : st.bulk = a.bulk
  buf : st.buf.toList.take a.held.length = a.held

theorem take_buf {buf : Vector Byte bufcap} {held : List Byte} (hlt : held.length < bufcap)
    (h : Same (bufMem buf) 0 (ofList held) 0 held.length) : buf.toList.take held.length = held := by
  have hbuf : buf.toList.length = bufcap := Vector.length_toList
  refine ofList_inj (by rw [List.length_take, hbuf]; omega) fun i hi => ?_
  rw [List.length_take, hbuf] at hi
  have hbyte := h i (by omega) (by omega)
  rw [zero_add] at hbyte
  rw [← hbyte, bufMem, ofList_nat, ofList_nat, List.getD_eq_getElem?_getD,
    List.getD_eq_getElem?_getD, List.getElem?_take_of_lt (by omega)]

/-- **What a state and a machine stand for, and how much they hold, decide them.** -/
theorem mirrors_of (hst : Represents seed xs st) (ha : Absorber.Holds seed xs a)
    (hn : st.nbuf.toNat = a.held.length) : Mirrors st a := by
  obtain ⟨done, hxs, ⟨k, hk⟩, hlanes⟩ := ha.fed
  rw [List.append_nil] at hxs
  have hlen : xs.length = 64 * k + st.nbuf.toNat := by rw [hxs, List.length_append, hk, hn]
  have habsorb : a.lanes = Spec.Reference.blocks (ofList xs) k 0 (iv8 (seed ^^^ K), 0) := by
    have hdiv : done.length / 64 = k := by omega
    rw [hlanes, Spec.Machine.absorb, hdiv, hxs, blocks_same (same_left done a.held (by omega))]
  have hheld : Same (ofList xs) (64 * k : ℕ) (ofList a.held) 0 a.held.length := by
    intro i h0 _
    have hright := ofList_append_right (a := done) (b := a.held) h0
    rw [hk, ← hxs] at hright
    rw [zero_add, hright]
  have hseed := hst.seed.trans ha.seed.symm
  have htotal := hst.total.trans ha.total.symm
  rcases hst.phase with hu | hb
  · have hk0 : k = 0 := by have := hu.nbuf; omega
    have hbulk : a.bulk = false := by
      rw [← Bool.not_eq_true, ha.bulk_iff]
      have := hu.lt
      omega
    refine ⟨?_, hseed, htotal, hn, hu.bulk.trans hbulk.symm, take_buf ha.lt ?_⟩
    · rw [hu.lanes, habsorb, hk0, hst.seed]
      rfl
    · have hbuf := hu.buf
      rw [hk0] at hheld
      rw [hn] at hbuf
      exact Same.trans hbuf hheld
  · have hsub : xs.length - st.nbuf.toNat = 64 * k := by omega
    have hdiv : 64 * k / 64 = k := by omega
    refine ⟨?_, hseed, htotal, hn, hb.bulk.trans (ha.bulk_iff.mpr hb.ge).symm, take_buf ha.lt ?_⟩
    · rw [hb.lanes, habsorb, hsub, hdiv, hst.seed]
    · have hbuf := hb.buf
      rw [hsub, hn] at hbuf
      exact Same.trans hbuf hheld

theorem init_mirrors (st : State) (seed : Word) :
    Mirrors (hayahash64Init st seed) (Absorber.init seed) :=
  mirrors_of (represents_init st seed) (Absorber.init_holds seed) rfl

/-- The state after updates with the chunks of a list. -/
def feedAll (t : Target) (st : State) (cs : List (List Byte)) : Option State :=
  cs.foldlM (fun st c => value (ofList c) (hayahash64Update t st c.length)) st

/-- **After any updates the state mirrors the machine.** -/
theorem feedAll_mirrors (cs : List (List Byte)) : ∀ {xs : List Byte} {st : State} {a : Absorber},
    (∀ c ∈ cs, c.length ≤ t.ptrdiffMax) → Represents seed xs st → Absorber.Holds seed xs a →
    Mirrors st a → ∃ st', feedAll t st cs = some st' ∧
    Mirrors st' (cs.foldl Absorber.update a) := by
  induction cs with
  | nil =>
    intro xs st a _ _ _ hm
    exact ⟨st, rfl, hm⟩
  | cons c cs ih =>
    intro xs st a hc hst ha hm
    obtain ⟨st₁, hv, hst₁, hn⟩ := (update_fill t hst (hc c List.mem_cons_self)).value
    have ha₁ := Absorber.update_holds ha c
    rw [hm.bulk, hm.nbuf, ← Absorber.update_fill] at hn
    obtain ⟨st₂, hf, hm₂⟩ := ih (fun d hd => hc d (List.mem_cons_of_mem _ hd)) hst₁ ha₁
      (mirrors_of hst₁ ha₁ hn)
    exact ⟨st₂, by rw [feedAll, List.foldlM_cons, hv]; exact hf, hm₂⟩

end Hayahash.Refine.Machine
