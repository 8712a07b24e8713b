import Hayahash.Refine.Refusal
import Hayahash.Refine.Shim

/-! # Updates that are refused memory

**`refused_update`**: after an update that throws, the digests are those from before, but the length
counts the chunk, unless its length is a multiple of `2 ^ 64`. -/

namespace Hayahash.Main.Refusal

open Hayahash.Lib.Bytes Hayahash.Lib.Bigint Hayahash.Lib.Effects
open Hayahash.Ports.Session Hayahash.Ports.Wasm Hayahash.Refine.Wasm Hayahash.Refine.Refusal
open Hayahash.Ports.Shim (api)
open Hayahash.C.Primitives (Word Target)
open Hayahash.C.Stream (State)

variable {A : Api} {host : ℕ → Bool} {t : Target} {rep : List Byte → State → Prop}
variable {s : Instance} {h : Hasher} {log : Log} {data : List Byte}

/-- **The length counts what the state holds.** -/
def Counts (log : Log) (h : Hasher) : Prop := h.length = val (.ofNat 64 log.bytes.length)

/-- The digests of `h'` are those of `h`. -/
def SameDigests (A : Api) (host : ℕ → Bool) (h : Hasher) (s : Instance) (h' : Hasher)
    (s' : Instance) : Prop :=
  (Hasher.digest64 A host (h', s')).1 = (Hasher.digest64 A host (h, s)).1 ∧
    (Hasher.digest128 A host (h', s')).1 = (Hasher.digest128 A host (h, s)).1

/-- **An update of a hasher that has taken `log` leaves it as it was, if it throws.** -/
def LeavesAlone (A : Api) (host : ℕ → Bool) (rep : List Byte → State → Prop) (log : Log)
    (h : Hasher) (data : List Byte) (s : Instance) : Prop :=
  ∀ e h' s', Hasher.update A host data (h, s) = (.error e, h', s') →
    Has A rep log.seed log.bytes h'.state ∧ Counts log h' ∧ h'.length = h.length ∧
      SameDigests A host h s h' s'

/-! ### Digests -/

/-- The digests depend on what the state stands for only. -/
theorem sameDigests_of_has (hA : Wraps A t rep) {h' : Hasher} {s' : Instance} (hs : Roomy s)
    (hs' : Roomy s') (hstate : Has A rep log.seed log.bytes h.state)
    (hstate' : Has A rep log.seed log.bytes h'.state) : SameDigests A host h s h' s' := by
  have hg : Granted host (A.outPtr + 16) s := hs.granted (outPtr_le hA)
  have hg' : Granted host (A.outPtr + 16) s' := hs'.granted (outPtr_le hA)
  constructor
  · obtain ⟨x, _, hx, -, -, rfl⟩ := (digest64_does hA hstate hg).run
    obtain ⟨y, _, hy, -, -, rfl⟩ := (digest64_does hA hstate' hg').run
    rw [hx, hy]
  · obtain ⟨x, _, hx, -, -, rfl⟩ := (digest128_does hA hstate hg).run
    obtain ⟨y, _, hy, -, -, rfl⟩ := (digest128_does hA hstate' hg').run
    rw [hx, hy]

/-- **What an update that throws has done**: it was refused its memory. -/
theorem update_error (hA : Wraps A t rep) (hstate : Has A rep log.seed log.bytes h.state)
    {e : Thrown} {h' : Hasher} {s' : Instance} (hthrow : Hasher.update A host data (h, s) =
    (.error e, h', s')) : ¬UpdateGranted A host data s ∧ h' =
      { h with total := mask (h.total + data.length) } ∧
      s' = refuse s := by
  have hg : ¬UpdateGranted A host data s := by
    intro hg
    obtain ⟨_, _, hrun, -⟩ := (update_does hA hstate data hg).run
    rw [hthrow] at hrun
    cases hrun
  rw [update_refused h hg] at hthrow
  cases hthrow
  exact ⟨hg, rfl, rfl⟩

/-- **Exactly when an update leaves the hasher alone.** -/
theorem leavesAlone_iff {exact : Prop} (hA : Wraps A t rep) (hk : Keeps A rep exact log h)
    (hs : Roomy s) : LeavesAlone A host rep log h data s ↔
      UpdateGranted A host data s ∨ 2 ^ 64 ∣ data.length ∧ Counts log h := by
  obtain ⟨w, hw⟩ := hk.range
  constructor
  · intro hleft
    by_cases hg : UpdateGranted A host data s
    · exact .inl hg
    · obtain ⟨-, hcounts, hsame, -⟩ := hleft _ _ _ (update_refused h hg)
      have hsum : mask (h.total + data.length) = h.total := hsame
      refine .inr ⟨?_, ?_⟩
      · rw [hw, mask_total] at hsum
        have hzero : BitVec.ofNat 64 data.length = 0 :=
          add_left_cancel ((val_inj hsum).trans (add_zero w).symm)
        have hmod := congrArg BitVec.toNat hzero
        rw [BitVec.toNat_ofNat] at hmod
        exact Nat.dvd_of_mod_eq_zero hmod
      · exact hsum.symm.trans hcounts
  · rintro hok e h' s' hthrow
    obtain ⟨hg, rfl, rfl⟩ := update_error hA hk.state hthrow
    obtain ⟨hdvd, hcounts⟩ := hok.resolve_left hg
    have hsum : mask (h.total + data.length) = h.total := by
      rw [hw, mask_total, ofNat_of_dvd hdvd, add_zero]
    exact ⟨hk.state, hsum.trans hcounts, hsum,
      sameDigests_of_has hA hs (roomy_refuse hs) hk.state hk.state⟩

/-! ### Main result -/

/-- **Updates that throw.** On an engine whose memory begins with a page or more, whatever the host
refuses, in every run, exceptions caught:
an update that throws leaves the hasher as it was exactly if it is of a length that the counter does
not see, and the length was right before; in any case the state and the digests are those from
before. So in a run all of whose updates are given the memory they ask for, or are of such a length,
every update leaves the hasher alone, and every length is right. -/
theorem refused_update (A : Api) (t : Target) (rep : List Byte → State → Prop) (hA : Wraps A t rep)
    (host : ℕ → Bool) (m : List Byte) (hm : page ≤ m.length) :
    (∀ logs sys, Reached A host m (fun _ _ => True) logs sys →
      ∀ (i : ℕ) log h, logs[i]? = some log → sys.1[i]? = some h → ∀ data,
        (LeavesAlone A host rep log h data sys.2 ↔
          UpdateGranted A host data sys.2 ∨ 2 ^ 64 ∣ data.length ∧ Counts log h) ∧
        ∀ e h' s', Hasher.update A host data (h, sys.2) = (.error e, h', s') →
          h'.state = h.state ∧ SameDigests A host h sys.2 h' s' ∧
            h'.length = mask (h.length + data.length)) ∧
    ∀ logs sys, Reached A host m (StepGranted A host) logs sys →
      ∀ (i : ℕ) log h, logs[i]? = some log → sys.1[i]? = some h →
        Has A rep log.seed log.bytes h.state ∧ Counts log h ∧
          ∀ data, StepGranted A host (.call i (.update data)) sys.2 →
            LeavesAlone A host rep log h data sys.2 := by
  have hone :
    ∀ {exact : Prop} {logs : List Log} {hs : List Hasher} {i : ℕ} {log : Log} {h : Hasher},
      List.Forall₂ (Keeps A rep exact) logs hs → logs[i]? = some log → hs[i]? = some h →
        Keeps A rep exact log h := by
    intro exact logs hs i log h hk hlog hh
    obtain ⟨hi, rfl⟩ := List.getElem?_eq_some_iff.mp hlog
    obtain ⟨hi', rfl⟩ := List.getElem?_eq_some_iff.mp hh
    exact hk.get hi hi'
  constructor
  · intro logs sys hr i log h hlog hh data
    obtain ⟨hks, hs⟩ := reached_keeps hA hm (fun hf : False => hf.elim) hr
    have hk := hone hks hlog hh
    refine ⟨leavesAlone_iff hA hk hs, fun e h' s' hthrow => ?_⟩
    obtain ⟨-, rfl, rfl⟩ := update_error hA hk.state hthrow
    exact ⟨rfl, sameDigests_of_has hA hs (roomy_refuse hs) hk.state hk.state, rfl⟩
  · intro logs sys hr i log h hlog hh
    obtain ⟨hks, hs⟩ := reached_keeps hA hm (fun (_ : True) _ _ hop => hop) hr
    have hk := hone hks hlog hh
    refine ⟨hk.state, hk.total trivial, fun data hop => (leavesAlone_iff hA hk hs).mpr ?_⟩
    exact hop.imp_right fun hdvd => ⟨hdvd, hk.total trivial⟩

/-! ### A refusal -/

/-- A new hasher fits in the first page. -/
theorem reached_new (hA : Wraps A t rep) (host : ℕ → Bool) {m : List Byte} (hm : page ≤ m.length)
    (seed : ℤ) {P : Op → Instance → Prop} (hP : P (.new seed) (.start m)) :
    ∃ h s, Reached A host m P [⟨.ofInt 64 seed, []⟩] ([h], s) ∧ h.length = 0 ∧
      s.bytes.length = m.length := by
  have hroomy : Roomy (.start m) := hm
  have hg : Granted host (A.statePtr + A.stateSize) (.start m) := hroomy.granted (state_le hA)
  obtain ⟨h, s, hnew, hgrown, hst⟩ := (new_does hA seed hg).run
  have hstep : step A host (.new seed) ([], .start m) = (.ok [], ([h], s)) := by
    unfold step
    show Eff.bind (Eff.second (Hasher.new A host seed)) _ ([], .start m) = _
    unfold Eff.bind Eff.second
    rw [hnew]
    rfl
  exact ⟨h, s, .returned .start hP hstep, hst.total, hgrown.same (le_trans (state_le hA) hroomy)⟩

/-- The module of the package, on which the heap is the upper half of the first page. -/
abbrev package : Api := api ⟨.wasm, .clang, false, .little, .w32⟩ 32768

/-- The first page, of zeros. -/
def firstPage : List Byte := List.replicate 65536 0

theorem length_firstPage : firstPage.length = 65536 := List.length_replicate

theorem page_le_firstPage : page ≤ firstPage.length := by
  rw [length_firstPage]
  decide

theorem package_wraps : Wraps package ⟨.wasm, .clang, false, .little, .w32⟩
    fun bs st => Ports.Shim.unlayout bs = st := Refine.Shim.wraps _ (by decide)

/-- On a host that refuses, a new hasher takes three bytes, and not 40000. -/
theorem refused_update_new : ∃ h s,
    Counts ⟨0, []⟩ h ∧
    LeavesAlone package (fun _ => false) (fun bs st => Ports.Shim.unlayout bs = st) ⟨0, []⟩ h
    [1, 2, 3] s ∧
    (LeavesAlone package (fun _ => false) (fun bs st => Ports.Shim.unlayout bs = st) ⟨0, []⟩ h
        (List.replicate 40000 0) s ↔
      UpdateGranted package (fun _ => false) (List.replicate 40000 0) s ∨
        2 ^ 64 ∣ (List.replicate 40000 (0 : Byte)).length ∧ Counts ⟨0, []⟩ h) := by
  obtain ⟨h, s, hr, hlen, hsize⟩ := reached_new package_wraps (fun _ => false) page_le_firstPage 0
    (P := StepGranted package fun _ => false) trivial
  rw [length_firstPage] at hsize
  have hmain :=
    refused_update package _ _ package_wraps (fun _ => false) firstPage page_le_firstPage
  obtain ⟨-, hcounts, hleft⟩ := hmain.2 _ _ hr 0 ⟨0, []⟩ h rfl rfl
  refine ⟨h, s, hcounts, hleft _ (.inl (.inr (.inl ?_))), ?_⟩
  · rw [hsize]
    decide
  · exact (hmain.1 _ _ (hr.mono fun _ _ _ => trivial) 0 ⟨0, []⟩ h rfl rfl _).1

/-- **A chunk of 40000 bytes that the page cannot hold**: the update throws, the length is 40000,
and the state holds nothing. -/
theorem length_after_refusal : ∃ h s s',
    Reached package (fun _ => false) firstPage (fun _ _ => True) [⟨0, []⟩] ([h], s) ∧ h.length = 0 ∧
      Hasher.update package (fun _ => false) (List.replicate 40000 0) (h, s) =
        (.error .grow, { h with total := 40000 }, s') ∧
      ¬LeavesAlone package (fun _ => false) (fun bs st => Ports.Shim.unlayout bs = st) ⟨0, []⟩ h
        (List.replicate 40000 0) s := by
  obtain ⟨h, s, hr, hlen, hsize⟩ :=
    reached_new package_wraps (fun _ => false) page_le_firstPage 0 (P := fun _ _ => True) trivial
  rw [length_firstPage] at hsize
  have hg : ¬UpdateGranted package (fun _ => false) (List.replicate 40000 0) s := by
    rintro (hempty | hfit | hhost)
    · rw [List.length_replicate] at hempty
      exact absurd hempty (by decide)
    · rw [List.length_replicate, hsize] at hfit
      exact absurd hfit (by decide)
    · cases hhost
  have hthrow := update_refused h hg
  have htotal : mask (h.total + (List.replicate 40000 (0 : Byte)).length) = 40000 := by
    have hzero : h.total = 0 := hlen
    rw [List.length_replicate, hzero]
    decide
  rw [htotal] at hthrow
  refine ⟨h, s, _, hr, hlen, hthrow, fun hleft => ?_⟩
  obtain ⟨-, -, hsame, -⟩ := hleft _ _ _ hthrow
  have hne : (40000 : ℤ) = 0 := hsame.trans hlen
  exact absurd hne (by decide)

end Hayahash.Main.Refusal
