import Hayahash.Refine.Wasm

/-! # When the memory does not grow

A host may refuse to let the memory grow; then `reserve` throws, before the method has done anything
to the memory (`reserve_refused`). An update has changed its total by then, and nothing else
(`update_refused`).

`Reached`: what a run leads to in which the exceptions are caught, with what each hasher has taken:
the chunks of the updates that returned. Every hasher keeps exactly these in its state
(`reached_keeps`); its total is their length if every refused update was of a length that the
counter does not see. -/

namespace Hayahash.Refine.Refusal

open Hayahash.Lib.Bytes Hayahash.Lib.Bigint Hayahash.Lib.Effects
open Hayahash.Ports.Session Hayahash.Ports.Wasm Hayahash.Refine.Wasm
open Hayahash.Ports.Js (subarray)
open Hayahash.C.Primitives (Word Target)
open Hayahash.C.Stream (State)

variable {A : Api} {host : ℕ → Bool} {t : Target} {rep : List Byte → State → Prop}
variable {s : Instance} {h : Hasher} {log : Log} {data : List Byte}

/-! ### Refusals -/

/-- The engine after the memory was not let grow. -/
def refuse (s : Instance) : Instance := { s with growths := s.growths + 1 }

theorem growTo_refused {needed : ℤ} (hg : ¬Granted host needed s) :
    growTo host needed s = (.error .grow, refuse s) := by
  obtain ⟨hlt, hhost⟩ := not_or.mp hg
  show (if s.bytes.length < needed then
    grow host ((needed - s.bytes.length + (page - 1)) / page) else pure ()) s = _
  rw [if_pos (not_le.mp hlt), grow, if_neg hhost]
  rfl

/-- **A method that needs memory it is refused** throws, and has done nothing. -/
theorem reserve_refused {α : Type} {f : ℕ → Engine α} {needed : ℤ} (hg : ¬Granted host needed s) :
    (reserve host needed >>= f) s = (.error .grow, refuse s) :=
  bind_of_error (bind_of_error (growTo_refused hg))

/-- **An update that is refused its memory** has changed its total. -/
theorem update_refused (h : Hasher) (hg : ¬UpdateGranted A host data s) :
    Hasher.update A host data (h, s) =
      (.error .grow, { h with total := mask (h.total + data.length) }, refuse s) := by
  obtain ⟨hempty, hfirst⟩ := not_or.mp hg
  have hlt : (0 : ℤ) < data.length := by omega
  have hall := PortStream.shows_all (c := data) le_rfl
  have hend : min ((0 : ℤ) + wasmMaxLen) data.length = (pieceLength data.length : ℕ) := by
    unfold wasmMaxLen pieceLength
    omega
  have hle : pieceLength data.length ≤ data.length := min_le_left _ _
  have hpiece := (Refine.Js.subarray_shows hall (Nat.zero_le _) hle).bytes
  have hlen : ((data.drop 0).take (pieceLength data.length - 0)).length =
    pieceLength data.length := by
    rw [List.length_take, List.length_drop]
    omega
  have hthrows : ∀ st, streamUpdate A host st ((data.drop 0).take (pieceLength data.length - 0)) s =
      (.error .grow, refuse s) := fun st => by
    unfold streamUpdate
    refine reserve_refused ?_
    rwa [hlen]
  unfold Hasher.update
  rw [if_neg hempty]
  show Hasher.updatePieces A host data (data.length + 1) 0
    ({ h with total := mask (h.total + data.length) }, s) = _
  unfold Hasher.updatePieces
  rw [if_pos hlt, hend]
  show ((Eff.second (streamUpdate A host h.state
    (subarray (.all data) (0 : ℕ) (pieceLength data.length : ℕ)).bytes) >>= _) :
      Hasher.Method Unit) _ = _
  rw [hpiece]
  refine bind_of_error ?_
  unfold Eff.second
  rw [hthrows]

/-! ### Runs that catch the exceptions -/

/-- What a hasher has taken after a call that returned. -/
def takenBy (log : Log) : Call (List Byte) (Option ℤ) → Log
  | .update c => log.take c
  | .digest64 => log
  | .digest128 => log
  | .reset r => ⟨meaning.reseed r log.seed, []⟩

/-- What the hashers have taken after a step that returned. -/
def taken (logs : List Log) : Op → List Log
  | .new seed => logs ++ [⟨.ofInt 64 seed, []⟩]
  | .call i c => logs.modify i (takenBy · c)
  | .hash64 _ _ => logs
  | .hash128 _ _ => logs

/-- **What a run leads to**, from the memory `m`, all of whose steps satisfy `P`: the hashers on the
engine, and what they have taken. A step may throw, and the run goes on. -/
inductive Reached (A : Api) (host : ℕ → Bool) (m : List Byte) (P : Op → Instance → Prop) :
    List Log → Sys → Prop
  | start : Reached A host m P [] ([], .start m)
  | returned {logs : List Log} {sys sys' : Sys} {op : Op} {as : List Ports.Js.PureHasher.BigAnswer}
      (h : Reached A host m P logs sys) (hop : P op sys.2) (hs : step A host op sys =
      (.ok as, sys')) : Reached A host m P (taken logs op) sys'
  | threw {logs : List Log} {sys sys' : Sys} {op : Op} {e : Thrown}
      (h : Reached A host m P logs sys)
      (hop : P op sys.2) (hs : step A host op sys = (.error e, sys')) : Reached A host m P logs sys'

theorem Reached.mono {m : List Byte} {P Q : Op → Instance → Prop} (hPQ : ∀ op s, P op s → Q op s)
    {logs : List Log} {sys : Sys} (hr : Reached A host m P logs sys) :
    Reached A host m Q logs sys := by
  induction hr with
  | start => exact .start
  | returned _ hop hs ih => exact .returned ih (hPQ _ _ hop) hs
  | threw _ hop hs ih => exact .threw ih (hPQ _ _ hop) hs

/-- **A step whose update is given its memory**, or is of a length that the counter does not see. -/
def StepGranted (A : Api) (host : ℕ → Bool) : Op → Instance → Prop
  | .call _ (.update c), s => UpdateGranted A host c s ∨ 2 ^ 64 ∣ c.length
  | _, _ => True

/-- **What a hasher keeps**: its state stands for what it has taken, and the total is its length, if
it is `exact`. -/
structure Keeps (A : Api) (rep : List Byte → State → Prop) (exact : Prop) (log : Log) (h : Hasher) :
    Prop where
  seed : h.seed = val log.seed
  state : Has A rep log.seed log.bytes h.state
  range : ∃ w : Word, h.total = val w
  total : exact → h.total = val (.ofNat 64 log.bytes.length)

variable {exact : Prop}

theorem Keeps.of_stands (hst : Stands A rep log h) : Keeps A rep exact log h :=
  ⟨hst.seed, hst.state, ⟨_, hst.total⟩, fun _ => hst.total⟩

theorem mask_total (w : Word) (n : ℕ) : mask (val w + n) = val (w + .ofNat 64 n) := by
  rw [mask_eq, BitVec.ofInt_add, ofInt_val, BitVec.ofInt_natCast]

theorem ofNat_of_dvd {n : ℕ} (h : 2 ^ 64 ∣ n) : BitVec.ofNat 64 n = 0 :=
  BitVec.eq_of_toNat_eq (by rw [BitVec.toNat_ofNat, Nat.mod_eq_zero_of_dvd h]; rfl)

theorem Keeps.take (hk : Keeps A rep exact log h) {h' : Hasher} (hseed : h'.seed = h.seed)
    (htotal : h'.total = if data.length = 0 then h.total else mask (h.total + data.length))
    (hstate : Has A rep log.seed (log.take data).bytes h'.state) :
    Keeps A rep exact (log.take data) h' := by
  obtain ⟨w, hw⟩ := hk.range
  have hsum : h'.total = val (w + .ofNat 64 data.length) := by
    by_cases hempty : data.length = 0
    · rw [htotal, if_pos hempty, hw, ofNat_of_dvd (hempty ▸ Nat.dvd_zero _), add_zero]
    · rw [htotal, if_neg hempty, hw, mask_total]
  refine ⟨hseed.trans hk.seed, hstate, ⟨_, hsum⟩, fun he => ?_⟩
  have hlen : w = .ofNat 64 log.bytes.length := val_inj (hw.symm.trans (hk.total he))
  rw [hsum, hlen, log_bytes_take, List.length_append, BitVec.ofNat_add]

theorem Keeps.refused (hk : Keeps A rep exact log h) (hlen : exact → 2 ^ 64 ∣ data.length) :
    Keeps A rep exact log { h with total := mask (h.total + data.length) } := by
  obtain ⟨w, hw⟩ := hk.range
  refine ⟨hk.seed, hk.state, ⟨_, by rw [hw]; exact mask_total w data.length⟩, fun he => ?_⟩
  show mask (h.total + data.length) = _
  rw [hw, mask_total, ofNat_of_dvd (hlen he), add_zero, ← hw, hk.total he]

/-- The memory is at least a page. -/
def Roomy (s : Instance) : Prop := page ≤ s.bytes.length

theorem Roomy.granted (hs : Roomy s) {needed : ℤ} (hn : needed ≤ page) : Granted host needed s :=
  .inl (hn.trans hs)

theorem roomy_refuse (hs : Roomy s) : Roomy (refuse s) := hs

theorem Roomy.mono (hs : Roomy s) {s' : Instance} (h : s.bytes.length ≤ s'.bytes.length) :
    Roomy s' := by
  unfold Roomy at hs ⊢
  omega

section Steps
variable (hA : Wraps A t rep)
include hA

theorem outPtr_le : A.outPtr + 16 ≤ page := by
  have hlow := hA.low
  rw [outPtr_nat]
  unfold page
  omega

theorem state_le : A.statePtr + A.stateSize ≤ page := by
  have hlow := hA.low
  unfold Api.statePtr page
  omega

/-- **An update, whatever the host does**: it takes the chunk, or throws. -/
theorem update_ends (hk : Keeps A rep exact log h) (hs : Roomy s)
    (hop : exact → UpdateGranted A host data s ∨ 2 ^ 64 ∣ data.length) :
    Ends (Hasher.update A host data) (h, s)
      (fun _ s' => Keeps A rep exact (log.take data) s'.1 ∧ Roomy s'.2)
      fun _ s' => Keeps A rep exact log s'.1 ∧ Roomy s'.2 := by
  by_cases hg : UpdateGranted A host data s
  · refine Does.ends ((update_does hA hk.state data hg).mono ?_)
    rintro _ ⟨h', s'⟩ ⟨hmore, hseed, htotal, hstate⟩
    exact ⟨hk.take hseed htotal hstate, hs.mono hmore⟩
  · exact Ends.of_error (update_refused h hg)
      ⟨hk.refused fun he => (hop he).resolve_left hg, roomy_refuse hs⟩

theorem call_ends (hk : Keeps A rep exact log h) (hs : Roomy s) (i : ℕ)
    (c : Call (List Byte) (Option ℤ))
    (hop : exact → StepGranted A host (.call i c) s) : Ends (Hasher.call A host c) (h, s)
      (fun _ s' => Keeps A rep exact (takenBy log c) s'.1 ∧ Roomy s'.2)
      fun _ s' => Keeps A rep exact log s'.1 ∧ Roomy s'.2 := by
  cases c with
  | update c => exact (update_ends hA hk hs hop).bind fun _ _ hq => hq
  | digest64 =>
    refine Does.ends ((digest64_does hA hk.state (hs.granted (outPtr_le hA))).bind ?_)
    rintro _ ⟨h', s'⟩ ⟨rfl, hmore, -⟩
    exact .pure ⟨hk, hs.mono hmore⟩
  | digest128 =>
    refine Does.ends ((digest128_does hA hk.state (hs.granted (outPtr_le hA))).bind ?_)
    rintro _ ⟨h', s'⟩ ⟨rfl, hmore, -⟩
    exact .pure ⟨hk, hs.mono hmore⟩
  | reset r =>
    refine Does.ends ((reset_does hA hk.state.1 hk.seed r (hs.granted (state_le hA))).bind ?_)
    rintro _ ⟨h', s'⟩ ⟨hmore, hst⟩
    exact .pure ⟨.of_stands hst, hs.mono hmore⟩

theorem oneshot64_ends (data : List Byte) (seed : ℤ) (hs : Roomy s) :
    Ends (oneshot64 A host data seed) s (fun _ s' => Roomy s') fun _ s' => Roomy s' := by
  by_cases hg : Granted host (A.heapBase + data.length) s
  · exact Does.ends ((oneshot64_does hA data seed hg).mono fun _ s' hq => hs.mono hq.1)
  · unfold oneshot64
    split_ifs
    · exact Ends.of_error (reserve_refused hg) (roomy_refuse hs)
    · unfold Ends pureEngine Eff.ofExcept
      cases (Ports.Js.hashPure (.all data) (mask seed)).mapError Thrown.engine <;> exact hs

theorem oneshot128_ends (data : List Byte) (seed : ℤ) (hs : Roomy s) :
    Ends (oneshot128 A host data seed) s (fun _ s' => Roomy s') fun _ s' => Roomy s' := by
  by_cases hg : Granted host (A.heapBase + 16 + data.length) s
  · exact Does.ends ((oneshot128_does hA data seed hg).mono fun _ s' hq => hs.mono hq.1)
  · unfold oneshot128
    split_ifs
    · exact Ends.of_error (reserve_refused hg) (roomy_refuse hs)
    · unfold Ends pureEngine Eff.ofExcept
      cases (Ports.Js.hash128Pure (.all data) (mask seed)).mapError Thrown.engine <;> exact hs

variable {logs : List Log} {hs : List Hasher}

/-- **A step**, that returns or throws, leaves every hasher with what it has taken. -/
theorem step_ends (hk : List.Forall₂ (Keeps A rep exact) logs hs) (hroomy : Roomy s) (op : Op)
    (hop : exact → StepGranted A host op s) : Ends (step A host op) (hs, s)
      (fun _ s' => List.Forall₂ (Keeps A rep exact) (taken logs op) s'.1 ∧ Roomy s'.2)
      fun _ s' => List.Forall₂ (Keeps A rep exact) logs s'.1 ∧ Roomy s'.2 := by
  cases op with
  | new seed =>
    refine Does.ends ((Does.second (new_does hA seed (hroomy.granted (state_le hA)))).bind ?_)
    rintro h ⟨hs', s'⟩ ⟨rfl, hgrown, hst⟩
    exact .modify_bind <| .pure
      ⟨List.rel_append hk (.cons (.of_stands hst) .nil), hroomy.mono hgrown.more⟩
  | call i c =>
    show Ends (onHasher i (Hasher.call A host c)) (hs, s) _ _
    by_cases hi : i < hs.length
    · have hlen := hk.length_eq
      have hone : Keeps A rep exact logs[i] hs[i] := hk.get (by omega) hi
      have hcall := call_ends hA hone hroomy i c hop
      unfold Ends at hcall ⊢
      unfold onHasher
      dsimp only
      rw [List.getElem?_eq_getElem hi]
      dsimp only
      generalize Hasher.call A host c (hs[i], s) = r at hcall
      obtain ⟨r, h', s'⟩ := r
      cases r with
      | ok as =>
        have : Inhabited Log := ⟨logs[i]⟩
        refine ⟨?_, hcall.2⟩
        rw [taken, List.modify_eq_set, List.getElem?_eq_getElem (by omega), Option.getD_some]
        exact forall₂_set hk hcall.1 i
      | error e =>
        refine ⟨?_, hcall.2⟩
        have hset := forall₂_set hk hcall.1 i
        rwa [List.set_getElem_self] at hset
    · refine Ends.of_error (e := .missing) (r := (hs, s)) ?_ ⟨hk, hroomy⟩
      unfold onHasher
      dsimp only
      rw [List.getElem?_eq_none (by omega)]
  | hash64 data seed =>
    refine ((oneshot64_ends hA data seed hroomy).second.mono (fun _ _ h => h) ?_).bind ?_
    · rintro e ⟨hs', s'⟩ ⟨rfl, hr⟩
      exact ⟨hk, hr⟩
    · rintro x ⟨hs', s'⟩ ⟨rfl, hr⟩
      exact ⟨hk, hr⟩
  | hash128 data seed =>
    refine ((oneshot128_ends hA data seed hroomy).second.mono (fun _ _ h => h) ?_).bind ?_
    · rintro e ⟨hs', s'⟩ ⟨rfl, hr⟩
      exact ⟨hk, hr⟩
    · rintro x ⟨hs', s'⟩ ⟨rfl, hr⟩
      exact ⟨hk, hr⟩

theorem reached_keeps {m : List Byte} (hm : page ≤ m.length) {P : Op → Instance → Prop}
    (hP : exact → ∀ op s, P op s → StepGranted A host op s) {sys : Sys}
    (hr : Reached A host m P logs sys) :
    List.Forall₂ (Keeps A rep exact) logs sys.1 ∧ Roomy sys.2 := by
  induction hr with
  | start => exact ⟨.nil, hm⟩
  | @returned logs sys sys' op as h hop hs ih =>
    have hstep := step_ends hA ih.1 ih.2 op fun he => hP he op _ hop
    unfold Ends at hstep
    rw [Prod.mk.eta, hs] at hstep
    exact hstep
  | @threw logs sys sys' op e h hop hs ih =>
    have hstep := step_ends hA ih.1 ih.2 op fun he => hP he op _ hop
    unfold Ends at hstep
    rw [Prod.mk.eta, hs] at hstep
    exact hstep

end Steps

end Hayahash.Refine.Refusal
