import Hayahash.Ports.Npm
import Hayahash.Refine.Refusal

/-! # The package does what it should

`Fits`: every engine does what the header does and has a page of memory, and every hasher stands for
what it has taken, on the engine that it was constructed on or on the pure one. Each step keeps it,
whichever engine is in use, and returns what it should (`step_fits`). -/

namespace Hayahash.Refine.Npm

open Hayahash.Lib.ReadProg Hayahash.Lib.Bytes Hayahash.Lib.Checked Hayahash.Lib.Arrays
open Hayahash.Lib.Bigint Hayahash.Lib.Effects
open Hayahash.Spec.Reference Hayahash.Spec.Machine Hayahash.Ports.Session Hayahash.Ports.Npm
open Hayahash.Ports.Js (PureHasher)
open Hayahash.Ports.Js.PureHasher (BigAnswer)
open Hayahash.Ports.Wasm (Api Instance Engine wasmMaxLen oneshot64 oneshot128)
open Hayahash.Refine.Oneshot Hayahash.Refine.PortStream Hayahash.Refine.Session Hayahash.Refine.Js
open Hayahash.Refine.Wasm Hayahash.Refine.Refusal
open Hayahash.C.Primitives (Word Target)
open Hayahash.C.Stream (State bufcap)

variable {A : Api} {host : ℕ → Bool} {t t' : Target} {rep : List Byte → State → Prop} {s : Instance}

/-! ### What the header returns -/

theorem ideal64_eq (t : Target) (data : List Byte) (seed : Word) :
    ideal64 t data seed = some [.word (val (compact64 (ofList data) data.length seed))] := by
  unfold ideal64
  rw [(runs_hayahash64 t (ofList data) data.length seed).value_eq]
  rfl

theorem ideal128_eq (t : Target) (data : List Byte) (seed : Word) :
    ideal128 t data seed = some [.pair ⟨val (compact128 (ofList data) data.length seed).lo,
      val (compact128 (ofList data) data.length seed).hi⟩] := by
  unfold ideal128
  rw [(runs_hayahash128 t (ofList data) data.length seed).value_eq]
  rfl

/-! ### One-shot calls -/

theorem pure64_eq (data : List Byte) (seed : ℤ) : Ports.Js.hashPure (.all data) (mask seed) =
    pure (val (compact64 (ofList data) data.length (.ofInt 64 seed))) := by
  rw [mask_eq]
  exact hashPure_eq (shows_all (c := data) le_rfl) _

theorem pure128_eq (data : List Byte) (seed : ℤ) : Ports.Js.hash128Pure (.all data) (mask seed) =
    pure ⟨val (compact128 (ofList data) data.length (.ofInt 64 seed)).lo,
      val (compact128 (ofList data) data.length (.ofInt 64 seed)).hi⟩ := by
  rw [mask_eq]
  exact hash128Pure_eq (shows_all (c := data) le_rfl) _

theorem idealOneshot_calm (wasm : Bool) (data : List Byte) (x : Option (List BigAnswer)) :
    idealOneshot false wasm data x = x.map .ok := by
  unfold idealOneshot
  rw [if_neg (by simp)]

theorem idealOneshot_refused {data : List Byte} (h : data.length ≤ wasmMaxLen)
    (x : Option (List BigAnswer)) :
    idealOneshot true true data x = some (.error .grow) := by
  unfold idealOneshot
  rw [if_pos ⟨rfl, rfl, h⟩]

/-- What is refused was asked of a host that refuses. -/
theorem refuses_of_not_granted {needed : ℤ} (h : ¬Granted host needed s) : ∃ n, host n = false := by
  obtain ⟨-, hhost⟩ := not_or.mp h
  exact ⟨s.growths, Bool.eq_false_of_not_eq_true hhost⟩

theorem run_return {ε σ α β : Type} {x : Eff ε σ α} {u u' : σ} {a : α} (h : x u = (.ok a, u'))
    (f : α → β) : (do return f (← x) : Eff ε σ β) u = (.ok (f a), u') := by
  show Eff.bind x _ u = _
  unfold Eff.bind
  rw [h]
  rfl

/-- **A one-shot call on an engine**, whatever the host does: it is given its memory, or refused it,
or it is left to the pure engine, which needs none. -/
theorem oneshot_turn {α : Type} {x : Engine α} {f : α → BigAnswer} {a : α} {needed : ℤ}
    {data : List Byte} {want : Option (List BigAnswer)} (hwant : want = some [f a]) (hs : Roomy s)
    (hgranted : Granted host needed s → Does x s fun y s' => s.bytes.length ≤
    s'.bytes.length ∧ y = a) (hrefused : data.length ≤ wasmMaxLen → ¬Granted host needed s → x s =
    (.error .grow, refuse s)) (hpure : ¬data.length ≤ wasmMaxLen → x s =
    (.ok a, s)) : ∃ refused r s',
      (do return [f (← x)] : Engine (List BigAnswer)) s = (r, s') ∧
      idealOneshot refused true data want = some r ∧ Roomy s' ∧
      (refused = true → ∃ n, host n = false) := by
  rw [hwant]
  by_cases hg : Granted host needed s
  · obtain ⟨y, s', hrun, hmore, rfl⟩ := (hgranted hg).run
    exact ⟨false, _, s', run_return hrun _, idealOneshot_calm true data _, hs.mono hmore, by simp⟩
  · by_cases hlen : data.length ≤ wasmMaxLen
    · exact ⟨true, _, refuse s, bind_of_error (hrefused hlen hg), idealOneshot_refused hlen _,
        roomy_refuse hs, fun _ => refuses_of_not_granted hg⟩
    · exact ⟨false, _, s, run_return (hpure hlen) _, idealOneshot_calm true data _, hs, by simp⟩

theorem oneshot64_turn (hA : Wraps A t rep) (t' : Target) (data : List Byte) (seed : ℤ)
    (hs : Roomy s) : ∃ refused r s',
      (do return [.word (← oneshot64 A host data seed)] : Engine (List BigAnswer)) s = (r, s') ∧
      idealOneshot refused true data (ideal64 t' data (.ofInt 64 seed)) = some r ∧ Roomy s' ∧
      (refused = true → ∃ n, host n = false) := by
  refine oneshot_turn (ideal64_eq t' data _) hs (oneshot64_does hA data seed) (fun hlen hg => ?_)
    fun hlen => ?_
  · unfold oneshot64
    rw [if_pos hlen]
    exact reserve_refused hg
  · unfold oneshot64
    rw [if_neg hlen, pure64_eq]
    rfl

theorem oneshot128_turn (hA : Wraps A t rep) (t' : Target) (data : List Byte) (seed : ℤ)
    (hs : Roomy s) : ∃ refused r s',
      (do return [.pair (← oneshot128 A host data seed)] : Engine (List BigAnswer)) s = (r, s') ∧
      idealOneshot refused true data (ideal128 t' data (.ofInt 64 seed)) = some r ∧ Roomy s' ∧
      (refused = true → ∃ n, host n = false) := by
  refine oneshot_turn (ideal128_eq t' data _) hs (oneshot128_does hA data seed) (fun hlen hg => ?_)
    fun hlen => ?_
  · unfold oneshot128
    rw [if_pos hlen]
    exact reserve_refused hg
  · unfold oneshot128
    rw [if_neg hlen, pure128_eq]
    rfl

/-! ### Calls on a hasher -/

/-- **A hasher on an engine is what it should be.** -/
structure OnEngine (A : Api) (rep : List Byte → State → Prop) (o : IdealHasher)
    (h : Ports.Wasm.Hasher) : Prop where
  wasm : o.wasm = true
  seed : h.seed = val o.log.seed
  state : Has A rep o.log.seed o.log.bytes h.state
  total : h.total = val (.ofNat 64 o.offered)

/-- **A hasher on the pure engine is what it should be.** -/
structure OnPure (o : IdealHasher) (h : JsHasher) : Prop where
  wasm : o.wasm = false
  seed : h.seed = val o.log.seed
  pure : StandsBig h.pure (machine o.log)
  total : h.total = val (.ofNat 64 o.offered)

variable {o : IdealHasher}

theorem total_offered {x : ℤ} (h : x = val (.ofNat 64 o.offered)) (n : ℕ) :
    mask (x + n) = val (.ofNat 64 (o.offered + n)) := by
  rw [h, mask_total, BitVec.ofNat_add]

theorem call_update (data : List Byte) : o.call t false (.update data) =
    some (.ok [], { o with log := o.log.take data, offered := o.offered + data.length }) := by
  unfold IdealHasher.call
  simp

theorem call_refused {data : List Byte} (ho : o.wasm = true) (h : data.length ≠ 0) :
    o.call t true (.update data) =
      some (.error .grow, { o with offered := o.offered + data.length }) := by
  unfold IdealHasher.call
  simp [ho, h]

theorem call_digest64 (refused : Bool) : o.call t refused .digest64 =
    some (.ok [.word (val (compact64 (ofList o.log.bytes) o.log.bytes.length o.log.seed))], o) := by
  unfold IdealHasher.call
  rw [ideal64_eq]
  rfl

theorem call_digest128 (refused : Bool) : o.call t refused .digest128 =
    some (.ok [.pair ⟨val (compact128 (ofList o.log.bytes) o.log.bytes.length o.log.seed).lo,
      val (compact128 (ofList o.log.bytes) o.log.bytes.length o.log.seed).hi⟩], o) := by
  unfold IdealHasher.call
  rw [ideal128_eq]
  rfl

/-- **A call on a hasher on an engine**, whatever the host does. -/
theorem wasm_call (host : ℕ → Bool) (hA : Wraps A t rep) (t' : Target) {h : Ports.Wasm.Hasher}
    (ho : OnEngine A rep o h) (hs : Roomy s) (c : Call (List Byte) (Option ℤ)) :
    ∃ refused r h' s' o', Ports.Wasm.Hasher.call A host c (h, s) = (r, h', s') ∧
    o.call t' refused c = some (r, o') ∧
      OnEngine A rep o' h' ∧ Roomy s' ∧ (refused = true → ∃ n, host n = false) := by
  cases c with
  | update data =>
    by_cases hg : UpdateGranted A host data s
    · obtain ⟨⟨⟩, ⟨h', s'⟩, hrun, hmore, hseed, htotal, hstate⟩ :=
        (update_does hA ho.state data hg).run
      refine ⟨false, _, h', s', _, run_return hrun _, call_update data,
        ⟨ho.wasm, hseed.trans ho.seed, hstate, ?_⟩, hs.mono hmore, by simp⟩
      rw [htotal]
      by_cases hempty : data.length = 0
      · rw [if_pos hempty, hempty, Nat.add_zero]
        exact ho.total
      · rw [if_neg hempty]
        exact total_offered ho.total _
    · have hempty : data.length ≠ 0 := (not_or.mp hg).1
      refine ⟨true, _, _, _, _, bind_of_error (update_refused h hg), call_refused ho.wasm hempty,
        ⟨ho.wasm, ho.seed, ho.state, total_offered ho.total _⟩, roomy_refuse hs, fun _ => ?_⟩
      exact refuses_of_not_granted (not_or.mp hg).2
  | digest64 =>
    obtain ⟨x, ⟨h', s'⟩, hrun, rfl, hmore, rfl⟩ :=
      (digest64_does hA ho.state (hs.granted (outPtr_le hA) : Granted host _ s)).run
    exact ⟨false, _, _, s', o, run_return hrun _, call_digest64 false, ho, hs.mono hmore, by simp⟩
  | digest128 =>
    obtain ⟨x, ⟨h', s'⟩, hrun, rfl, hmore, rfl⟩ :=
      (digest128_does hA ho.state (hs.granted (outPtr_le hA) : Granted host _ s)).run
    exact ⟨false, _, _, s', o, run_return hrun _, call_digest128 false, ho, hs.mono hmore, by simp⟩
  | reset r =>
    obtain ⟨⟨⟩, ⟨h', s'⟩, hrun, hmore, hst⟩ :=
      (reset_does hA ho.state.1 ho.seed r (hs.granted (state_le hA) : Granted host _ s)).run
    exact ⟨false, _, h', s', _, run_return hrun _, rfl, ⟨ho.wasm, hst.seed, hst.state, hst.total⟩,
      hs.mono hmore, by simp⟩

theorem onPure_run {α : Type} {h : JsHasher} {x : PureHasher → Chk α} {a : α}
    (hx : x h.pure = pure a) : JsHasher.onPure x h = (.ok a, h) := by
  show Eff.ofExcept ((x h.pure).mapError Ports.Wasm.Thrown.engine) h = _
  rw [hx]
  rfl

theorem keep_run {h : JsHasher} {x : PureHasher → Chk PureHasher} {p : PureHasher}
    (hx : x h.pure = pure p) : JsHasher.keep x h = (.ok (), { h with pure := p }) := by
  show Eff.bind (JsHasher.onPure x) _ h = _
  unfold Eff.bind
  rw [onPure_run hx]
  rfl

theorem restart_run {h : JsHasher} {seed : Word} (hseed : h.seed = val seed)
    (hbuf : h.pure.buf.length = bufcap) : ∃ p, (do
        Eff.modify fun h => { h with total := 0 }
        let h ← Eff.get
        JsHasher.keep fun p => p.reset (some h.seed) : JsHasher.Method Unit) h =
          (.ok (), ⟨p, h.seed, 0⟩) ∧
      StandsBig p (.init seed) := by
  obtain ⟨p, hp, hst⟩ := init_stands seed hbuf
  have hreset : h.pure.reset (some h.seed) = pure p := by
    show PureHasher.init (mask h.seed) h.pure.buf = _
    rw [hseed, mask_eq, ofInt_val, hp]
  exact ⟨p, keep_run (h := { h with total := 0 }) hreset, hst⟩

/-- **A call on a hasher on the pure engine.** -/
theorem js_call (t' : Target) {h : JsHasher} (ho : OnPure o h) (c : Call (List Byte) (Option ℤ)) :
    ∃ r h' o', JsHasher.call c h = (r, h') ∧ o.call t' false c = some (r, o') ∧ OnPure o' h' := by
  have hold := machine_holds o.log
  cases c with
  | update data =>
    rw [call_update]
    by_cases hempty : data.length = 0
    · obtain rfl := List.eq_nil_of_length_eq_zero hempty
      refine ⟨_, h, _, rfl, rfl, ho.wasm, ho.seed, ?_, ho.total⟩
      rw [machine_take]
      exact ho.pure
    · obtain ⟨p, hp, hst⟩ := update_stands (lawful (le_max_left bufcap data.length)) ho.pure hold.lt
        (shows_all (c := data) (le_max_right _ _))
      refine ⟨.ok [], ⟨p, h.seed, mask (h.total + data.length)⟩, _, ?_, rfl, ho.wasm, ho.seed, ?_,
        total_offered ho.total _⟩
      · refine run_return (a := ()) ?_ _
        unfold JsHasher.update
        rw [if_neg hempty]
        exact keep_run (h := { h with total := mask (h.total + data.length) }) hp
      · rw [machine_take]
        exact hst
  | digest64 =>
      exact ⟨_, h, o, run_return (onPure_run (digest64_eq ho.pure hold)) _, call_digest64 false, ho⟩
  | digest128 =>
    exact ⟨_, h, o, run_return (onPure_run (digest128_eq ho.pure hold)) _, call_digest128 false, ho⟩
  | reset r =>
    cases r with
    | none =>
      obtain ⟨p, hrun, hst⟩ := restart_run ho.seed ho.pure.cap
      exact ⟨_, ⟨p, h.seed, 0⟩, _, run_return (a := ()) hrun _, rfl, ho.wasm, ho.seed, hst, rfl⟩
    | some seed =>
      obtain ⟨p, hrun, hst⟩ :=
        restart_run (h := { h with seed := mask seed }) (mask_eq seed) ho.pure.cap
      exact ⟨_, ⟨p, mask seed, 0⟩, _, run_return (a := ()) hrun _, rfl, ho.wasm,
        mask_eq seed, hst, rfl⟩

/-! ### The package -/

section Package
variable (tgt : Api → Target) (rep : Api → List Byte → State → Prop) (Refusing : Prop)

/-- **An engine that does what the header does**, with a page of memory. Only if some memory is
`Refusing` its own does not grow. -/
structure Sound (e : Linked) : Prop where
  wraps : Wraps e.api (tgt e.api) (rep e.api)
  roomy : Roomy e.inst
  refuses : ∀ n, e.grows n = false → Refusing

/-- A hasher is what it should be, on its engine. -/
inductive HasherFits (apis : List Api) : IdealHasher → Hasher → Prop
  | wasm {k : ℕ} {A : Api} {o : IdealHasher} {h : Ports.Wasm.Hasher} (hk : apis[k]? = some A)
      (ho : OnEngine A (rep A) o h) : HasherFits apis o (.wasm k h)
  | js {o : IdealHasher} {h : JsHasher} (ho : OnPure o h) : HasherFits apis o (.js h)

/-- **The package is what it should be.** -/
structure Fits (i : Ideal) (s : Package) : Prop where
  wasm : i.wasm = s.wasm.isSome
  inUse : ∀ k, s.wasm = some k → k < s.engines.length
  engines : ∀ e ∈ s.engines, Sound tgt rep Refusing e
  hashers : List.Forall₂ (HasherFits rep (s.engines.map Linked.api)) i.hashers s.hashers

/-- **A step does what it should**, and only memory that is `Refusing` is refused. -/
def Turns (t' : Target) (op : Op) (i : Ideal) (s : Package) : Prop :=
  ∃ refused r s' i', step op s = (r, s') ∧ ideal t' refused i op = some (r, i') ∧
    Fits tgt rep Refusing i' s' ∧ (refused = true → Refusing)

end Package

variable {tgt : Api → Target} {rep : Api → List Byte → State → Prop} {Refusing : Prop}
variable {i : Ideal} {p : Package} {e : Linked} {k : ℕ}

theorem HasherFits.append {apis : List Api} {h : Hasher} (hh : HasherFits rep apis o h)
    (apis' : List Api) : HasherFits rep (apis ++ apis') o h := by
  cases hh with
  | wasm hk ho =>
    refine .wasm ?_ ho
    rw [List.getElem?_append_left (List.getElem?_eq_some_iff.mp hk).1, hk]
  | js ho => exact .js ho

theorem HasherFits.seed {apis : List Api} {h : Hasher} (hh : HasherFits rep apis o h) :
    h.seed = val o.log.seed := by
  cases hh with
  | wasm _ ho => exact ho.seed
  | js ho => exact ho.seed

theorem HasherFits.length {apis : List Api} {h : Hasher} (hh : HasherFits rep apis o h) :
    h.length = val (.ofNat 64 o.offered) := by
  cases hh with
  | wasm _ ho => exact ho.total
  | js ho => exact ho.total

theorem apis_set (he : p.engines[k]? = some e) (inst : Instance) :
    (p.engines.set k { e with inst := inst }).map Linked.api = p.engines.map Linked.api := by
  have hget : (p.engines.map Linked.api)[k]? = some e.api := by
    rw [List.getElem?_map, he]
    rfl
  obtain ⟨hk, hapi⟩ := List.getElem?_eq_some_iff.mp hget
  rw [List.map_set, ← hapi, List.set_getElem_self]

/-- **An engine that worked** is still an engine, and the hashers are still on it. -/
theorem Fits.worked (h : Fits tgt rep Refusing i p) (he : p.engines[k]? = some e) {inst : Instance}
    (hinst : Roomy inst) :
    Fits tgt rep Refusing i { p with engines := p.engines.set k { e with inst := inst } } where
  wasm := h.wasm
  inUse j hj := by
    rw [List.length_set]
    exact h.inUse j hj
  engines e' he' := by
    rcases List.mem_or_eq_of_mem_set he' with hmem | rfl
    · exact h.engines e' hmem
    · have hs := h.engines e (List.mem_of_getElem? he)
      exact ⟨hs.wraps, hinst, hs.refuses⟩
  hashers := by
    rw [apis_set he]
    exact h.hashers

theorem Fits.set (h : Fits tgt rep Refusing i p) {x : Hasher}
    (hx : HasherFits rep (p.engines.map Linked.api) o x) (j : ℕ) :
    Fits tgt rep Refusing { i with hashers := i.hashers.set j o }
      { p with hashers := p.hashers.set j x } where
  wasm := h.wasm
  inUse := h.inUse
  engines := h.engines
  hashers := forall₂_set h.hashers hx j

theorem Fits.push (h : Fits tgt rep Refusing i p) {x : Hasher}
    (hx : HasherFits rep (p.engines.map Linked.api) o x) :
    Fits tgt rep Refusing { i with hashers := i.hashers ++ [o] }
      { p with hashers := p.hashers ++ [x] } where
  wasm := h.wasm
  inUse := h.inUse
  engines := h.engines
  hashers := List.rel_append h.hashers (.cons hx .nil)

/-- **Another engine** is in use from now on, and the hashers stay on theirs. -/
theorem Fits.use (h : Fits tgt rep Refusing i p) (he : Sound tgt rep Refusing e) :
    Fits tgt rep Refusing { i with wasm := true }
      { p with engines := p.engines ++ [e], wasm := some p.engines.length } where
  wasm := rfl
  inUse j hj := by
    cases hj
    rw [List.length_append]
    exact Nat.lt_succ_self _
  engines e' he' := by
    rcases List.mem_append.mp he' with hmem | hnew
    · exact h.engines e' hmem
    · rw [List.mem_singleton.mp hnew]
      exact he
  hashers := by
    rw [List.map_append]
    exact h.hashers.imp fun _ _ hh => hh.append _

theorem Fits.engine (h : Fits tgt rep Refusing i p) (hk : p.wasm = some k) :
    i.wasm = true ∧ ∃ e, p.engines[k]? = some e ∧ Sound tgt rep Refusing e := by
  have hlt := h.inUse k hk
  exact ⟨by rw [h.wasm, hk]; rfl, p.engines[k], List.getElem?_eq_getElem hlt,
    h.engines _ (List.getElem_mem hlt)⟩

theorem Fits.hasher (h : Fits tgt rep Refusing i p) (j : ℕ) :
    (i.hashers[j]? = none ∧ p.hashers[j]? = none) ∨
      ∃ o x, i.hashers[j]? = some o ∧ p.hashers[j]? = some x ∧
        HasherFits rep (p.engines.map Linked.api) o x := by
  have hlen := h.hashers.length_eq
  by_cases hj : j < p.hashers.length
  · exact .inr ⟨_, _, List.getElem?_eq_getElem (hlen ▸ hj), List.getElem?_eq_getElem hj,
      h.hashers.get (hlen ▸ hj) hj⟩
  · exact .inl ⟨List.getElem?_eq_none (by omega), List.getElem?_eq_none (by omega)⟩

/-! ### Steps -/

theorem onEngine_eq {x : Api → (ℕ → Bool) → Engine (List BigAnswer)} {inst : Instance}
    {r : Except Ports.Wasm.Thrown (List BigAnswer)} (he : p.engines[k]? = some e)
    (hx : x e.api e.grows e.inst = (r, inst)) : onEngine k x p =
      (returned r, { p with engines := p.engines.set k { e with inst := inst } }) := by
  unfold onEngine
  rw [he]
  dsimp only
  rw [hx]

theorem onPure_eq {α : Type} {x : Chk α} {a : α} (f : α → BigAnswer) (hx : x = pure a) :
    Ports.Npm.onPure x f p = (returned (.ok [f a]), p) := by
  rw [hx]
  rfl

section Steps
variable (h : Fits tgt rep Refusing i p) (t' : Target)
include h

theorem setWasmModule_turns (m : Option Exports)
    (hm : ∀ e, initWasmFromModule m = .ok e → Sound tgt rep Refusing e) :
    Turns tgt rep Refusing t' (.setWasmModule m) i p := by
  unfold Turns
  rcases hinit : initWasmFromModule m with e | e
  · refine ⟨false, .error e, p, i, ?_, by simp only [ideal, hinit], h, by simp⟩
    show Eff.bind (Eff.ofExcept (initWasmFromModule m)) _ p = _
    rw [hinit]
    rfl
  · refine ⟨false, .ok [], _, { i with wasm := true }, ?_, by simp only [ideal, hinit],
      h.use (hm e hinit), by simp⟩
    show Eff.bind (Eff.ofExcept (initWasmFromModule m)) _ p = _
    rw [hinit]
    rfl

theorem new_turns (seed : ℤ) : Turns tgt rep Refusing t' (.new seed) i p := by
  unfold Turns
  show ∃ refused r p' i', Ports.Npm.new seed p = _ ∧ _
  rcases hwasm : p.wasm with _ | k
  · -- on the pure engine
    have hnone : i.wasm = false := by rw [h.wasm, hwasm]; rfl
    have hbuf : (List.replicate 448 (0 : Byte)).length = bufcap := List.length_replicate
    obtain ⟨x, hx, hst⟩ := init_stands (.ofInt 64 seed) hbuf
    have hnew : JsHasher.new seed = pure ⟨x, val (.ofInt 64 seed), 0⟩ := by
      unfold JsHasher.new PureHasher.new
      have hmask :
        mask (mask seed) = val (.ofInt 64 seed) := by rw [mask_eq seed, mask_eq, ofInt_val]
      dsimp only
      rw [hmask, hx, mask_eq]
      rfl
    have hfits : HasherFits rep (p.engines.map Linked.api) ⟨i.wasm, ⟨.ofInt 64 seed, []⟩, 0⟩
        (.js ⟨x, val (.ofInt 64 seed), 0⟩) := .js ⟨hnone, rfl, hst, rfl⟩
    refine ⟨false, .ok [], _, _, ?_, rfl, h.push hfits, by simp⟩
    unfold Ports.Npm.new
    rw [hwasm, hnew]
    rfl
  · obtain ⟨hsome, e, he, hs⟩ := h.engine hwasm
    obtain ⟨x, inst, hrun, hgrown, hst⟩ :=
      (new_does hs.wraps seed (hs.roomy.granted (state_le hs.wraps) : Granted e.grows _ e.inst)).run
    have hroomy : Roomy inst := hs.roomy.mono hgrown.more
    have hget : (p.engines.map Linked.api)[k]? = some e.api := by
      rw [List.getElem?_map, he]
      rfl
    have hfits : HasherFits rep ((p.engines.set k { e with inst := inst }).map Linked.api)
        ⟨i.wasm, ⟨.ofInt 64 seed, []⟩, 0⟩ (.wasm k x) := by
      rw [apis_set he]
      exact .wasm hget ⟨hsome, hst.seed, hst.state, hst.total⟩
    refine ⟨false, .ok [], _, _, ?_, rfl, (h.worked he hroomy).push hfits, by simp⟩
    unfold Ports.Npm.new
    rw [hwasm]
    dsimp only
    rw [he]
    dsimp only
    rw [hrun]

theorem call_turns (j : ℕ) (c : Call (List Byte) (Option ℤ)) :
    Turns tgt rep Refusing t' (.call j c) i p := by
  unfold Turns
  show ∃ refused r p' i', Ports.Npm.call j c p = _ ∧ _
  unfold Ports.Npm.call
  rcases h.hasher j with ⟨hi, hp⟩ | ⟨o, x, hi, hp, hx⟩
  · exact ⟨false, _, _, i, by rw [hp], by simp only [ideal, hi], h, by simp⟩
  · cases hx with
    | @wasm k A o x hk ho =>
      obtain ⟨e, he, rfl⟩ : ∃ e, p.engines[k]? = some e ∧ e.api = A := by
        rw [List.getElem?_map] at hk
        exact Option.map_eq_some_iff.mp hk
      have hs := h.engines e (List.mem_of_getElem? he)
      obtain ⟨refused, r, x', inst, o', hrun, hideal, ho', hroomy, hrefused⟩ :=
        wasm_call e.grows hs.wraps t' ho hs.roomy c
      have hfits : HasherFits rep ((p.engines.set k { e with inst := inst }).map Linked.api) o'
          (.wasm k x') := by
        rw [apis_set he]
        exact .wasm hk ho'
      refine ⟨refused, returned r, _, { i with hashers := i.hashers.set j o' }, ?_, ?_,
        (h.worked he hroomy).set hfits j, fun hr => ?_⟩
      · rw [hp]
        dsimp only
        rw [he]
        dsimp only
        rw [hrun]
      · simp only [ideal, hi, hideal]
        rfl
      · obtain ⟨n, hn⟩ := hrefused hr
        exact hs.refuses n hn
    | @js o x ho =>
      obtain ⟨r, x', o', hrun, hideal, ho'⟩ := js_call t' ho c
      refine ⟨false, returned r, _, { i with hashers := i.hashers.set j o' }, ?_, ?_,
        h.set (.js ho') j, by simp⟩
      · rw [hp]
        dsimp only
        rw [hrun]
      · simp only [ideal, hi, hideal]
        rfl

/-- **A function that hashes at once**, on whatever engine. -/
theorem oneshot_turns {α : Type} {x : Api → (ℕ → Bool) → Engine α} {y : Chk α}
    {f : α → BigAnswer} {a : α}
    {data : List Byte} {want : Option (List BigAnswer)} (hy : y = pure a)
    (hwant : want = some [f a])
    (hx : ∀ e, Sound tgt rep Refusing e → ∃ refused r inst,
      (do return [f (← x e.api e.grows)] : Engine (List BigAnswer)) e.inst = (r, inst) ∧
        idealOneshot refused true data want = some r ∧ Roomy inst ∧
        (refused = true → ∃ n, e.grows n = false)) : ∃ refused r s',
      oneshot x y f p = (returned r, s') ∧ idealOneshot refused i.wasm data want = some r ∧
        Fits tgt rep Refusing i s' ∧ (refused = true → Refusing) := by
  unfold oneshot
  rcases hwasm : p.wasm with _ | k
  · refine ⟨false, .ok [f a], p, onPure_eq f hy, ?_, h, by simp⟩
    rw [idealOneshot_calm, hwant]
    rfl
  · obtain ⟨hsome, e, he, hs⟩ := h.engine hwasm
    obtain ⟨refused, r, inst, hrun, hideal, hroomy, hrefused⟩ := hx e hs
    refine ⟨refused, r, _, onEngine_eq he hrun, by rw [hsome, hideal], h.worked he hroomy,
      fun hr => ?_⟩
    obtain ⟨n, hn⟩ := hrefused hr
    exact hs.refuses n hn

theorem hash64_turns (data : List Byte) (seed : ℤ) :
    Turns tgt rep Refusing t' (.hash64 data seed) i p := by
  obtain ⟨refused, r, s', hrun, hideal, hfits, hrefused⟩ := oneshot_turns h
    (x := fun A host => oneshot64 A host data seed) (f := BigAnswer.word) (pure64_eq data seed)
    (ideal64_eq t' data _) fun e hs => oneshot64_turn hs.wraps t' data seed hs.roomy
  refine ⟨refused, returned r, s', i, hrun, ?_, hfits, hrefused⟩
  simp only [ideal, hideal]
  rfl

theorem hash128_turns (data : List Byte) (seed : ℤ) :
    Turns tgt rep Refusing t' (.hash128 data seed) i p := by
  obtain ⟨refused, r, s', hrun, hideal, hfits, hrefused⟩ := oneshot_turns h
    (x := fun A host => oneshot128 A host data seed) (f := BigAnswer.pair) (pure128_eq data seed)
    (ideal128_eq t' data _) fun e hs => oneshot128_turn hs.wraps t' data seed hs.roomy
  refine ⟨refused, returned r, s', i, hrun, ?_, hfits, hrefused⟩
  simp only [ideal, hideal]
  rfl

theorem property_turns (j : ℕ) {f : Hasher → ℤ} {g : IdealHasher → ℤ}
    (hfg : ∀ o x, HasherFits rep (p.engines.map Linked.api) o x → f x = g o) :
    property j f p = (propertyOf (i.hashers[j]?.map g), p) := by
  unfold property
  rcases h.hasher j with ⟨hi, hp⟩ | ⟨o, x, hi, hp, hx⟩
  · simp only [hi, hp]
    rfl
  · simp only [hi, hp, Option.map_some, ← hfg o x hx]

/-- **Every step does what it should**, if a module that is set is sound. -/
theorem step_turns (op : Op) (hop : ∀ m, op = .setWasmModule m → ∀ e, initWasmFromModule m = .ok e →
    Sound tgt rep Refusing e) : Turns tgt rep Refusing t' op i p := by
  cases op with
  | setWasmModule m => exact setWasmModule_turns h t' m (hop m rfl)
  | getEngine =>
    refine ⟨false, _, p, i, rfl, ?_, h, by simp⟩
    simp only [ideal, h.wasm]
    cases p.wasm <;> rfl
  | new seed => exact new_turns h t' seed
  | call j c => exact call_turns h t' j c
  | seed j => exact ⟨false, _, p, i, property_turns h j fun _ _ hx => hx.seed, rfl, h, by simp⟩
  | length j => exact ⟨false, _, p, i, property_turns h j fun _ _ hx => hx.length, rfl, h, by simp⟩
  | hash64 data seed => exact hash64_turns h t' data seed
  | hash128 data seed => exact hash128_turns h t' data seed
  | pure64 data seed =>
    refine ⟨false, _, p, i, onPure_eq .word (pure64_eq data seed), ?_, h, by simp⟩
    simp only [ideal, ideal64_eq]
    rfl
  | pure128 data seed =>
    refine ⟨false, _, p, i, onPure_eq .pair (pure128_eq data seed), ?_, h, by simp⟩
    simp only [ideal, ideal128_eq]
    rfl

end Steps

/-! ### Runs -/

/-- **Every run does what it should.** -/
theorem runAll_fits (t' : Target) (ops : List Op) :
    ∀ {i : Ideal} {p : Package}, Fits tgt rep Refusing i p →
    (∀ m, .setWasmModule m ∈ ops → ∀ e, initWasmFromModule m = .ok e → Sound tgt rep Refusing e) →
    ∃ refused : List Bool, refused.length = ops.length ∧ (true ∈ refused → Refusing) ∧
      ∃ i', idealAll t' (refused.zip ops) i = some ((runAll ops p).1, i') := by
  induction ops with
  | nil => exact fun _ _ => ⟨[], rfl, by simp, _, rfl⟩
  | cons op ops ih =>
    intro i p h hops
    obtain ⟨refused, r, p', i', hrun, hideal, h', hrefused⟩ :=
      step_turns h t' op fun m hm => hops m (hm ▸ List.mem_cons_self)
    obtain ⟨rest, hlen, hrest, i'', hideals⟩ := ih h' fun m hm => hops m (List.mem_cons_of_mem _ hm)
    refine ⟨refused :: rest, by simp [hlen], fun hmem => ?_, i'', ?_⟩
    · rcases List.mem_cons.mp hmem with hr | hr
      · exact hrefused hr.symm
      · exact hrest hr
    · have hall : (runAll (op :: ops) p).1 = r :: (runAll ops p').1 := by
        rw [runAll, hrun]
      rw [hall, List.zip_cons_cons]
      simp [idealAll, hideal, hideals]

theorem start_fits {embedded : Option Exports}
    (hm : ∀ e, initWasmFromModule embedded = .ok e → Sound tgt rep Refusing e) :
    Fits tgt rep Refusing (.start embedded) (start embedded) := by
  rcases hinit : initWasmFromModule embedded with e | e
  · have hnone : initWasm embedded = none := by rw [initWasm, hinit]; rfl
    unfold Ideal.start start
    rw [hnone]
    exact ⟨rfl, by simp, by simp, .nil⟩
  · have hsome : initWasm embedded = some e := by rw [initWasm, hinit]; rfl
    unfold Ideal.start start
    rw [hsome]
    exact ⟨rfl, by simp, by simpa using hm e hinit, .nil⟩

end Hayahash.Refine.Npm
