import Hayahash.Ports.Session
import Hayahash.Refine.Machine
import Hayahash.Refine.Oneshot
import Hayahash.Refine.PortStream

/-! # Runs of calls are those of the machine

**`Faithful.run`**: if every method does on the states of an object what it does on the streaming
machine, every run of calls returns what it should. **`agrees_of_stands`**: the state of a port that
stands for the machine agrees with the state of the header after the same chunks. -/

namespace Hayahash.Refine.Session

open Hayahash.Lib.ReadProg Hayahash.Lib.Bytes Hayahash.Lib.Checked Hayahash.Lib.Arrays
open Hayahash.C.Primitives Hayahash.C.Walk
open Hayahash.C.Oneshot (hayahash64 hayahash128)
open Hayahash.Spec.Reference Hayahash.Spec.Machine Hayahash.Ports.Session Hayahash.Ports.Stream
open Hayahash.Refine.Oneshot Hayahash.Refine.Update Hayahash.Refine.Machine
open Hayahash.Refine.PortStream

/-! ### What a log stands for -/

/-- The machine after the chunks of a log. -/
def machine (log : Log) : Absorber := log.chunks.foldl Absorber.update (.init log.seed)

theorem foldl_holds (seed : Word) (cs : List (List Byte)) : ∀ {xs : List Byte} {a : Absorber},
    Absorber.Holds seed xs a → Absorber.Holds seed (xs ++ cs.flatten)
      (cs.foldl Absorber.update a) := by
  induction cs with
  | nil =>
    intro xs a h
    simpa using h
  | cons c cs ih =>
    intro xs a h
    rw [List.flatten_cons, ← List.append_assoc]
    exact ih (Absorber.update_holds h c)

theorem machine_holds (log : Log) : Absorber.Holds log.seed log.bytes (machine log) :=
  foldl_holds log.seed log.chunks (Absorber.init_holds log.seed)

theorem machine_take (log : Log) (c : List Byte) :
    machine (log.take c) = (machine log).update c := by
  simp [machine, Log.take]

/-! ### Runs -/

variable {κ ς ρ α σ : Type} (O : Object κ ς ρ α σ) (M : Meaning κ ς ρ α) (t : Target)

/-- **The methods do what the machine does**, through the relation `S`, for chunks that are `ok`. -/
structure Faithful (ok : κ → Prop) (S : σ → Absorber → Prop) : Prop where
  new : ∀ s, S (O.new s) (.init (M.seed s))
  update : ∀ {st a c bs}, S st a → a.held.length < C.Stream.bufcap → ok c → M.bytes c = some bs →
    Yields (O.update st c) fun r => S r.1 (a.update bs) ∧ r.2 = []
  reject : ∀ {st a c}, S st a → ok c → M.bytes c = none → O.update st c = pure (st, M.rejected)
  digest64 : ∀ {st a seed xs}, S st a → Absorber.Holds seed xs a →
    O.digest64 st = pure (M.word (compact64 (ofList xs) xs.length seed))
  digest128 : ∀ {st a seed xs}, S st a → Absorber.Holds seed xs a →
    O.digest128 st = pure (M.pair (compact128 (ofList xs) xs.length seed))
  reset : ∀ {st a} r, S st a → S (O.reset st r) (.init (M.reseed r a.seed))

variable {O M} {ok : κ → Prop} {S : σ → Absorber → Prop}

theorem Faithful.call (h : Faithful O M ok S) {st : σ} {log : Log} (hst : S st (machine log))
    (c : Call κ ρ) (hok : ∀ k, c = .update k → ok k) : ∃ st' log' as,
      Ports.Session.call O st c = pure (st', as) ∧ expect M t log c = some (log', as) ∧
        S st' (machine log') := by
  have hold := machine_holds log
  cases c with
  | update c =>
    cases hbs : M.bytes c with
    | some bs =>
      obtain ⟨⟨st', as⟩, hrun, hst', rfl⟩ := h.update hst hold.lt (hok c rfl) hbs
      exact ⟨st', log.take bs, [], hrun, by simp [expect, hbs], by rwa [machine_take log]⟩
    | none =>
      exact ⟨st, log, M.rejected, h.reject hst (hok c rfl) hbs, by simp [expect, hbs], hst⟩
  | digest64 =>
    refine ⟨st, log, _, by rw [Ports.Session.call, h.digest64 hst hold, pure_bind], ?_, hst⟩
    simp [expect, (runs_hayahash64 t (ofList log.bytes) log.bytes.length log.seed).value_eq]
  | digest128 =>
    refine ⟨st, log, _, by rw [Ports.Session.call, h.digest128 hst hold, pure_bind], ?_, hst⟩
    simp [expect, (runs_hayahash128 t (ofList log.bytes) log.bytes.length log.seed).value_eq]
  | reset r =>
    have hreset := h.reset r hst
    rw [hold.seed] at hreset
    exact ⟨O.reset st r, ⟨M.reseed r log.seed, []⟩, [], rfl, rfl, hreset⟩

theorem Faithful.run_from (h : Faithful O M ok S) (cs : List (Call κ ρ)) : ∀ {st : σ} {log : Log},
    S st (machine log) → (∀ k, .update k ∈ cs → ok k) → ∃ st' log' as,
      Ports.Session.run O st cs = pure (st', as) ∧ expectAll M t log cs = some (log', as) ∧
        S st' (machine log') := by
  induction cs with
  | nil =>
    intro st log hst _
    exact ⟨st, log, [], rfl, rfl, hst⟩
  | cons c cs ih =>
    intro st log hst hok
    obtain ⟨st₁, log₁, as₁, hc, he, h₁⟩ :=
      h.call t hst c fun k hk => hok k (hk ▸ List.mem_cons_self)
    obtain ⟨st₂, log₂, as₂, hr, hes, h₂⟩ := ih h₁ fun k hk => hok k (List.mem_cons_of_mem c hk)
    refine ⟨st₂, log₂, as₁ ++ as₂, ?_, by simp [expectAll, he, hes], h₂⟩
    rw [Ports.Session.run, hc, pure_bind]
    dsimp only
    rw [hr, pure_bind]

/-- **Every run ends**, returns what it should, and leaves a state that does what the machine does
after the chunks since the last reset. -/
theorem Faithful.run (h : Faithful O M ok S) (s : ς) (cs : List (Call κ ρ))
    (hok : ∀ k, .update k ∈ cs → ok k) : ∃ st log as,
      Ports.Session.run O (O.new s) cs = pure (st, as) ∧ expectAll M t ⟨M.seed s, []⟩ cs =
      some (log, as) ∧ S st (machine log) :=
  h.run_from t cs (show S (O.new s) (machine ⟨M.seed s, []⟩) from h.new s) hok

/-- The test of a range is exact, although the array may be as long as an `int` can say. -/
theorem outside_eq {w : Width} {r : Range} (h : r.IsInt w) :
    r.outside w.signed = pure r.bytes.isNone := by
  obtain ⟨hdata, -, -, -, hlength⟩ := h
  unfold Range.outside Range.bytes
  by_cases hoff : r.offset < 0
  · rw [if_pos hoff, if_neg (by omega)]
    rfl
  by_cases hlen : r.length < 0
  · rw [if_neg hoff, if_pos hlen, if_neg (by omega)]
    rfl
  have hsub : w.signed.sub r.data.length r.length = pure (r.data.length - r.length) :=
    inRange_eq (by omega) (by omega)
  rw [if_neg hoff, if_neg hlen, hsub, pure_bind]
  by_cases hfit : r.offset + r.length ≤ r.data.length
  · rw [if_pos ⟨by omega, by omega, hfit⟩, decide_eq_false (by omega)]
    rfl
  · rw [if_neg fun h => hfit h.2.2, decide_eq_true (by omega)]
    rfl

theorem shows_range {w : Width} {r : Range} {bs : List Byte} (h : r.IsInt w)
    (hbs : r.bytes = some bs) : 0 ≤ r.offset ∧ 0 ≤ r.length ∧ r.offset + r.length ≤ r.data.length ∧
      Shows w.maxInt ⟨r.data, r.offset, r.length⟩ bs := by
  unfold Range.bytes at hbs
  split_ifs at hbs with hvalid
  obtain ⟨h0, h1, h2⟩ := hvalid
  exact ⟨h0, h1, h2, ⟨h0, h1, h2⟩, h.1, Option.some.inj hbs⟩

theorem part_range {r : Range} {bs : List Byte} (hbs : r.bytes = some bs) :
    (View.all r.data).part r.offset (r.offset + r.length) = pure ⟨r.data, r.offset, r.length⟩ := by
  have hlen : r.offset + r.length - r.offset = r.length := by omega
  unfold Range.bytes at hbs
  split_ifs at hbs with hvalid
  rw [View.part_eq hvalid.1 (by omega) hvalid.2.2]
  simp only [View.all, zero_add, hlen]

theorem part_none {r : Range} (hbs : r.bytes = none) :
    (View.all r.data).part r.offset (r.offset + r.length) = throw .bounds := by
  unfold Range.bytes at hbs
  split_ifs at hbs with hvalid
  refine if_neg fun h => hvalid ⟨h.1, by omega, h.2.2⟩

theorem range_of_shows (w : Width) {hi : ℕ} {v : View} {c : List Byte} (h : Shows hi v c)
    (hhi : hi ≤ w.maxInt) :
    (⟨v.data, v.off, v.len⟩ : Range).IsInt w ∧
      (⟨v.data, v.off, v.len⟩ : Range).bytes = some c := by
  have hoff := h.valid.off
  have hlen := h.valid.len
  have hfin := h.valid.fin
  have hfits := h.fits
  refine ⟨⟨by dsimp only; omega, by dsimp only; omega, by dsimp only; omega, by dsimp only; omega,
    by dsimp only; omega⟩, ?_⟩
  rw [Range.bytes, if_pos ⟨hoff, hlen, hfin⟩]
  exact congrArg some h.bytes

/-- **An object made of the parts of a port is faithful.** -/
theorem faithful_of_lawful {τ : Type} {P : Port τ Word} {F : Finish τ} {lanesOf : Lanes8 × Word → τ}
    {hi : ℕ} {O : Object κ ς ρ Answer (State τ Word)} {M : Meaning κ ς ρ Answer}
    (hP : Lawful P lanesOf id hi) (hF : Finishes F lanesOf) (hword : M.word = .word)
    (hpair : M.pair = .pair) (hnew : ∀ s, Stands lanesOf id (O.new s) (.init (M.seed s)))
    (hupdate : ∀ {c bs} st, ok c → M.bytes c = some bs → ∃ v, Shows hi v bs ∧
      O.update st c = do return (← update P st v, []))
    (hreject : ∀ {c} st, ok c → M.bytes c = none → O.update st c = pure (st, M.rejected))
    (h64 : ∀ st, O.digest64 st = do return .word (← digest64 F st))
    (h128 : ∀ st, O.digest128 st = do return .pair (← digest128 F st))
    (hreset : ∀ {st a} r, Stands lanesOf id st a →
      Stands lanesOf id (O.reset st r) (.init (M.reseed r a.seed))) :
    Faithful O M ok (Stands lanesOf id) where
  new := hnew
  update {st a c bs} hst hlt hok hbs := by
    obtain ⟨v, hv, hrun⟩ := hupdate st hok hbs
    rw [hrun]
    refine (update_stands hP hst hlt hv).bind fun st' hst' => ?_
    exact .pure ⟨hst', rfl⟩
  reject _ hok hbs := hreject _ hok hbs
  digest64 hst hold := by rw [h64, digest64_eq hF hst hold, hword, pure_bind]
  digest128 hst hold := by rw [h128, digest128_eq hF hst hold, hpair, pure_bind]
  reset r hst := hreset r hst

/-! ### The state of the header -/

/-- **The state of a port agrees with a state of the header**: the lanes and the last stripe, as
`lanesOf` has them, the counter, the fill, the phase and the bytes of the buffer in use. -/
structure Agrees (lanesOf : Lanes8 × Word → σ) (st : State σ Word) (cst : C.Stream.State) :
    Prop where
  lanes : st.lanes = lanesOf (cst.h, cst.wp)
  seed : st.seed = cst.seed
  total : st.total = cst.total
  nbuf : st.nbuf = cst.nbuf.toNat
  bulk : st.bulk = cst.bulk
  buf : st.buf.take cst.nbuf.toNat = cst.buf.toList.take cst.nbuf.toNat

/-- **The state of a port after the chunks of a log agrees with that of the header**, on any
platform that has objects as long as they are. -/
theorem agrees_of_stands {lanesOf : Lanes8 × Word → σ} {st : State σ Word} {log : Log}
    (h : Stands lanesOf id st (machine log)) (cst : C.Stream.State)
    (hfits : ∀ c ∈ log.chunks, c.length ≤ t.ptrdiffMax) :
    ∃ cst', feedAll t (C.Stream.hayahash64Init cst log.seed) log.chunks = some cst' ∧
      Agrees lanesOf st cst' := by
  obtain ⟨cst', hfed, hm⟩ := feedAll_mirrors log.chunks hfits (represents_init cst log.seed)
    (Absorber.init_holds log.seed) (init_mirrors cst log.seed)
  refine ⟨cst', hfed, ?_, h.seed.trans hm.seed.symm, h.total.trans hm.total.symm, ?_,
    h.bulk.trans hm.bulk.symm, ?_⟩
  · rw [hm.lanes]
    exact h.lanes
  · rw [hm.nbuf]
    exact h.nbuf
  · rw [hm.nbuf, hm.buf]
    exact h.held

/-! ### What a port promises -/

/-- **The one-shot functions of a port are the header's**: on every key that is `ok` they do not
fault, and return what the header's functions return, on any platform. -/
def HashesAs (hash64 : List Byte → Word → Chk Word) (hash128 : List Byte → Word → Chk Hash128)
    (ok : List Byte → Prop) : Prop :=
  ∀ (key : List Byte) (seed : Word), ok key → ∀ t : Target, ∃ x y,
    hash64 key seed = pure x ∧ hash128 key seed = pure y ∧
      value (ofList key) (hayahash64 t key.length seed) = some x ∧
      value (ofList key) (hayahash128 t key.length seed) = some y

/-- **The functions of a port on a range of an array are the header's** on the bytes of the range,
if it is one, and fault if it is none. -/
def HashesRangesAs (hash64 : List Byte → ℤ → ℤ → Word → Chk Word)
    (hash128 : List Byte → ℤ → ℤ → Word → Chk Hash128) (w : Width) : Prop :=
  ∀ (r : Range) (seed : Word), r.IsInt w →
    (∀ bs, r.bytes = some bs → ∀ t : Target, ∃ x y,
      hash64 r.data r.offset r.length seed = pure x ∧
      hash128 r.data r.offset r.length seed = pure y ∧
        value (ofList bs) (hayahash64 t bs.length seed) = some x ∧
        value (ofList bs) (hayahash128 t bs.length seed) = some y) ∧
    (r.bytes = none → hash64 r.data r.offset r.length seed = throw .bounds ∧
      hash128 r.data r.offset r.length seed = throw .bounds)

/-- **The streaming object of a port is the header's**: no run of calls with chunks that are `ok`
faults, every run returns what it should, and ends in a state that agrees with the header's after
the same chunks since the last reset, on any platform that has objects as long as they are. -/
def StreamsAs {τ : Type} (O : Object κ ς ρ α (State τ Word)) (M : Meaning κ ς ρ α) (ok : κ → Prop)
    (lanesOf : Lanes8 × Word → τ) : Prop :=
  ∀ (s : ς) (calls : List (Call κ ρ)), (∀ k, .update k ∈ calls → ok k) → ∀ t : Target,
    ∃ st log as, run O (O.new s) calls = pure (st, as) ∧
      expectAll M t ⟨M.seed s, []⟩ calls = some (log, as) ∧
      ((∀ c ∈ log.chunks, c.length ≤ t.ptrdiffMax) → ∀ cst, ∃ cst',
        feedAll t (C.Stream.hayahash64Init cst log.seed) log.chunks = some cst' ∧
          Agrees lanesOf st cst')

theorem hashesAs_of_eq {hash64 : List Byte → Word → Chk Word}
    {hash128 : List Byte → Word → Chk Hash128} {ok : List Byte → Prop}
    (h64 : ∀ key seed, ok key → hash64 key seed = pure (compact64 (ofList key) key.length seed))
    (h128 : ∀ key seed, ok key →
      hash128 key seed = pure (compact128 (ofList key) key.length seed)) :
    HashesAs hash64 hash128 ok := by
  intro key seed hok t
  exact ⟨_, _, h64 key seed hok, h128 key seed hok,
    (runs_hayahash64 t (ofList key) key.length seed).value_eq,
    (runs_hayahash128 t (ofList key) key.length seed).value_eq⟩

theorem hashesRangesAs_of_eq {hash64 : List Byte → ℤ → ℤ → Word → Chk Word}
    {hash128 : List Byte → ℤ → ℤ → Word → Chk Hash128} {w : Width}
    (h64 : ∀ {r : Range} {bs} seed, r.IsInt w → r.bytes = some bs →
      hash64 r.data r.offset r.length seed = pure (compact64 (ofList bs) bs.length seed))
    (h128 : ∀ {r : Range} {bs} seed, r.IsInt w → r.bytes = some bs →
      hash128 r.data r.offset r.length seed = pure (compact128 (ofList bs) bs.length seed))
    (hno64 : ∀ {r : Range} seed, r.IsInt w → r.bytes = none →
      hash64 r.data r.offset r.length seed = throw .bounds)
    (hno128 : ∀ {r : Range} seed, r.IsInt w → r.bytes = none →
      hash128 r.data r.offset r.length seed = throw .bounds) :
    HashesRangesAs hash64 hash128 w := by
  intro r seed hok
  refine ⟨fun bs hbs t => ?_, fun hbs => ⟨hno64 seed hok hbs, hno128 seed hok hbs⟩⟩
  exact ⟨_, _, h64 seed hok hbs, h128 seed hok hbs,
    (runs_hayahash64 t (ofList bs) bs.length seed).value_eq,
    (runs_hayahash128 t (ofList bs) bs.length seed).value_eq⟩

theorem Faithful.streamsAs {τ : Type} {O : Object κ ς ρ α (State τ Word)} {M : Meaning κ ς ρ α}
    {lanesOf : Lanes8 × Word → τ} (h : Faithful O M ok (Stands lanesOf id)) :
    StreamsAs O M ok lanesOf := by
  intro s calls hok t
  obtain ⟨st, log, as, hrun, hexpect, hst⟩ := h.run t s calls hok
  exact ⟨st, log, as, hrun, hexpect, fun hfits cst => agrees_of_stands t hst cst hfits⟩

/-! ### A long run -/

/-- Two updates, across the end of the undecided phase, and a digest; and another input. -/
def longRun {ρ : Type} (r : ρ) : List (Call (List Byte) ρ) :=
  [.update (ramp 300), .update (ramp 200), .digest64, .reset r, .update (ramp 20), .digest128]

/-- What it returns, for the seeds 7 and 8. -/
def longAnswers : List Answer :=
  [.word 0xdf7b787a87d90fe2, .pair ⟨0xbfd953bf5f86ce68, 0x219e53cc9ae531b1⟩]

theorem length_longRun {ρ : Type} {r : ρ} {k : List Byte} (h : .update k ∈ longRun r) :
    k.length ≤ 300 := by
  have hcases : k = ramp 300 ∨ k = ramp 200 ∨ k = ramp 20 := by simpa [longRun] using h
  rcases hcases with rfl | rfl | rfl
  · exact (length_ramp 300).le
  · exact (length_ramp 200).le.trans (by omega)
  · exact (length_ramp 20).le.trans (by omega)

end Hayahash.Refine.Session
