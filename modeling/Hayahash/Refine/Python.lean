import Hayahash.Ports.Python
import Hayahash.Refine.Digest

/-! # The Python extension does what its documentation says

`ideal`: a hasher is its seed and the bytes it has taken; a digest is the hash of these. A call of
the extension does the same on its objects as the ideal one on theirs (`run_simulates`). A call that
raises changes nothing (`run_atomic`), and none changes another object (`run_others`). -/

namespace Hayahash.Refine.Python

open Hayahash.Lib.ReadProg Hayahash.Lib.Bytes Hayahash.Lib.Effects
open Hayahash.C.Primitives Hayahash.C.Walk
open Hayahash.C.Stream (State hayahash64Init bufMem)
open Hayahash.Spec.Reference Hayahash.Spec.Stream Hayahash.Ports.Python
open Hayahash.Refine.Oneshot Hayahash.Refine.Update Hayahash.Refine.Digest

variable {t : Target} {σ τ : Type}

/-! ### The ideal hashers -/

/-- A hasher: its seed, and what it has taken. -/
structure Ideal where
  seed : Word
  bytes : List Byte

/-- Where the hasher `i` is. -/
def selfIdeal (i : ℕ) : Eff Exc (List Ideal) Ideal := do defined (← Eff.get)[i]?

/-- A hasher more. -/
def newIdeal (memory : Bool) (h : Ideal) : Eff Exc (List Ideal) Value := do
  let hs ← Eff.get
  let v ← alloc memory (.hasher hs.length)
  Eff.modify fun hs => hs ++ [h]
  return v

/-- The 64-bit digest of some bytes. -/
def digest64 (seed : Word) (bytes : List Byte) : Value :=
  .int (compact64 (ofList bytes) bytes.length seed).toNat

/-- The 128-bit digest of some bytes, the low word first. -/
def digest128 (seed : Word) (bytes : List Byte) : Value :=
  .tuple (compact128 (ofList bytes) bytes.length seed).lo.toNat
    (compact128 (ofList bytes) bytes.length seed).hi.toNat

/-- The length of what was taken, in 64 bits. -/
def lengthOf (h : Ideal) : ℕ := h.bytes.length % 2 ^ 64

/-- **What a call should do.** -/
def ideal (memory : Bool) : Call t → Eff Exc (List Ideal) Value
  | .hayahash64 a => do
    let (data, seed) ← parseDataArgs a
    let seed ← parseSeed seed
    let bytes ← getBuffer data "hayahash64() requires a C-contiguous buffer"
    alloc memory (digest64 seed bytes)
  | .hayahash128 a => do
    let (data, seed) ← parseDataArgs a
    let seed ← parseSeed seed
    let bytes ← getBuffer data "hayahash128() requires a C-contiguous buffer"
    alloc memory (digest128 seed bytes)
  | .new a => do
    let seed ← parseSeed (← parseSeedArg a)
    newIdeal memory ⟨seed, []⟩
  | .update i data => do
    let h ← selfIdeal i
    let bytes ← getBuffer data "update() requires a C-contiguous buffer"
    Eff.modify fun hs => hs.set i { h with bytes := h.bytes ++ bytes }
    return .none
  | .digest64 i => do
    let h ← selfIdeal i
    alloc memory (digest64 h.seed h.bytes)
  | .digest128 i => do
    let h ← selfIdeal i
    alloc memory (digest128 h.seed h.bytes)
  | .copy i => do
    let h ← selfIdeal i
    newIdeal memory h
  | .reset i a => do
    let h ← selfIdeal i
    let seedObj ← parseSeedArg a
    let seed ← reseed seedObj h.seed
    Eff.modify fun hs => hs.set i ⟨seed, []⟩
    return .none
  | .getSeed i => do
    let h ← selfIdeal i
    alloc memory (.int h.seed.toNat)
  | .getLength i => do
    let h ← selfIdeal i
    alloc memory (.int (lengthOf h))
  | .repr i => do
    let h ← selfIdeal i
    alloc memory (.str (reprText h.seed.toNat (lengthOf h)))

/-- What a run of calls should do. -/
def idealAll : List (Bool × Call t) → List Ideal → List (Except Exc Value) × List Ideal
  | [], hs => ([], hs)
  | (memory, c) :: cs, hs =>
    let (r, hs) := ideal memory c hs
    let (rs, hs) := idealAll cs hs
    (r :: rs, hs)

/-! ### Parts of a call -/

/-- An object stands for a hasher. -/
structure StandsFor (o : HasherObject) (h : Ideal) : Prop where
  seed : o.seed = h.seed
  represents : Represents h.seed h.bytes o.st

/-- The heap stands for the hashers, one by one. -/
structure Stands (heap : Heap) (hs : List Ideal) : Prop where
  length : heap.length = hs.length
  each : ∀ (i : ℕ) (o : HasherObject) (h : Ideal), heap[i]? = some o → hs[i]? = some h →
    StandsFor o h

theorem Stands.set {heap : Heap} {hs : List Ideal} (hR : Stands heap hs) {o : HasherObject}
    {h : Ideal} (ho : StandsFor o h) (i : ℕ) : Stands (heap.set i o) (hs.set i h) where
  length := by rw [List.length_set, List.length_set, hR.length]
  each j o' h' ho' hh' := by
    rw [List.getElem?_set] at ho' hh'
    by_cases hij : i = j
    · rw [if_pos hij] at ho' hh'
      split_ifs at ho' hh'
      rw [← Option.some.inj ho', ← Option.some.inj hh']
      exact ho
    · rw [if_neg hij] at ho' hh'
      exact hR.each j o' h' ho' hh'

theorem Stands.append {heap : Heap} {hs : List Ideal} (hR : Stands heap hs) {o : HasherObject}
    {h : Ideal} (ho : StandsFor o h) : Stands (heap ++ [o]) (hs ++ [h]) where
  length := by rw [List.length_append, List.length_append, hR.length]; rfl
  each j o' h' ho' hh' := by
    rw [List.getElem?_append] at ho' hh'
    rw [← hR.length] at hh'
    split_ifs at ho' hh' with hlt
    · exact hR.each j o' h' ho' hh'
    · rw [List.getElem?_singleton] at ho' hh'
      split_ifs at ho' hh'
      rw [← Option.some.inj ho', ← Option.some.inj hh']
      exact ho

variable {R : σ → τ → Prop}

theorem parseSeed_simulates (o : Option (Obj t)) :
    Simulates R Eq (parseSeed o : Eff Exc σ Word) (parseSeed o : Eff Exc τ Word) := by
  cases o with
  | none => exact Simulates.pure rfl
  | some o =>
    dsimp only [parseSeed]
    split_ifs
    · exact Simulates.pure rfl
    · obtain ⟨value, e⟩ := asUnsignedLongLong o
      cases e with
      | none => exact Simulates.pure rfl
      | some e =>
        dsimp only
        split_ifs
        · exact Simulates.throw _
        · exact Simulates.pure rfl

theorem reseed_simulates (o : Option (Obj t)) {seed seed' : Word} (h : seed = seed') :
    Simulates R Eq (reseed o seed : Eff Exc σ Word) (reseed o seed' : Eff Exc τ Word) := by
  unfold reseed
  split_ifs
  · exact Simulates.pure h
  · exact parseSeed_simulates o

theorem parseTuple_simulates (a : Args t) (kwlist : List String) (required : ℕ) :
    Simulates R Eq (parseTupleAndKeywords a kwlist required : Eff Exc σ _)
      (parseTupleAndKeywords a kwlist required : Eff Exc τ _) := by
  unfold parseTupleAndKeywords
  split_ifs
  · exact Simulates.throw _
  · exact Simulates.throw _
  · exact Simulates.ofExcept _

theorem parseSeedArg_simulates (a : Args t) :
    Simulates R Eq (parseSeedArg a : Eff Exc σ _) (parseSeedArg a : Eff Exc τ _) := by
  refine (parseTuple_simulates a _ _).bind fun vs vs' h => ?_
  subst h
  split
  · exact Simulates.pure rfl
  · exact Simulates.throw _

theorem parseDataArgs_simulates (a : Args t) :
    Simulates R Eq (parseDataArgs a : Eff Exc σ _) (parseDataArgs a : Eff Exc τ _) := by
  refine (parseTuple_simulates a _ _).bind fun vs vs' h => ?_
  subst h
  split
  · exact Simulates.pure rfl
  · exact Simulates.throw _

theorem getBuffer_simulates (o : Obj t) (message : String) :
    Simulates R (fun b b' => b = b' ∧ b.length ≤ t.ptrdiffMax) (getBuffer o message : Eff Exc σ _)
      (getBuffer o message : Eff Exc τ _) := by
  refine (Simulates.ofExcept _).bind fun view view' h => ?_
  subst h
  split_ifs
  · exact Simulates.pure ⟨rfl, view.le⟩
  · exact Simulates.throw _

theorem alloc_simulates (memory : Bool) {v v' : Value} (h : v = v') :
    Simulates R Eq (alloc memory v : Eff Exc σ Value) (alloc memory v' : Eff Exc τ Value) := by
  unfold alloc
  split_ifs
  · exact Simulates.pure h
  · exact Simulates.throw _

theorem defined_some {α : Type} {x : Option α} {a : α} (h : x = some a) :
    (defined x : Eff Exc σ α) = pure a := by rw [h]; rfl

/-- The object that is called stands for the hasher that is called. -/
theorem self_simulates (i : ℕ) : Simulates Stands StandsFor (self i) (selfIdeal i) := by
  refine Simulates.get_bind fun heap hs hR => ?_
  cases ho : heap[i]? with
  | none =>
    have hnone : hs[i]? = none := by
      rw [List.getElem?_eq_none_iff] at ho ⊢
      exact hR.length ▸ ho
    rw [hnone]
    exact Simulates.throw _
  | some o =>
    obtain ⟨h, hh⟩ : ∃ h, hs[i]? = some h := by
      have hlt := (List.getElem?_eq_some_iff.mp ho).1
      exact ⟨_, List.getElem?_eq_getElem (hR.length ▸ hlt)⟩
    rw [hh]
    exact Simulates.pure (hR.each i o h ho hh)

theorem set_simulates {o : HasherObject} {h : Ideal} (ho : StandsFor o h) (i : ℕ) :
    Simulates Stands Eq (setSelf i o) (Eff.modify fun hs => hs.set i h) :=
  Simulates.modify (fun _ _ hR => hR.set ho i) rfl

theorem new_simulates (memory : Bool) {o : HasherObject} {h : Ideal} (ho : StandsFor o h) :
    Simulates Stands Eq (newObject memory o) (newIdeal memory h) := by
  refine Simulates.get_bind fun heap hs hR => ?_
  refine (alloc_simulates memory (by rw [hR.length])).bind fun v v' hv => ?_
  exact (Simulates.modify (V := Eq) (fun _ _ hR => hR.append ho) rfl).bind fun _ _ _ =>
    Simulates.pure hv

/-! ### Calls -/

theorem total_eq {o : HasherObject} {h : Ideal} (ho : StandsFor o h) :
    o.st.total.toNat = lengthOf h := by
  rw [ho.represents.total, BitVec.toNat_ofNat]
  rfl

/-- **A call does on the objects what it should do on the hashers.** -/
theorem run_simulates (junk : State) (memory : Bool) (c : Call t) :
    Simulates Stands Eq (c.run junk memory) (ideal memory c) := by
  cases c with
  | hayahash64 a =>
    refine (parseDataArgs_simulates a).bind fun args _ h => ?_
    subst h
    refine (parseSeed_simulates args.2).bind fun seed _ h => ?_
    subst h
    refine (getBuffer_simulates _ _).bind fun bytes _ h => ?_
    obtain ⟨rfl, -⟩ := h
    rw [defined_some (runs_hayahash64 t _ _ seed).value_eq]
    exact alloc_simulates memory rfl
  | hayahash128 a =>
    refine (parseDataArgs_simulates a).bind fun args _ h => ?_
    subst h
    refine (parseSeed_simulates args.2).bind fun seed _ h => ?_
    subst h
    refine (getBuffer_simulates _ _).bind fun bytes _ h => ?_
    obtain ⟨rfl, -⟩ := h
    rw [defined_some (runs_hayahash128 t _ _ seed).value_eq]
    exact alloc_simulates memory rfl
  | new a =>
    refine (parseSeedArg_simulates a).bind fun o _ h => ?_
    subst h
    refine (parseSeed_simulates o).bind fun seed _ h => ?_
    subst h
    exact new_simulates memory ⟨rfl, represents_init junk seed⟩
  | update i data =>
    refine (self_simulates i).bind fun o h ho => ?_
    refine (getBuffer_simulates _ _).bind fun bytes _ hb => ?_
    obtain ⟨rfl, hle⟩ := hb
    obtain ⟨st', hst, hrep⟩ := (update_safe t ho.represents hle).value
    have hstands : StandsFor { o with st := st' } { h with bytes := h.bytes ++ bytes } :=
      ⟨ho.seed, hrep⟩
    rw [defined_some hst]
    exact (set_simulates hstands i).bind fun _ _ _ => Simulates.pure rfl
  | digest64 i =>
    refine (self_simulates i).bind fun o h ho => ?_
    rw [defined_some (value_digest64 t ho.represents)]
    exact alloc_simulates memory rfl
  | digest128 i =>
    refine (self_simulates i).bind fun o h ho => ?_
    rw [defined_some (value_digest128 t ho.represents)]
    exact alloc_simulates memory rfl
  | copy i =>
    refine (self_simulates i).bind fun o h ho => ?_
    exact new_simulates memory ⟨ho.seed, ho.represents⟩
  | reset i a =>
    refine (self_simulates i).bind fun o h ho => ?_
    refine (parseSeedArg_simulates a).bind fun seedObj _ hs => ?_
    subst hs
    refine (reseed_simulates seedObj ho.seed).bind fun seed _ hs => ?_
    subst hs
    exact (set_simulates ⟨rfl, represents_init o.st seed⟩ i).bind fun _ _ _ => Simulates.pure rfl
  | getSeed i =>
    refine (self_simulates i).bind fun o h ho => ?_
    exact alloc_simulates memory (by rw [ho.seed])
  | getLength i =>
    refine (self_simulates i).bind fun o h ho => ?_
    exact alloc_simulates memory (by rw [total_eq ho])
  | repr i =>
    refine (self_simulates i).bind fun o h ho => ?_
    exact alloc_simulates memory (by rw [ho.seed, total_eq ho])

/-- **A run of calls does what it should.** -/
theorem runAll_ideal (junk : State) (cs : List (Bool × Call t)) : ∀ {heap : Heap} {hs : List Ideal},
    Stands heap hs → (runAll junk cs heap).1 = (idealAll cs hs).1 ∧
      Stands (runAll junk cs heap).2 (idealAll cs hs).2 := by
  induction cs with
  | nil => exact fun hR => ⟨rfl, hR⟩
  | cons c cs ih =>
    intro heap hs hR
    obtain ⟨memory, c⟩ := c
    have hc := run_simulates junk memory c
    obtain ⟨hanswers, hR'⟩ := ih (hc heap hs hR).1
    have hfst := hc.fst_eq hR
    rw [runAll, idealAll]
    exact ⟨congrArg₂ List.cons hfst hanswers, hR'⟩

/-! ### What a call raises -/

/-- Something that Python defines. -/
abbrev Defined (e : Exc) : Prop := e ≠ .fault

theorem parseSeed_throws (o : Option (Obj t)) : Throws Defined (parseSeed o : Eff Exc σ Word) := by
  cases o with
  | none => exact Throws.pure 0
  | some o =>
    dsimp only [parseSeed]
    have hraise : ∀ e ∈ (asUnsignedLongLong o).2, Defined e := by
      unfold asUnsignedLongLong
      split
      · rintro e ⟨⟩
        exact nofun
      · split_ifs
        · exact nofun
        · rintro e ⟨⟩
          exact nofun
    split_ifs
    · exact Throws.pure 0
    · generalize asUnsignedLongLong o = r at hraise
      obtain ⟨value, e⟩ := r
      cases e with
      | none => exact Throws.pure value
      | some e =>
        dsimp only
        split_ifs
        · exact Throws.throw (hraise e rfl)
        · exact Throws.pure value

theorem argument_error {a : Args t} {required i : ℕ} {name : String} {e : Exc}
    (h : argument a required i name = .error e) : e = .typeError := by
  unfold argument at h
  split at h
  · exact (Except.error.inj h).symm
  · cases h
  · cases h
  · split_ifs at h
    exact (Except.error.inj h).symm

theorem argument_required {a : Args t} {name : String} {o : Option (Obj t)}
    (h : argument a 1 0 name = .ok o) : o.isSome := by
  unfold argument at h
  split at h
  · cases h
  · rw [← Except.ok.inj h]
    rfl
  · rw [← Except.ok.inj h]
    rfl
  · cases h

theorem parseTuple_cases (a : Args t) (kwlist : List String) (required : ℕ) :
    (parseTupleAndKeywords a kwlist required : Eff Exc σ _) = Eff.throw .typeError ∨
    (parseTupleAndKeywords a kwlist required : Eff Exc σ _) =
      Eff.ofExcept (kwlist.zipIdx.mapM fun name => argument a required name.2 name.1) := by
  unfold parseTupleAndKeywords
  split_ifs
  · exact .inl rfl
  · exact .inl rfl
  · exact .inr rfl

theorem parseSeedArg_throws (a : Args t) : Throws Defined (parseSeedArg a : Eff Exc σ _) := by
  unfold parseSeedArg
  rcases parseTuple_cases (σ := σ) a ["seed"] 0 with h | h
  · rw [h]
    rintro s e ⟨⟩
    exact nofun
  · rw [h]
    have hlist : (["seed"].zipIdx.mapM fun name => argument a 0 name.2 name.1) =
        (argument a 0 0 "seed").map fun seed => [seed] := by
      cases hseed : argument a 0 0 "seed" <;> simp [hseed]
      all_goals rfl
    rw [hlist]
    cases hseed : argument a 0 0 "seed" with
    | error e =>
      rintro s _ ⟨⟩
      rw [argument_error hseed]
      exact nofun
    | ok seed =>
      rintro s _ ⟨⟩

theorem parseDataArgs_throws (a : Args t) : Throws Defined (parseDataArgs a : Eff Exc σ _) := by
  unfold parseDataArgs
  rcases parseTuple_cases (σ := σ) a ["data", "seed"] 1 with h | h
  · rw [h]
    rintro s e ⟨⟩
    exact nofun
  · rw [h]
    have hlist : (["data", "seed"].zipIdx.mapM fun name => argument a 1 name.2 name.1) =
        (argument a 1 0 "data").bind fun data => (argument a 1 1 "seed").map fun seed =>
        [data, seed] := by
      cases hdata : argument a 1 0 "data" <;> cases hseed : argument a 1 1 "seed" <;>
        simp [hdata, hseed] <;> rfl
    rw [hlist]
    cases hdata : argument a 1 0 "data" with
    | error e =>
      rintro s _ ⟨⟩
      rw [argument_error hdata]
      exact nofun
    | ok data =>
      obtain ⟨data, rfl⟩ := Option.isSome_iff_exists.mp (argument_required hdata)
      cases hseed : argument a 1 1 "seed" with
      | error e =>
        rintro s _ ⟨⟩
        rw [argument_error hseed]
        exact nofun
      | ok seed => rintro s _ ⟨⟩

theorem getBuffer_throws (o : Obj t) (message : String) :
    Throws Defined (getBuffer o message : Eff Exc σ _) := by
  refine Throws.bind (Throws.ofExcept fun e he => ?_) fun view => ?_
  · cases hb : o.buffer with
    | ok view => rw [hb] at he; cases he
    | error n =>
      rw [hb] at he
      cases he
      exact nofun
  · split_ifs
    · exact Throws.pure _
    · exact Throws.throw nofun

theorem alloc_throws (memory : Bool) (v : Value) :
    Throws Defined (alloc memory v : Eff Exc σ Value) := by
  unfold alloc
  split_ifs
  · exact Throws.pure v
  · exact Throws.throw nofun

theorem newIdeal_throws (memory : Bool) (h : Ideal) : Throws Defined (newIdeal memory h) := by
  refine Throws.bind (fun _ _ hget => by cases hget) fun hs => ?_
  exact (alloc_throws memory _).bind fun v => (Throws.modify _).bind fun _ => Throws.pure v

theorem self_bind {α : Type} {i : ℕ} {hs : List Ideal} {f : Ideal → Eff Exc (List Ideal) α}
    (hi : i < hs.length) (hf : ∀ h, Throws Defined (f h)) :
    ∀ e, ((selfIdeal i >>= f) hs).1 = .error e → Defined e := by
  have hself : (selfIdeal i >>= f) hs = f hs[i] hs := by
    show Eff.bind (selfIdeal i) f hs = f hs[i] hs
    have hget : selfIdeal i hs = (.ok hs[i], hs) := by
      show (defined hs[i]? : Eff Exc (List Ideal) Ideal) hs = _
      rw [List.getElem?_eq_getElem hi]
      rfl
    unfold Eff.bind
    rw [hget]
  rw [hself]
  exact hf hs[i] hs

/-- **What C leaves undefined does not happen**, on a hasher there is. -/
theorem ideal_throws (memory : Bool) (c : Call t) {hs : List Ideal} (hself : ∀ i ∈ c.self?, i <
    hs.length) : ∀ e, (ideal memory c hs).1 = .error e → Defined e := by
  cases c with
  | hayahash64 a =>
    refine (Throws.bind (parseDataArgs_throws a) fun args =>
      (parseSeed_throws _).bind fun seed => ?_) hs
    exact (getBuffer_throws _ _).bind fun bytes => alloc_throws memory _
  | hayahash128 a =>
    refine (Throws.bind (parseDataArgs_throws a) fun args =>
      (parseSeed_throws _).bind fun seed => ?_) hs
    exact (getBuffer_throws _ _).bind fun bytes => alloc_throws memory _
  | new a =>
    refine (Throws.bind (parseSeedArg_throws a) fun o =>
      (parseSeed_throws o).bind fun seed => ?_) hs
    exact newIdeal_throws memory _
  | update i data =>
    refine self_bind (hself i rfl) fun h => (getBuffer_throws _ _).bind fun bytes => ?_
    exact (Throws.modify _).bind fun _ => Throws.pure _
  | digest64 i => exact self_bind (hself i rfl) fun h => alloc_throws memory _
  | digest128 i => exact self_bind (hself i rfl) fun h => alloc_throws memory _
  | copy i => exact self_bind (hself i rfl) fun h => newIdeal_throws memory h
  | reset i a =>
    refine self_bind (hself i rfl) fun h => (parseSeedArg_throws a).bind fun seedObj => ?_
    have hreseed : Throws Defined (reseed seedObj h.seed : Eff Exc (List Ideal) Word) := by
      unfold reseed
      split_ifs
      · exact Throws.pure _
      · exact parseSeed_throws seedObj
    exact hreseed.bind fun seed => (Throws.modify _).bind fun _ => Throws.pure _
  | getSeed i => exact self_bind (hself i rfl) fun h => alloc_throws memory _
  | getLength i => exact self_bind (hself i rfl) fun h => alloc_throws memory _
  | repr i => exact self_bind (hself i rfl) fun h => alloc_throws memory _

/-! ### What a call leaves alone -/

theorem parseSeed_quiet (o : Option (Obj t)) : Quiet (parseSeed o : Eff Exc σ Word) := by
  cases o with
  | none => exact Quiet.pure 0
  | some o =>
    dsimp only [parseSeed]
    split_ifs
    · exact Quiet.pure 0
    · obtain ⟨value, e⟩ := asUnsignedLongLong o
      cases e with
      | none => exact Quiet.pure value
      | some e =>
        dsimp only
        split_ifs
        · exact Quiet.throw e
        · exact Quiet.pure value

theorem reseed_quiet (o : Option (Obj t)) (seed : Word) :
    Quiet (reseed o seed : Eff Exc σ Word) := by
  unfold reseed
  split_ifs
  · exact Quiet.pure seed
  · exact parseSeed_quiet o

theorem parseTuple_quiet (a : Args t) (kwlist : List String) (required : ℕ) :
    Quiet (parseTupleAndKeywords a kwlist required : Eff Exc σ _) := by
  unfold parseTupleAndKeywords
  split_ifs
  · exact Quiet.throw _
  · exact Quiet.throw _
  · exact Quiet.ofExcept _

theorem parseSeedArg_quiet (a : Args t) : Quiet (parseSeedArg a : Eff Exc σ _) := by
  refine (parseTuple_quiet a _ _).bind fun vs => ?_
  split
  · exact Quiet.pure _
  · exact Quiet.throw _

theorem parseDataArgs_quiet (a : Args t) : Quiet (parseDataArgs a : Eff Exc σ _) := by
  refine (parseTuple_quiet a _ _).bind fun vs => ?_
  split
  · exact Quiet.pure _
  · exact Quiet.throw _

theorem getBuffer_quiet (o : Obj t) (message : String) :
    Quiet (getBuffer o message : Eff Exc σ _) := by
  refine Quiet.bind (Quiet.ofExcept _) fun view => ?_
  split_ifs
  · exact Quiet.pure _
  · exact Quiet.throw _

theorem defined_quiet {α : Type} (x : Option α) : Quiet (defined x : Eff Exc σ α) := by
  cases x with
  | none => exact Quiet.throw _
  | some a => exact Quiet.pure a

theorem alloc_quiet (memory : Bool) (v : Value) : Quiet (alloc memory v : Eff Exc σ Value) := by
  unfold alloc
  split_ifs
  · exact Quiet.pure v
  · exact Quiet.throw _

theorem self_quiet (i : ℕ) : Quiet (self i) := fun heap => defined_quiet heap[i]? heap

/-- What a call may change: the object that is called, and what comes behind the objects there
are. -/
def Spares (who : Option ℕ) (heap heap' : Heap) : Prop :=
  heap.length ≤ heap'.length ∧ ∀ j < heap.length, who ≠ some j → heap'[j]? = heap[j]?

theorem Spares.refl (who : Option ℕ) (heap : Heap) : Spares who heap heap :=
  ⟨le_rfl, fun _ _ _ => rfl⟩

theorem Spares.trans {who : Option ℕ} (h h' h'' : Heap) (hs : Spares who h h')
    (hs' : Spares who h' h'') :
    Spares who h h'' :=
  ⟨hs.1.trans hs'.1, fun j hj hwho => (hs'.2 j (hj.trans_le hs.1) hwho).trans (hs.2 j hj hwho)⟩

theorem setSelf_spares (i : ℕ) (o : HasherObject) : Keeps (Spares (some i)) (setSelf i o) := by
  refine Keeps.modify fun heap => ⟨by rw [List.length_set], fun j _ hwho => ?_⟩
  exact List.getElem?_set_ne fun hij => hwho (congrArg some hij)

theorem newObject_spares (who : Option ℕ) (memory : Bool) (o : HasherObject) :
    Keeps (Spares who) (newObject memory o) := by
  refine Keeps.bind Spares.trans (fun heap => Spares.refl who heap) fun heap => ?_
  refine Keeps.bind Spares.trans ((alloc_quiet memory _).keeps (Spares.refl who)) fun v => ?_
  refine Keeps.bind Spares.trans (Keeps.modify fun heap => ⟨?_, fun j hj _ => ?_⟩) fun _ =>
    Keeps.pure (Spares.refl who) v
  · rw [List.length_append]
    omega
  · exact List.getElem?_append_left hj

theorem newObject_atomic (memory : Bool) (o : HasherObject) : Atomic (newObject memory o) := by
  refine Atomic.bind (fun _ => rfl) fun heap => ?_
  exact Atomic.bind (alloc_quiet memory _) fun v => Atomic.modify

/-- **A call that raises changes nothing.** -/
theorem run_atomic (junk : State) (memory : Bool) (c : Call t) : Atomic (c.run junk memory) := by
  cases c with
  | hayahash64 a =>
    refine Atomic.bind (parseDataArgs_quiet a) fun args =>
      Atomic.bind (parseSeed_quiet _) fun seed => ?_
    refine Atomic.bind (getBuffer_quiet _ _) fun bytes => Atomic.bind (defined_quiet _) fun d => ?_
    exact (alloc_quiet memory _).atomic
  | hayahash128 a =>
    refine Atomic.bind (parseDataArgs_quiet a) fun args =>
      Atomic.bind (parseSeed_quiet _) fun seed => ?_
    refine Atomic.bind (getBuffer_quiet _ _) fun bytes => Atomic.bind (defined_quiet _) fun d => ?_
    exact (alloc_quiet memory _).atomic
  | new a =>
    refine Atomic.bind (parseSeedArg_quiet a) fun o =>
      Atomic.bind (parseSeed_quiet o) fun seed => ?_
    exact newObject_atomic memory _
  | update i data =>
    refine Atomic.bind (self_quiet i) fun o => Atomic.bind (getBuffer_quiet _ _) fun bytes => ?_
    exact Atomic.bind (defined_quiet _) fun st => Atomic.modify
  | digest64 i =>
    refine Atomic.bind (self_quiet i) fun o => Atomic.bind (defined_quiet _) fun d => ?_
    exact (alloc_quiet memory _).atomic
  | digest128 i =>
    refine Atomic.bind (self_quiet i) fun o => Atomic.bind (defined_quiet _) fun d => ?_
    exact (alloc_quiet memory _).atomic
  | copy i => exact Atomic.bind (self_quiet i) fun o => newObject_atomic memory _
  | reset i a =>
    refine Atomic.bind (self_quiet i) fun o => Atomic.bind (parseSeedArg_quiet a) fun seedObj => ?_
    exact Atomic.bind (reseed_quiet seedObj _) fun seed => Atomic.modify
  | getSeed i => exact Atomic.bind (self_quiet i) fun o => (alloc_quiet memory _).atomic
  | getLength i => exact Atomic.bind (self_quiet i) fun o => (alloc_quiet memory _).atomic
  | repr i => exact Atomic.bind (self_quiet i) fun o => (alloc_quiet memory _).atomic

/-- **No call changes another object.** -/
theorem run_spares (junk : State) (memory : Bool) (c : Call t) :
    Keeps (Spares c.self?) (c.run junk memory) := by
  have hquiet : ∀ {who : Option ℕ} {α : Type} {x : Py α}, Quiet x → Keeps (Spares who) x :=
    fun hx => hx.keeps (Spares.refl _)
  have hbind : ∀ {who : Option ℕ} {α β : Type} {x : Py α} {f : α → Py β}, Keeps (Spares who) x →
      (∀ a, Keeps (Spares who) (f a)) → Keeps (Spares who) (x >>= f) := Keeps.bind Spares.trans
  cases c with
  | hayahash64 a =>
    refine hbind (hquiet (parseDataArgs_quiet a)) fun args =>
      hbind (hquiet (parseSeed_quiet _)) fun seed => ?_
    refine hbind (hquiet (getBuffer_quiet _ _)) fun bytes =>
      hbind (hquiet (defined_quiet _)) fun d => ?_
    exact hquiet (alloc_quiet memory _)
  | hayahash128 a =>
    refine hbind (hquiet (parseDataArgs_quiet a)) fun args =>
      hbind (hquiet (parseSeed_quiet _)) fun seed => ?_
    refine hbind (hquiet (getBuffer_quiet _ _)) fun bytes =>
      hbind (hquiet (defined_quiet _)) fun d => ?_
    exact hquiet (alloc_quiet memory _)
  | new a =>
    refine hbind (hquiet (parseSeedArg_quiet a)) fun o =>
      hbind (hquiet (parseSeed_quiet o)) fun seed => ?_
    exact newObject_spares _ memory _
  | update i data =>
    refine hbind (hquiet (self_quiet i)) fun o =>
      hbind (hquiet (getBuffer_quiet _ _)) fun bytes => ?_
    refine hbind (hquiet (defined_quiet _)) fun st => hbind (setSelf_spares i _) fun _ => ?_
    exact Keeps.pure (Spares.refl _) _
  | digest64 i =>
    refine hbind (hquiet (self_quiet i)) fun o => hbind (hquiet (defined_quiet _)) fun d => ?_
    exact hquiet (alloc_quiet memory _)
  | digest128 i =>
    refine hbind (hquiet (self_quiet i)) fun o => hbind (hquiet (defined_quiet _)) fun d => ?_
    exact hquiet (alloc_quiet memory _)
  | copy i => exact hbind (hquiet (self_quiet i)) fun o => newObject_spares _ memory _
  | reset i a =>
    refine hbind (hquiet (self_quiet i)) fun o =>
      hbind (hquiet (parseSeedArg_quiet a)) fun seedObj => ?_
    refine hbind (hquiet (reseed_quiet seedObj _)) fun seed =>
      hbind (setSelf_spares i _) fun _ => ?_
    exact Keeps.pure (Spares.refl _) _
  | getSeed i => exact hbind (hquiet (self_quiet i)) fun o => hquiet (alloc_quiet memory _)
  | getLength i => exact hbind (hquiet (self_quiet i)) fun o => hquiet (alloc_quiet memory _)
  | repr i => exact hbind (hquiet (self_quiet i)) fun o => hquiet (alloc_quiet memory _)

end Hayahash.Refine.Python
