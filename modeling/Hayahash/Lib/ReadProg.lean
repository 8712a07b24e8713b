import Mathlib.Data.Int.Notation
import Mathlib.Data.List.Basic
import Mathlib.Logic.Function.Basic

/-! # Programs that read a memory

A `Prog β ν α` computes a value of type `α` from a memory of cells of type `β`, which it reads in
whole ranges (`Span`) and does not change. On the way it may `note` observations of type `ν`, which
have no effect on what it computes. A program that does not terminate is `stuck`.

* `exec m x`: the value, the ranges loaded and the notes, in order, of `x` on the memory `m`.
* `Runs m x a ls ns`: `x` ends with the value `a` and the notes `ns`, and loads exactly the ranges
  in `ls`, in any order and any number of times. It composes by `Runs.bind`, so each procedure
  needs one lemma of this form.
* `exec_congr`: a program does the same on any memory that agrees on the ranges it loads. -/

namespace Hayahash.Lib.ReadProg

/-- A range of `len` addresses from `off` on. -/
structure Span where
  off : ℤ
  len : ℕ
deriving DecidableEq, Repr

/-- The range holds the address `i`. -/
def Span.Covers (s : Span) (i : ℤ) : Prop := s.off ≤ i ∧ i < s.off + s.len

/-- The range lies between `lo` and `hi`. -/
def Span.Within (s : Span) (lo hi : ℤ) : Prop := lo ≤ s.off ∧ s.off + s.len ≤ hi

/-- A memory, total: what lies outside an object has some value, and reading it shows in the
trace. -/
abbrev Mem (β : Type) := ℤ → β

/-- **Programs**: return, load a range, note an observation, or never return. -/
inductive Prog (β ν α : Type) where
  | ret (a : α)
  | load (s : Span) (k : (Fin s.len → β) → Prog β ν α)
  | note (x : ν) (k : Prog β ν α)
  | stuck

/-- What an execution leaves. -/
structure Outcome (ν α : Type) where
  val : α
  loads : List Span
  notes : List ν

variable {β ν α γ : Type}

/-- The cells of a range. -/
def Mem.read (m : Mem β) (s : Span) : Fin s.len → β := fun i => m (s.off + i)

namespace Prog

def bind : Prog β ν α → (α → Prog β ν γ) → Prog β ν γ
  | ret a, f => f a
  | load s k, f => load s fun b => bind (k b) f
  | note x k, f => note x (bind k f)
  | stuck, _ => stuck

instance : Monad (Prog β ν) where
  pure := ret
  bind := bind

theorem bind_ret (x : Prog β ν α) : x.bind ret = x := by
  induction x with
  | ret a => rfl
  | load s k ih => exact congrArg (load s) (funext ih)
  | note x k ih => exact congrArg (note x) ih
  | stuck => rfl

theorem bind_bind {δ : Type} (x : Prog β ν α) (f : α → Prog β ν γ) (g : γ → Prog β ν δ) :
    (x.bind f).bind g = x.bind fun a => (f a).bind g := by
  induction x with
  | ret a => rfl
  | load s k ih => exact congrArg (load s) (funext ih)
  | note x k ih => exact congrArg (note x) ih
  | stuck => rfl

instance : LawfulMonad (Prog β ν) :=
  LawfulMonad.mk' _ bind_ret (fun _ _ => rfl) bind_bind

/-- Load a range. -/
def loadSpan (s : Span) : Prog β ν (Fin s.len → β) := load s ret

/-- Note an observation. -/
def observe (x : ν) : Prog β ν Unit := note x (ret ())

end Prog

open Prog

/-- What comes after `o`. -/
def Outcome.andThen (o : Outcome ν α) (o' : Outcome ν γ) : Outcome ν γ :=
  ⟨o'.val, o.loads ++ o'.loads, o.notes ++ o'.notes⟩

/-- **The execution** of a program on a memory. -/
def exec (m : Mem β) : Prog β ν α → Option (Outcome ν α)
  | ret a => some ⟨a, [], []⟩
  | load s k => (exec m (k (m.read s))).map (Outcome.andThen ⟨(), [s], []⟩)
  | note x k => (exec m k).map (Outcome.andThen ⟨(), [], [x]⟩)
  | stuck => none

/-- The value computed. -/
def value (m : Mem β) (x : Prog β ν α) : Option α := (exec m x).map Outcome.val

/-- The observations noted. -/
def notes (m : Mem β) (x : Prog β ν α) : List ν := ((exec m x).map Outcome.notes).getD []

/-- The ranges loaded. -/
def loads (m : Mem β) (x : Prog β ν α) : List Span := ((exec m x).map Outcome.loads).getD []

variable {m : Mem β}

@[simp] theorem exec_pure (a : α) : exec m (pure a : Prog β ν α) = some ⟨a, [], []⟩ := rfl

@[simp] theorem exec_loadSpan (s : Span) :
    exec m (loadSpan s : Prog β ν _) = some ⟨m.read s, [s], []⟩ := rfl

@[simp] theorem exec_observe (x : ν) :
    exec m (observe x : Prog β ν Unit) = some ⟨(), [], [x]⟩ := rfl

/-- **Sequencing**: the second program runs on the value of the first, its trace comes after. -/
theorem exec_bind (x : Prog β ν α) (f : α → Prog β ν γ) :
    exec m (x >>= f) = (exec m x).bind fun o => (exec m (f o.val)).map o.andThen := by
  show exec m (x.bind f) = _
  induction x with
  | ret a =>
    simp only [Prog.bind, exec, Option.bind_some]
    cases exec m (f a) <;> simp [Outcome.andThen]
  | load s k ih =>
    simp only [Prog.bind, exec, ih]
    cases exec m (k (m.read s)) with
    | none => rfl
    | some o => cases h : exec m (f o.val) <;> simp [Outcome.andThen, h]
  | note x k ih =>
    simp only [Prog.bind, exec, ih]
    cases exec m k with
    | none => rfl
    | some o => cases h : exec m (f o.val) <;> simp [Outcome.andThen, h]
  | stuck => rfl

@[simp] theorem exec_map (g : α → γ) (x : Prog β ν α) :
    exec m (g <$> x) = (exec m x).map fun o => ⟨g o.val, o.loads, o.notes⟩ := by
  rw [map_eq_pure_bind, exec_bind]
  cases exec m x <;> simp [Outcome.andThen]

/-- **Locality**: an execution depends only on the ranges it loads. -/
theorem exec_congr {m' : Mem β} {x : Prog β ν α} {o : Outcome ν α} (h : exec m x = some o)
    (hm : ∀ s ∈ o.loads, ∀ i, s.Covers i → m' i = m i) : exec m' x = some o := by
  induction x generalizing o with
  | ret a => exact h
  | load s k ih =>
    simp only [exec, Option.map_eq_some_iff] at h ⊢
    obtain ⟨o', ho', rfl⟩ := h
    have hr : m'.read s = m.read s := funext fun i =>
      hm s (by simp [Outcome.andThen]) _ ⟨by omega, by omega⟩
    refine ⟨o', ?_, rfl⟩
    rw [hr]
    exact ih _ ho' fun s' hs' => hm s' (by simp [Outcome.andThen, hs'])
  | note x k ih =>
    simp only [exec, Option.map_eq_some_iff] at h ⊢
    obtain ⟨o', ho', rfl⟩ := h
    exact ⟨o', ih ho' fun s' hs' => hm s' (by simp [Outcome.andThen, hs']), rfl⟩
  | stuck => exact h

/-! ### The judgement -/

/-- `x` ends with the value `a`, the notes `ns`, and has loaded exactly the ranges `ls`. -/
def Runs (m : Mem β) (x : Prog β ν α) (a : α) (ls : List Span) (ns : List ν) : Prop :=
  ∃ o, exec m x = some o ∧ o.val = a ∧ (∀ s, s ∈ o.loads ↔ s ∈ ls) ∧ o.notes = ns

section Runs
variable {x : Prog β ν α} {f : α → Prog β ν γ} {a : α} {b : γ} {ls ls' : List Span}
  {ns ns' : List ν}

theorem Runs.of_exec (h : exec m x = some ⟨a, ls, ns⟩) : Runs m x a ls ns :=
  ⟨_, h, rfl, fun _ => Iff.rfl, rfl⟩

theorem Runs.pure (a : α) : Runs m (Pure.pure a : Prog β ν α) a [] [] := .of_exec rfl

/-- **The rule of sequencing.** -/
theorem Runs.bind (hx : Runs m x a ls ns) (hf : Runs m (f a) b ls' ns') :
    Runs m (x >>= f) b (ls ++ ls') (ns ++ ns') := by
  obtain ⟨o, ho, rfl, hl, rfl⟩ := hx
  obtain ⟨o', ho', rfl, hl', rfl⟩ := hf
  refine ⟨o.andThen o', ?_, rfl, fun s => ?_, rfl⟩
  · rw [exec_bind, ho, Option.bind_some, ho', Option.map_some]
  · simp only [Outcome.andThen, List.mem_append, hl, hl']

theorem Runs.bind_eq {lt : List Span} {nt : List ν} (hx : Runs m x a ls ns)
    (hf : Runs m (f a) b ls' ns') (hl : lt = ls ++ ls') (hn : nt = ns ++ ns') :
    Runs m (x >>= f) b lt nt := by
  subst hl hn
  exact hx.bind hf

theorem Runs.bind_pure (hx : Runs m x a ls ns) (hf : f a = Pure.pure b) :
    Runs m (x >>= f) b ls ns := by
  have hfa : Runs m (f a) b [] [] := by
    rw [hf]
    exact .pure b
  exact hx.bind_eq hfa (by simp) (by simp)

theorem Runs.loads_congr (hx : Runs m x a ls ns) (h : ∀ s, s ∈ ls ↔ s ∈ ls') :
    Runs m x a ls' ns := by
  obtain ⟨o, ho, hv, hl, hn⟩ := hx
  exact ⟨o, ho, hv, fun s => (hl s).trans (h s), hn⟩

theorem Runs.value_eq (hx : Runs m x a ls ns) : value m x = some a := by
  obtain ⟨o, ho, rfl, -, -⟩ := hx
  simp [value, ho]

theorem Runs.notes_eq (hx : Runs m x a ls ns) : notes m x = ns := by
  obtain ⟨o, ho, -, -, rfl⟩ := hx
  simp [notes, ho]

theorem Runs.mem_loads (hx : Runs m x a ls ns) (s : Span) : s ∈ loads m x ↔ s ∈ ls := by
  obtain ⟨o, ho, -, hl, -⟩ := hx
  simp [loads, ho, hl]

theorem Runs.congr {m' : Mem β} (hx : Runs m x a ls ns)
    (hm : ∀ s ∈ ls, ∀ i, s.Covers i → m' i = m i) : Runs m' x a ls ns := by
  obtain ⟨o, ho, hv, hl, hn⟩ := hx
  exact ⟨o, exec_congr ho fun s hs => hm s ((hl s).mp hs), hv, hl, hn⟩

end Runs

end Hayahash.Lib.ReadProg
