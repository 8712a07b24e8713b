import Hayahash.Lib.ReadProg

/-! # Total correctness of programs that read

`Ensures m L N x Q`: on the memory `m` the program `x` ends, every range it loads is in `L`, every
note it makes is in `N`, and its value satisfies `Q`. The rules are those of a Hoare logic for
total correctness, with the conditions `L` and `N` on the whole trace fixed. -/

namespace Hayahash.Lib.Triple

open Hayahash.Lib.ReadProg

variable {β ν ν' α γ : Type} {m : Mem β} {L : Span → Prop} {N : ν → Prop} {x : Prog β ν α}
  {f : α → Prog β ν γ} {Q : α → Prop} {R : γ → Prop}

/-- **Total correctness**, with a condition on the loads and one on the notes. -/
def Ensures (m : Mem β) (L : Span → Prop) (N : ν → Prop) (x : Prog β ν α) (Q : α → Prop) : Prop :=
  ∃ o, exec m x = some o ∧ (∀ s ∈ o.loads, L s) ∧ (∀ e ∈ o.notes, N e) ∧ Q o.val

theorem Ensures.pure {a : α} (h : Q a) : Ensures m L N (Pure.pure a) Q :=
  ⟨_, exec_pure a, by simp, by simp, h⟩

/-- **Sequencing.** -/
theorem Ensures.bind (hx : Ensures m L N x Q) (hf : ∀ a, Q a → Ensures m L N (f a) R) :
    Ensures m L N (x >>= f) R := by
  obtain ⟨o, ho, hl, hn, hq⟩ := hx
  obtain ⟨o', ho', hl', hn', hr⟩ := hf _ hq
  refine ⟨o.andThen o', ?_, fun s hs => ?_, fun e he => ?_, hr⟩
  · rw [exec_bind, ho, Option.bind_some, ho', Option.map_some]
  · exact (List.mem_append.mp hs).elim (hl s) (hl' s)
  · exact (List.mem_append.mp he).elim (hn e) (hn' e)

/-- **Consequence.** -/
theorem Ensures.mono {Q' : α → Prop} (hx : Ensures m L N x Q) (h : ∀ a, Q a → Q' a) :
    Ensures m L N x Q' := by
  obtain ⟨o, ho, hl, hn, hq⟩ := hx
  exact ⟨o, ho, hl, hn, h _ hq⟩

theorem Ensures.observe_bind {e : ν} {f : Unit → Prog β ν γ} (he : N e)
    (hf : Ensures m L N (f ()) R) : Ensures m L N (Prog.observe e >>= f) R :=
  Ensures.bind (Q := fun _ => True) ⟨_, exec_observe e, by simp, by simpa using he, trivial⟩
    fun _ _ => hf

theorem Ensures.loadSpan_bind {s : Span} {f : (Fin s.len → β) → Prog β ν γ} (hs : L s)
    (hf : Ensures m L N (f (m.read s)) R) : Ensures m L N (Prog.loadSpan s >>= f) R :=
  Ensures.bind (Q := (· = m.read s)) ⟨_, exec_loadSpan s, by simpa using hs, by simp, rfl⟩
    fun _ h => h ▸ hf

/-- What runs is total. -/
theorem Ensures.of_runs {a : α} {ls : List Span} {ns : List ν} (hx : Runs m x a ls ns)
    (hl : ∀ s ∈ ls, L s) (hn : ∀ e ∈ ns, N e) (h : Q a) : Ensures m L N x Q := by
  obtain ⟨o, ho, rfl, hls, rfl⟩ := hx
  exact ⟨o, ho, fun s hs => hl s ((hls s).mp hs), hn, h⟩

/-- The value of a total program satisfies its postcondition. -/
theorem Ensures.value (hx : Ensures m L N x Q) : ∃ a, value m x = some a ∧ Q a := by
  obtain ⟨o, ho, -, -, hq⟩ := hx
  exact ⟨o.val, by simp [ReadProg.value, ho], hq⟩

/-! ### Notes of another kind -/

/-- The program without its notes, to stand in one that notes other things. -/
def silent : Prog β ν α → Prog β ν' α
  | .ret a => .ret a
  | .load s k => .load s fun b => silent (k b)
  | .note _ k => silent k
  | .stuck => .stuck

theorem exec_silent (x : Prog β ν α) :
    exec m (silent x : Prog β ν' α) = (exec m x).map fun o => ⟨o.val, o.loads, []⟩ := by
  induction x with
  | ret a => rfl
  | load s k ih =>
    simp only [silent, exec, ih]
    cases exec m (k (m.read s)) <;> simp [Outcome.andThen]
  | note e k ih =>
    simp only [silent, exec, ih]
    cases exec m k <;> simp [Outcome.andThen]
  | stuck => rfl

theorem runs_silent (ν' : Type) {a : α} {ls : List Span} {ns : List ν} (hx : Runs m x a ls ns) :
    Runs m (silent x : Prog β ν' α) a ls [] := by
  obtain ⟨o, ho, hv, hl, -⟩ := hx
  exact ⟨⟨o.val, o.loads, []⟩, by rw [exec_silent, ho, Option.map_some], hv, hl, rfl⟩

end Hayahash.Lib.Triple
