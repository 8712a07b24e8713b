import Hayahash.Refine.Python

/-! # The Python extension

**`python`**: in every run of calls, on any number of hashers, each returns or raises what it
should, by the seed and the bytes of its own hasher; what raises changes nothing, no call changes
another hasher, and nothing is left undefined. -/

namespace Hayahash.Main.Python

open Hayahash.C.Primitives Hayahash.C.Stream Hayahash.Ports.Python Hayahash.Refine.Python

theorem stands_nil : Stands [] [] where
  length := rfl
  each := by
    intro i o h ho
    cases ho

/-- **Every run of calls**, whatever they are passed and whether there is memory or not. -/
theorem python (t : Target) (junk : State) (cs : List (Bool × Ports.Python.Call t)) :
    -- the calls return and raise what they should
    (runAll junk cs []).1 = (idealAll cs []).1 ∧
    -- and so does the next
    ∀ (memory : Bool) (c : Ports.Python.Call t),
      (c.run junk memory (runAll junk cs []).2).1 = (ideal memory c (idealAll cs []).2).1 ∧
      -- nothing is undefined, if the hasher is one that was made
      ((∀ i ∈ c.self?, i < (runAll junk cs []).2.length) →
        (c.run junk memory (runAll junk cs []).2).1 ≠ .error .fault) ∧
      -- what raises changes nothing
      (∀ e, (c.run junk memory (runAll junk cs []).2).1 = .error e →
        (c.run junk memory (runAll junk cs []).2).2 = (runAll junk cs []).2) ∧
      -- what does not changes one hasher at most
      ∀ j < (runAll junk cs []).2.length, c.self? ≠ some j →
        (c.run junk memory (runAll junk cs []).2).2[j]? = (runAll junk cs []).2[j]? := by
  obtain ⟨hanswers, hstands⟩ := runAll_ideal junk cs stands_nil
  refine ⟨hanswers, fun memory c => ?_⟩
  have hsame := (run_simulates junk memory c).fst_eq hstands
  refine ⟨hsame, fun hself hfault => ?_, run_atomic junk memory c _, fun j hj hwho => ?_⟩
  · rw [hsame] at hfault
    rw [hstands.length] at hself
    exact ideal_throws memory c hself _ hfault rfl
  · exact (run_spares junk memory c _).2 j hj hwho

end Hayahash.Main.Python
