import Hayahash.Ports.Sim
import Mathlib.Data.Set.Basic
import Mathlib.Data.List.Basic

/-! # What the steps of the simulator should show

A step marks ranges of the input. `loaded` are the bytes that the steps so far have read, `Shown` is
what a step should show of them, and `Told` says so of every step of a list.

* `Log`: what holds after every step, and `Log.push`: a step that reads on keeps it.
* `Log.silent`, `Log.read`: steps that read nothing, and steps that read a range, from what is done
  or from further back. -/

namespace Hayahash.Spec.Steps

open Hayahash.Ports.Sim

/-- The positions from `a` up to `b`. -/
def between (a b : ℤ) : Set ℤ := {i | a ≤ i ∧ i < b}

/-- The bytes of a highlight. -/
def range (h : Highlight) : Set ℤ := between h.start (h.start + h.count)

/-- The bytes that highlights mark as read. -/
def reads (hl : List Highlight) : Set ℤ := {i | ∃ h ∈ hl, h.cls = .r ∧ i ∈ range h}

/-- The bytes that steps have read. -/
def loaded (steps : List Step) : Set ℤ := {i | ∃ x ∈ steps, i ∈ reads x.hl}

/-- A highlight lies inside an input of `n` bytes, and is not empty. -/
def Inside (n : ℤ) (h : Highlight) : Prop := 0 ≤ h.start ∧ 0 < h.count ∧ h.start + h.count ≤ n

/-- **What a step should show** after the steps `before`. -/
structure Shown (n : ℤ) (before : List Step) (x : Step) : Prop where
  /-- The bytes done are the bytes read. -/
  done : 0 ≤ x.done ∧ loaded (before ++ [x]) = between 0 x.done
  /-- They are never fewer than before. -/
  grows : ∀ y ∈ before, y.done ≤ x.done
  inside : ∀ h ∈ x.hl, Inside n h
  /-- A range that is read again is what of the read was read before. -/
  again : ∀ h ∈ x.hl, h.cls = .o → range h = reads x.hl ∩ loaded before
  /-- Without such a range nothing is read again, but for the only byte of an input. -/
  fresh : n ≠ 1 → (∀ h ∈ x.hl, h.cls ≠ .o) → reads x.hl ∩ loaded before = ∅

/-- Every step shows what it should. -/
def Told (n : ℤ) (steps : List Step) : Prop :=
  ∀ before x after, steps = before ++ x :: after → Shown n before x

/-- **After every step.** -/
structure Log (n : ℤ) (steps : List Step) (done : ℤ) : Prop where
  told : Told n steps
  loaded : 0 ≤ done ∧ loaded steps = between 0 done
  le : ∀ y ∈ steps, y.done ≤ done
  last : steps.getLast?.map Step.done = some done

variable {n done : ℤ} {steps : List Step} {x : Step}

theorem mem_between {a b i : ℤ} : i ∈ between a b ↔ a ≤ i ∧ i < b := Iff.rfl

/-! ### Lists of steps -/

theorem loaded_append (a b : List Step) : loaded (a ++ b) = loaded a ∪ loaded b := by
  ext i
  simp [loaded, or_and_right, exists_or]

theorem loaded_singleton (x : Step) : loaded [x] = reads x.hl := by
  ext i
  simp [loaded]

theorem loaded_push : loaded (steps ++ [x]) = loaded steps ∪ reads x.hl := by
  rw [loaded_append, loaded_singleton]

theorem loaded_mono {a b : List Step} (h : a ⊆ b) : loaded a ⊆ loaded b := by
  rintro i ⟨x, hx, hi⟩
  exact ⟨x, h hx, hi⟩

theorem told_nil : Told n [] := by
  intro before x after h
  exact absurd h.symm (by simp)

theorem Told.push (h : Told n steps) (hx : Shown n steps x) : Told n (steps ++ [x]) := by
  intro before y after heq
  -- the step is the new one, or one of those before
  rcases List.eq_nil_or_concat after with rfl | ⟨after, z, rfl⟩
  · obtain ⟨rfl, hy⟩ := List.append_inj' heq rfl
    obtain rfl := List.singleton_inj.1 hy
    exact hx
  · rw [List.concat_eq_append, ← List.cons_append, ← List.append_assoc] at heq
    exact h before y after (List.append_inj' heq rfl).1

/-- **The bytes done never get fewer.** -/
theorem Told.pairwise (h : Told n steps) : steps.Pairwise (·.done ≤ ·.done) := by
  rw [List.pairwise_iff_getElem]
  intro i j hi hj hij
  have hsplit : steps = steps.take j ++ steps[j] :: steps.drop (j + 1) := by
    rw [← List.drop_eq_getElem_cons hj, List.take_append_drop]
  exact (h _ _ _ hsplit).grows _ (List.mem_take_iff_getElem.2 ⟨i, by omega, rfl⟩)

/-! ### Steps -/

/-- **A step that reads on.** -/
theorem Log.push (h : Log n steps done) (hgrows : done ≤ x.done)
    (hread : between 0 done ∪ reads x.hl = between 0 x.done) (hin : ∀ r ∈ x.hl, Inside n r)
    (hagain : ∀ r ∈ x.hl, r.cls = .o → range r = reads x.hl ∩ between 0 done)
    (hfresh : n ≠ 1 → (∀ r ∈ x.hl, r.cls ≠ .o) → reads x.hl ∩ between 0 done = ∅) :
    Log n (steps ++ [x]) x.done := by
  have hloaded : 0 ≤ x.done ∧ Steps.loaded (steps ++ [x]) = between 0 x.done := by
    rw [loaded_push, h.loaded.2, hread]
    exact ⟨h.loaded.1.trans hgrows, rfl⟩
  have hshown : Shown n steps x := by
    refine ⟨hloaded, fun y hy => (h.le y hy).trans hgrows, hin, ?_, ?_⟩
    · rwa [h.loaded.2]
    · rwa [h.loaded.2]
  refine ⟨h.told.push hshown, hloaded, fun y hy => ?_, ?_⟩
  · rcases List.mem_append.1 hy with hy | hy
    · exact (h.le y hy).trans hgrows
    · rw [List.mem_singleton.1 hy]
  · rw [List.getLast?_concat, Option.map_some]

theorem reads_of_marks {hl : List Highlight} (h : ∀ r ∈ hl, r.cls ≠ .r) : reads hl = ∅ := by
  refine Set.eq_empty_of_forall_notMem fun i => ?_
  rintro ⟨r, hr, hcls, -⟩
  exact h r hr hcls

theorem reads_cons {r : Highlight} {hl : List Highlight} (hr : r.cls = .r)
    (h : ∀ r ∈ hl, r.cls ≠ .r) : reads (r :: hl) = range r := by
  ext i
  constructor
  · rintro ⟨q, hq, hcls, hi⟩
    rcases List.mem_cons.1 hq with rfl | hq
    · exact hi
    · exact absurd hcls (h q hq)
  · intro hi
    exact ⟨r, List.mem_cons_self, hr, hi⟩

theorem marks_ite {p : Prop} [Decidable p] {r : Highlight} (hr : r.cls ≠ .r) :
    ∀ q ∈ if p then [r] else [], q.cls ≠ .r := by
  intro q hq
  split_ifs at hq
  · rwa [List.mem_singleton.1 hq]
  · cases hq

theorem reads_one (off k : ℤ) : reads [⟨off, k, .r⟩] = between off (off + k) :=
  reads_cons rfl (by rintro r ⟨⟩)

theorem reads_two (off off' k : ℤ) : reads [⟨off, k, .r⟩, ⟨off', k, .r⟩] =
    between off (off + k) ∪ between off' (off' + k) := by
  ext i
  simp [reads, range]

theorem reads_again (off k ov : ℤ) :
    reads (⟨off, k, .r⟩ :: if ov > 0 then [⟨off, ov, .o⟩] else []) = between off (off + k) :=
  reads_cons rfl (marks_ite (by rintro ⟨⟩))

section Steps
variable (title : String) (snap : St) {hl : List Highlight}

/-- **A step that reads nothing.** -/
theorem Log.silent (h : Log n steps done) (hmarks : ∀ r ∈ hl, r.cls = .p ∧ Inside n r) :
    Log n (steps ++ [⟨title, hl, done, snap⟩]) done := by
  have hreads : reads hl = ∅ := reads_of_marks fun r hr => by rw [(hmarks r hr).1]; decide
  refine h.push (x := ⟨title, hl, done, snap⟩) le_rfl ?_ (fun r hr => (hmarks r hr).2)
    (fun r hr hcls => ?_) fun _ _ => ?_
  · rw [hreads, Set.union_empty]
  · rw [(hmarks r hr).1] at hcls
    cases hcls
  · rw [hreads, Set.empty_inter]

/-- The marks beside the range that a step reads: the previous stripe, and what is read again. -/
structure Marks (n done off k : ℤ) (hl : List Highlight) : Prop where
  beside : ∀ r ∈ hl, (r.cls = .p ∧ Inside n r) ∨ (off < done ∧ r = ⟨off, min k (done - off), .o⟩)
  again : off < done → ∃ r ∈ hl, r.cls = .o

theorem marks_nil {off k : ℤ} (h : done ≤ off) : Marks n done off k [] where
  beside := by rintro r ⟨⟩
  again := by omega

theorem marks_again {off k ov : ℤ} (hk : 0 < k) (hov : ov = min k (max 0 (done - off))) :
    Marks n done off k (if ov > 0 then [⟨off, ov, .o⟩] else []) := by
  split_ifs with hpos
  · have hmin : ov = min k (done - off) := by omega
    refine ⟨fun r hr => .inr ⟨by omega, ?_⟩, fun _ => ⟨_, List.mem_singleton_self _, rfl⟩⟩
    rw [List.mem_singleton.1 hr, hmin]
  · exact marks_nil (by omega)

/-- **A step that reads a range.** -/
theorem Log.read (h : Log n steps done) {off k : ℤ} (hoff : 0 ≤ off) (hnext : off ≤ done)
    (hk : 0 < k) (hin : off + k ≤ n) (hmarks : Marks n done off k hl) :
    Log n (steps ++ [⟨title, ⟨off, k, .r⟩ :: hl, max done (off + k), snap⟩])
      (max done (off + k)) := by
  have hcls : ∀ r ∈ hl, r.cls ≠ .r := by
    intro r hr
    rcases hmarks.beside r hr with ⟨hp, -⟩ | ⟨-, rfl⟩
    · rw [hp]
      decide
    · exact fun ho => by cases ho
  have hreads : reads (⟨off, k, .r⟩ :: hl) = between off (off + k) := reads_cons rfl hcls
  refine h.push (x := ⟨title, ⟨off, k, .r⟩ :: hl, max done (off + k), snap⟩)
    (le_max_left _ _) ?_ ?_ ?_ ?_
  · ext i
    simp only [hreads, Set.mem_union, mem_between]
    omega
  · intro r hr
    rcases List.mem_cons.1 hr with rfl | hr
    · exact ⟨hoff, hk, hin⟩
    · rcases hmarks.beside r hr with ⟨-, hr⟩ | ⟨hlt, rfl⟩
      · exact hr
      · exact ⟨hoff, lt_min hk (by omega), by dsimp only; omega⟩
  · intro r hr ho
    rcases List.mem_cons.1 hr with rfl | hr
    · cases ho
    · rcases hmarks.beside r hr with ⟨hp, -⟩ | ⟨hlt, rfl⟩
      · rw [hp] at ho
        cases ho
      · ext i
        simp only [hreads, range, Set.mem_inter_iff, mem_between]
        omega
  · intro _ hnone
    have hdone : done ≤ off := by
      by_contra hlt
      obtain ⟨r, hr, ho⟩ := hmarks.again (by omega)
      exact hnone r (List.mem_cons_of_mem _ hr) ho
    refine Set.eq_empty_of_forall_notMem fun i hi => ?_
    simp only [hreads, Set.mem_inter_iff, mem_between] at hi
    omega

theorem log_first : Log n [⟨title, [], 0, snap⟩] 0 := by
  have hloaded : (0 : ℤ) ≤ 0 ∧ Steps.loaded [⟨title, [], 0, snap⟩] = between 0 0 := by
    refine ⟨le_rfl, Set.ext fun i => ⟨?_, ?_⟩⟩
    · rintro ⟨x, hx, r, hr, -⟩
      obtain rfl := List.mem_singleton.1 hx
      cases hr
    · rintro ⟨h0, h1⟩
      omega
  have hshown : Shown n [] ⟨title, [], 0, snap⟩ := by
    refine ⟨hloaded, ?_, ?_, ?_, fun _ _ => ?_⟩
    · rintro y ⟨⟩
    · rintro r ⟨⟩
    · rintro r ⟨⟩
    · rw [reads_of_marks (by rintro r ⟨⟩), Set.empty_inter]
  refine ⟨told_nil.push hshown, hloaded, fun y hy => ?_, rfl⟩
  rw [List.mem_singleton.1 hy]

end Steps

end Hayahash.Spec.Steps
