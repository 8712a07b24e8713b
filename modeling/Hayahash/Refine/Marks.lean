import Hayahash.Refine.Sim
import Hayahash.Spec.Finals
import Hayahash.Spec.Reversal

/-! # The marks of the simulator are its loads

`buildSteps` on two inputs of one length. As long as they agree on all that is marked as read, the
steps are the same, so nothing is loaded that no step marks; and the first step that marks a byte
where they differ is not the same in both, so what it marks was loaded (`steps_marks`).

`Twin` relates the two runs: they are the same so far, or the first step that differs lies behind
them. A function keeps it (`Paired`) if it only adds steps, and from one state on does the same
unless the new steps differ. What loads nothing keeps it for any input (`Paired.of_quiet`). -/

namespace Hayahash.Refine.Marks

open Hayahash.Lib.ReadProg Hayahash.Lib.Bytes Hayahash.Lib.Checked Hayahash.Lib.Arrays
open Hayahash.Lib.Bigint Hayahash.Spec.Steps Hayahash.Ports.Sim Hayahash.Ports.Sim.Run
open Hayahash.Spec.Reference (mix mixTail)
open Hayahash.Spec.Finals (packed_inj setWidth_inj)
open Hayahash.C.Primitives (Word)
open Hayahash.Refine.Sim

/-! ### Steps that mark nothing -/

/-- From `σ` to `τ` there are only more steps, and none of them reads. -/
def Silent (σ τ : Run) : Prop := ∃ new, τ.steps = σ.steps ++ new ∧ loaded new = ∅

theorem Silent.of_steps {σ τ : Run} (h : τ.steps = σ.steps) : Silent σ τ :=
  ⟨[], by rw [h, List.append_nil], by simp [loaded]⟩

theorem Silent.trans {σ τ ρ : Run} (h : Silent σ τ) (h' : Silent τ ρ) : Silent σ ρ := by
  obtain ⟨new, hnew, hnone⟩ := h
  obtain ⟨new', hnew', hnone'⟩ := h'
  refine ⟨new ++ new', by rw [hnew', hnew, List.append_assoc], ?_⟩
  rw [loaded_append, hnone, hnone', Set.union_empty]

theorem Silent.push {σ τ : Run} (h : Silent σ τ) (title : String) {hl : List Highlight}
    (hmarks : ∀ r ∈ hl, r.cls ≠ .r) : Silent σ (push τ title hl) :=
  h.trans ⟨[_], rfl, by rw [loaded_singleton, reads_of_marks hmarks]⟩

theorem Silent.set {σ τ : Run} (h : Silent σ τ) (title : String) (f : St → St) :
    Silent σ (set τ title f) :=
  h.trans (Silent.push (.of_steps rfl) title (by rintro r ⟨⟩))

/-- `x` goes on from `σ`, and reads nothing. -/
def Quiet (σ : Run) (x : Chk Run) : Prop := ∀ τ, x = pure τ → Silent σ τ

theorem Quiet.pure {σ τ : Run} (h : Silent σ τ) : Quiet σ (Pure.pure τ) := by
  intro ρ hρ
  rwa [← Except.ok.inj hρ]

theorem Quiet.val {α : Type} {σ : Run} {x : Chk α} {f : α → Chk Run} (h : ∀ a, Quiet σ (f a)) :
    Quiet σ (x >>= f) := by
  intro τ hτ
  obtain ⟨a, -, ha⟩ := eq_pure_of_bind hτ
  exact h a τ ha

theorem Quiet.bind {σ : Run} {x : Chk Run} {f : Run → Chk Run} (h : Quiet σ x)
    (hf : ∀ τ, Quiet τ (f τ)) : Quiet σ (x >>= f) := by
  intro ρ hρ
  obtain ⟨τ, hτ, hrest⟩ := eq_pure_of_bind hρ
  exact (h τ hτ).trans (hf τ ρ hrest)

theorem Quiet.after {σ τ : Run} {x : Chk Run} (h : Silent σ τ) (hx : Quiet τ x) : Quiet σ x :=
  fun ρ hρ => h.trans (hx ρ hρ)

theorem finalize_quiet (label : String) (get : St → ℤ) (put : St → ℤ → St) :
    ∀ (fs : List (ℤ → Chk ℤ)) (i : ℕ) (σ : Run), Quiet σ (finalize label get put fs i σ) := by
  intro fs
  induction fs with
  | nil => exact fun i σ => .pure (.of_steps rfl)
  | cons f fs ih =>
      exact fun i σ => .val fun v => (ih (i + 1) _).after ((Silent.of_steps rfl).set _ _)

theorem finishHigh_quiet (σ : Run) (input : ℤ) : Quiet σ (finishHigh σ input) :=
  (finalize_quiet _ _ _ _ _ _).after ((Silent.of_steps rfl).set _ _)

theorem foldLane_quiet (i j : Fin 8) (n : ℕ) (σ : Run) : Quiet σ (foldLane i j n σ) :=
  .val fun _ => .val fun _ => .pure (.of_steps rfl)

theorem laneFold_quiet (σ : Run) : Quiet σ (laneFold σ) := by
  refine (foldLane_quiet 0 4 11 σ).bind fun σ => ?_
  refine (foldLane_quiet 1 5 19 σ).bind fun σ => ?_
  refine (foldLane_quiet 2 6 31 σ).bind fun σ => ?_
  refine (foldLane_quiet 3 7 47 σ).bind fun σ => ?_
  exact .pure ((Silent.of_steps rfl).set _ _)

theorem silent_previous {σ τ : Run} {x : Step} {off : ℤ} (h : τ.steps = σ.steps ++ [x])
    (hx : x.hl = [⟨off, 8, .p⟩]) : Silent σ τ := by
  refine ⟨[x], h, ?_⟩
  rw [loaded_singleton, hx]
  refine reads_of_marks fun r hr => ?_
  rw [List.mem_singleton.1 hr]
  exact fun hcls => by cases hcls

theorem wall_quiet (σ : Run) : Quiet σ (wall σ) := by
  unfold wall
  split_ifs
  · exact .val fun _ => .pure (silent_previous rfl rfl)
  · exact .pure (.of_steps rfl)

theorem lowerInit_quiet (s : ℤ) (σ : Run) : Quiet σ (lowerInit s σ) := by
  unfold lowerInit
  iterate 6 refine .val fun _ => ?_
  exact .pure (.of_steps rfl)

theorem upperInit_quiet (s : ℤ) (bulk : Bool) (σ : Run) : Quiet σ (upperInit s bulk σ) := by
  unfold upperInit
  split_ifs
  · iterate 7 refine .val fun _ => ?_
    exact .pure (.of_steps rfl)
  · exact .pure (.of_steps rfl)

theorem laneInit_quiet (s : ℤ) (bulk : Bool) (σ : Run) : Quiet σ (laneInit s bulk σ) := by
  refine (lowerInit_quiet s σ).bind fun σ => ?_
  refine (upperInit_quiet s bulk σ).bind fun σ => ?_
  exact .pure ((Silent.of_steps rfl).push _ (by rintro r ⟨⟩))

theorem finish_quiet (s : ℤ) (σ : Run) : Quiet σ (finish s σ) := by
  unfold finish
  iterate 13 refine .val fun _ => ?_
  refine (Quiet.after ?_ (finishHigh_quiet _ _)).bind fun σ => ?_
  · exact (((((Silent.of_steps rfl).set _ _).set _ _).set _ _).set _ _).set _ _
  · exact .pure ((Silent.of_steps rfl).push _ (by rintro r ⟨⟩))

/-! ### Two runs -/

/-- Two inputs agree on the positions `I`. -/
def Agree (xs ys : List Byte) (I : Set ℤ) : Prop := ∀ i ∈ I, ofList xs i = ofList ys i

/-- **Runs on two inputs**: they are the same and the inputs agree on what is read so far, or the
first step that is not the same marks a byte where the inputs differ. -/
inductive Twin (xs ys : List Byte) (σ τ : Run) : Prop where
  | same (heq : σ = τ) (hread : Agree xs ys (loaded σ.steps))
  | apart (before : List Step) (x y : Step) (hx : before ++ [x] <+: σ.steps)
      (hy : before ++ [y] <+: τ.steps) (hne : x ≠ y) (hread : Agree xs ys (loaded before))
      (hdiff : ¬Agree xs ys (reads x.hl))

section Twins
variable {xs ys : List Byte} {σ τ : Run}

theorem agree_union {I J : Set ℤ} : Agree xs ys (I ∪ J) ↔ Agree xs ys I ∧ Agree xs ys J := by
  simp [Agree, or_imp, forall_and]

/-- **One more step**, from one run: it is the same if the inputs agree on what it marks as read. -/
theorem Twin.push {σ' τ' : Run} {x y : Step} (hread : Agree xs ys (loaded σ.steps))
    (hx : σ'.steps = σ.steps ++ [x]) (hy : τ'.steps = σ.steps ++ [y])
    (hsame : Agree xs ys (reads x.hl) → σ' = τ') (hdiff : ¬Agree xs ys (reads x.hl) → x ≠ y) :
    Twin xs ys σ' τ' := by
  by_cases h : Agree xs ys (reads x.hl)
  · refine .same (hsame h) ?_
    rw [hx, loaded_push, agree_union]
    exact ⟨hread, h⟩
  · exact .apart σ.steps x y (by rw [hx]) (by rw [hy]) (hdiff h) hread h

/-- **`f` goes on from twins**: it only adds steps, and from one run it leads to twins. -/
structure Paired (xs ys : List Byte) (f : List Byte → Run → Chk Run) : Prop where
  grows : ∀ zs ∈ [xs, ys], ∀ σ τ, f zs σ = pure τ → σ.steps <+: τ.steps
  twin : ∀ σ τ τ', Agree xs ys (loaded σ.steps) → f xs σ = pure τ → f ys σ = pure τ' →
    Twin xs ys τ τ'

variable {f g : List Byte → Run → Chk Run}

theorem Paired.run (hf : Paired xs ys f) {σ' τ' : Run} (h : Twin xs ys σ τ) (hσ : f xs σ = pure σ')
    (hτ : f ys τ = pure τ') : Twin xs ys σ' τ' := by
  rcases h with ⟨rfl, hread⟩ | ⟨before, x, y, hx, hy, hne, hread, hdiff⟩
  · exact hf.twin σ σ' τ' hread hσ hτ
  · have hxs : xs ∈ [xs, ys] := by simp
    have hys : ys ∈ [xs, ys] := by simp
    exact .apart before x y (hx.trans (hf.grows _ hxs _ _ hσ))
      (hy.trans (hf.grows _ hys _ _ hτ)) hne
      hread hdiff

/-- **Sequencing.** -/
theorem Paired.comp (hf : Paired xs ys f) (hg : Paired xs ys g) :
    Paired xs ys fun zs σ => f zs σ >>= g zs where
  grows zs hzs σ ρ hρ := by
    obtain ⟨τ, hτ, hrest⟩ := eq_pure_of_bind hρ
    exact (hf.grows zs hzs σ τ hτ).trans (hg.grows zs hzs τ ρ hrest)
  twin σ ρ ρ' hread hρ hρ' := by
    obtain ⟨τ, hτ, hrest⟩ := eq_pure_of_bind hρ
    obtain ⟨τ', hτ', hrest'⟩ := eq_pure_of_bind hρ'
    exact hg.run (hf.twin σ τ τ' hread hτ hτ') hrest hrest'

theorem Paired.of_quiet {f : Run → Chk Run} (hf : ∀ σ, Quiet σ (f σ)) :
    Paired xs ys fun _ => f where
  grows _ _ σ τ hτ := by
    obtain ⟨new, hnew, -⟩ := hf σ τ hτ
    exact ⟨new, hnew.symm⟩
  twin σ τ τ' hread hτ hτ' := by
    obtain ⟨new, hnew, hnone⟩ := hf σ τ hτ
    refine .same (Except.ok.inj (hτ.symm.trans hτ')) ?_
    rw [hnew, loaded_append, hnone, Set.union_empty]
    exact hread

theorem Paired.of_silent {f : Run → Run} (hf : ∀ σ, Silent σ (f σ)) :
    Paired xs ys fun _ σ => pure (f σ) := .of_quiet fun σ => .pure (hf σ)

/-- **A branch** on the state. -/
theorem Paired.ite {c : Run → Prop} [DecidablePred c] (hf : Paired xs ys f) (hg : Paired xs ys g) :
    Paired xs ys fun zs σ => if c σ then f zs σ else g zs σ where
  grows zs hzs σ τ hτ := by
    split_ifs at hτ
    · exact hf.grows zs hzs σ τ hτ
    · exact hg.grows zs hzs σ τ hτ
  twin σ τ τ' hread hτ hτ' := by
    split_ifs at hτ hτ'
    · exact hf.twin σ τ τ' hread hτ hτ'
    · exact hg.twin σ τ τ' hread hτ hτ'

/-- **What depends on the state** in one more way. -/
theorem Paired.at {α : Type} {f : α → List Byte → Run → Chk Run} (hf : ∀ a, Paired xs ys (f a))
    (p : Run → α) : Paired xs ys fun zs σ => f (p σ) zs σ where
  grows zs hzs σ τ hτ := (hf (p σ)).grows zs hzs σ τ hτ
  twin σ τ τ' hread hτ hτ' := (hf (p σ)).twin σ τ τ' hread hτ hτ'

theorem Paired.pre (hf : Paired xs ys f) {p : Run → Run} (hp : ∀ σ, (p σ).steps = σ.steps) :
    Paired xs ys fun zs σ => f zs (p σ) where
  grows zs hzs σ τ hτ := hp σ ▸ hf.grows zs hzs (p σ) τ hτ
  twin σ τ τ' hread hτ hτ' := hf.twin (p σ) τ τ' (by rwa [hp]) hτ hτ'

/-- **A loop** over the lanes. -/
theorem Paired.foldlM {f : List Byte → Run → Fin 8 → Chk Run}
    (hf : ∀ i, Paired xs ys fun zs σ => f zs σ i) :
    ∀ is : List (Fin 8), Paired xs ys fun zs σ => is.foldlM (f zs) σ
  | [] => .of_silent fun _ => .of_steps rfl
  | i :: is => (hf i).comp (Paired.foldlM hf is)

/-- **A loop** over what is left. -/
theorem Paired.whileL (hf : Paired xs ys f) (d : ℤ) :
    ∀ fuel : ℕ, Paired xs ys fun zs σ => whileL d (f zs) fuel σ
  | 0 => { grows := by rintro zs hzs σ τ ⟨⟩, twin := by rintro σ τ τ' hread ⟨⟩ }
  | fuel + 1 => (hf.comp (Paired.whileL hf d fuel)).ite (.of_silent fun _ => .of_steps rfl)

/-- **One step with a load.** `P` says of a new step what it owes to the input. -/
theorem Paired.step {P : List Byte → Run → Step → Prop}
    (hstep : ∀ zs ∈ [xs, ys], ∀ σ τ, f zs σ = pure τ → ∃ x, τ.steps = σ.steps ++ [x] ∧ P zs σ x)
    (hsame : ∀ σ τ τ' x, f xs σ = pure τ → f ys σ = pure τ' → P xs σ x →
      Agree xs ys (reads x.hl) → τ = τ')
    (hdiff : ∀ σ x, P xs σ x → P ys σ x → Agree xs ys (reads x.hl)) : Paired xs ys f where
  grows zs hzs σ τ hτ := by
    obtain ⟨x, hx, -⟩ := hstep zs hzs σ τ hτ
    exact ⟨[x], hx.symm⟩
  twin σ τ τ' hread hτ hτ' := by
    obtain ⟨x, hx, hpx⟩ := hstep xs (by simp) σ τ hτ
    obtain ⟨y, hy, hpy⟩ := hstep ys (by simp) σ τ' hτ'
    refine Twin.push hread hx hy (hsame σ τ τ' x hτ hτ' hpx) fun hnot => ?_
    rintro rfl
    exact hnot (hdiff σ x hpx hpy)

theorem Paired.shown {A : List Byte → ℤ} (get : St → ℤ) (put : ℤ → Run → Run) {title : String}
    {hl : List Highlight} (hsteps : ∀ a σ, (put a σ).steps = σ.steps)
    (hget : ∀ a σ, get (put a σ).st = a) (hA : Agree xs ys (reads hl) ↔ A xs = A ys) :
    Paired xs ys fun zs σ => pure (Run.push (put (A zs) σ) title hl) := by
  refine .step (P := fun zs _ x => x.hl = hl ∧ get x.snap = A zs) ?_ ?_ ?_
  · intro zs _ σ τ hτ
    rw [← Except.ok.inj hτ]
    exact ⟨_, congrArg (· ++ _) (hsteps _ σ), rfl, hget _ _⟩
  · rintro σ τ τ' x hτ hτ' ⟨rfl, -⟩ hagree
    rw [hA.1 hagree] at hτ
    exact Except.ok.inj (hτ.symm.trans hτ')
  · rintro σ x ⟨rfl, hx⟩ ⟨-, hy⟩
    exact hA.2 (hx.symm.trans hy)

end Twins

/-! ### Loads -/

theorem byte_ok {zs : List Byte} {i a : ℤ} (h : byte (.all zs) i = pure a) :
    0 ≤ i ∧ i < zs.length := by
  obtain ⟨b, hb, -⟩ := eq_pure_of_bind h
  unfold View.get at hb
  split_ifs at hb with hin
  · exact hin
  · cases hb

theorem loadLoop_ok {zs : List Byte} {off : ℤ} : ∀ (k : ℕ) (v a : ℤ),
    loadLoop (.all zs) off k v = pure a → ∀ j : ℕ, j < k → 0 ≤ off + j ∧ off + j < zs.length := by
  intro k
  induction k with
  | zero => exact fun v a _ j hj => absurd hj (by omega)
  | succ k ih =>
    intro v a h j hj
    obtain ⟨b, hb, hrest⟩ := eq_pure_of_bind h
    obtain ⟨c, hc, hloop⟩ := eq_pure_of_bind hrest
    by_cases hjk : j = k
    · rw [hjk]
      exact byte_ok hb
    · exact ih c a hloop j (by omega)

/-- **What a load of eight bytes gives.** -/
theorem load64_ok {zs : List Byte} {off a : ℤ} (h : load64 (.all zs) off = pure a) :
    a = val (word64 (ofList zs) off) := by
  have hrange := loadLoop_ok 8 0 a h
  have hfirst := hrange 0 (by decide)
  have hlast := hrange 7 (by decide)
  rw [load64_big (by omega) (by omega)] at h
  exact (Except.ok.inj h).symm

section Words
variable {xs ys : List Byte} {off : ℤ}

theorem agree_word64 :
    Agree xs ys (between off (off + 8)) ↔ word64 (ofList xs) off = word64 (ofList ys) off := by
  constructor
  · exact fun h => word64_shift fun i h0 hi => h _ ⟨by omega, by omega⟩
  · exact fun h i hi => word64_inj h hi.1 hi.2

theorem agree_word32 :
    Agree xs ys (between off (off + 4)) ↔ word32 (ofList xs) off = word32 (ofList ys) off := by
  constructor
  · intro h
    unfold word32
    congr 1
    funext i
    exact h _ ⟨by omega, by omega⟩
  · exact fun h i hi => word32_inj h hi.1 hi.2

theorem agree_byte :
    Agree xs ys (between off (off + 1)) ↔ ofList xs off = ofList ys off := by
  constructor
  · exact fun h => h off ⟨le_rfl, by omega⟩
  · rintro h i ⟨h0, hi⟩
    obtain rfl : i = off := by omega
    exact h

end Words

/-! ### Steps with a load -/

theorem bits_ok {a : ℤ} {w : Word} (h : bits a = pure w) : a = val w := by
  unfold bits at h
  split_ifs at h with hrange
  · rw [← Except.ok.inj h, ← mask_eq, mask, Int.emod_eq_of_lt hrange.1 hrange.2]
  · cases h

theorem bxor_ok {a b c : ℤ} (h : bxor a b = pure c) :
    ∃ u w : Word, a = val u ∧ b = val w ∧ c = val (u ^^^ w) := by
  obtain ⟨u, hu, h⟩ := eq_pure_of_bind h
  obtain ⟨w, hw, h⟩ := eq_pure_of_bind h
  exact ⟨u, w, bits_ok hu, bits_ok hw, (Except.ok.inj h).symm⟩

/-- **A stripe**: the lane shows its value. -/
theorem stripe_ok {zs : List Byte} {off : ℤ} {li : Fin 8} {σ τ : Run}
    (h : stripe (.all zs) off li σ = pure τ) : ∃ x, τ.steps = σ.steps ++ [x] ∧
      reads x.hl = between off (off + 8) ∧ ∃ (u : Word) (r : ℤ), σ.st.h li = val u ∧
        rotl σ.wp 27 = pure r ∧
        x.snap.h li = val (mix u (word64 (ofList zs) off + .ofInt 64 r)) := by
  obtain ⟨w, hw, h⟩ := eq_pure_of_bind h
  obtain ⟨r, hr, h⟩ := eq_pure_of_bind h
  obtain ⟨b, hb, h⟩ := eq_pure_of_bind h
  obtain ⟨u, v, hu, hv, rfl⟩ := bxor_ok hb
  have hvalue : v = word64 (ofList zs) off + .ofInt 64 r := by
    rw [load64_ok hw, add, mask_eq, BitVec.ofInt_add, ofInt_val] at hv
    exact val_inj hv.symm
  rw [← Except.ok.inj h]
  refine ⟨_, rfl, reads_cons rfl (marks_ite (by rintro ⟨⟩)), u, r, hu, hr, ?_⟩
  show Function.update σ.st.h li _ li = _
  rw [Function.update_self, K_big, mul_big, hvalue, mix]

section Pairs
variable {xs ys : List Byte}

theorem load64_same {off : ℤ} {rest : ℤ → Chk Run} {τ τ' : Run}
    (hagree : Agree xs ys (between off (off + 8))) (h : load64 (.all xs) off >>= rest = pure τ)
    (h' : load64 (.all ys) off >>= rest = pure τ') : τ = τ' := by
  obtain ⟨w, hw, h⟩ := eq_pure_of_bind h
  obtain ⟨w', hw', h'⟩ := eq_pure_of_bind h'
  rw [load64_ok hw, agree_word64.1 hagree, ← load64_ok hw'] at h
  exact Except.ok.inj (h.symm.trans h')

theorem stripe_paired (off : ℤ) (li : Fin 8) : Paired xs ys fun zs => stripe (.all zs) off li := by
  refine .step (fun zs _ σ τ hτ => stripe_ok hτ) ?_ ?_
  · rintro σ τ τ' x hτ hτ' ⟨hreads, -⟩ hagree
    exact load64_same (hreads ▸ hagree) hτ hτ'
  · rintro σ x ⟨hreads, u, r, hu, hr, hx⟩ ⟨-, u', r', hu', hr', hy⟩
    rw [hreads, agree_word64]
    obtain rfl := val_inj (hu.symm.trans hu')
    obtain rfl := Except.ok.inj (hr.symm.trans hr')
    have hval := Spec.Reversal.mix_value_inj (val_inj (hx.symm.trans hy))
    exact (add_left_injective _) hval

/-- **A tail word**: the lane shows it. -/
theorem tailWord_ok {zs : List Byte} {off : ℤ} {li : Fin 8} {extraHl : List Highlight} {σ τ : Run}
    (hextra : ∀ r ∈ extraHl, r.cls ≠ .r) (h : tailWord (.all zs) off li extraHl σ = pure τ) :
    ∃ x, τ.steps = σ.steps ++ [x] ∧ reads x.hl = between off (off + 8) ∧
      x.snap.h li = val (mixTail (.ofInt 64 (σ.st.h li)) (word64 (ofList zs) off)) := by
  obtain ⟨w, hw, h⟩ := eq_pure_of_bind h
  rw [load64_ok hw, inj_big] at h
  rw [← Except.ok.inj h]
  refine ⟨_, rfl, reads_cons rfl hextra, ?_⟩
  show Function.update σ.st.h li _ li = _
  rw [Function.update_self, add, mask_eq, BitVec.ofInt_add, ofInt_val, K_big, mul_big, mixTail]

theorem tailWord_paired (off : ℤ) (li : Fin 8) {extraHl : List Highlight}
    (hextra : ∀ r ∈ extraHl, r.cls ≠ .r) :
    Paired xs ys fun zs => tailWord (.all zs) off li extraHl := by
  refine .step (fun zs _ σ τ hτ => tailWord_ok hextra hτ) ?_ ?_
  · rintro σ τ τ' x hτ hτ' ⟨hreads, -⟩ hagree
    exact load64_same (hreads ▸ hagree) hτ hτ'
  · rintro σ x ⟨hreads, hx⟩ ⟨-, hy⟩
    rw [hreads, agree_word64]
    exact Spec.Reversal.mixTail_word_inj (val_inj (hx.symm.trans hy))

theorem ovHl_marks_not_read (σ : Run) (off : ℤ) : ∀ r ∈ ovHl σ off, r.cls ≠ .r :=
  marks_ite (by rintro ⟨⟩)

theorem tailHead_paired : Paired xs ys fun zs => tailHead (.all zs) := by
  have hnone : ∀ r ∈ ([] : List Highlight), r.cls ≠ .r := by rintro r ⟨⟩
  refine .ite (.comp ?_ ?_) (.of_silent fun _ => .of_steps rfl)
  · exact .at (fun p => tailWord_paired p 0 hnone) Run.p
  · exact .at (fun p => tailWord_paired (p + 8) 1 hnone) Run.p

theorem tail_paired (len : ℤ) : Paired xs ys fun zs => tail (.all zs) len := by
  refine .comp tailHead_paired (.ite (.comp ?_ ?_) (.of_silent fun _ => .of_steps rfl))
  · exact .at (fun σ => tailWord_paired (len - 16) 2 (ovHl_marks_not_read σ _)) id
  · exact .at (fun σ => tailWord_paired (len - 8) 3 (ovHl_marks_not_read σ _)) id

/-! ### The long path -/

theorem stripes_paired (is : List (Fin 8)) : Paired xs ys fun zs => stripes (.all zs) is :=
  .at (fun p => .foldlM (fun i => stripe_paired (p + 8 * i.val) i) is) Run.p

theorem blockStep_paired : Paired xs ys fun zs => blockStep (.all zs) := by
  have hblock : Paired xs ys fun zs σ => stripes (.all zs) [0, 1, 2, 3, 4, 5, 6, 7] σ >>= fun σ =>
      pure { push (σ.setLane 0 (add (σ.st.h 0) σ.wp)) s!"checkpoint (block {σ.block})"
        [⟨σ.wpOff, 8, .p⟩] with p := σ.p + 64, l := σ.l - 64 } :=
    (stripes_paired _).comp (.of_silent fun _ => silent_previous rfl rfl)
  exact hblock.pre (p := fun σ => { σ with block := σ.block + 1 }) fun _ => rfl

theorem roundStep_paired : Paired xs ys fun zs => roundStep (.all zs) :=
  (stripes_paired _).comp (.of_silent fun _ => .of_steps rfl)

theorem bulkWalk_paired (len : ℤ) (bulk : Bool) :
    Paired xs ys fun zs => bulkWalk (.all zs) len bulk := by
  have hloop : Paired xs ys fun zs σ =>
      whileL 64 (blockStep (.all zs)) (len.toNat + 1) { σ with block := 0 } >>= laneFold :=
    ((blockStep_paired.whileL 64 _).pre (p := fun σ => { σ with block := 0 }) fun _ => rfl).comp
      (.of_quiet laneFold_quiet)
  exact hloop.ite (c := fun _ => bulk) (.of_silent fun _ => .of_steps rfl)

theorem buildLong_paired (len s : ℤ) (bulk : Bool) :
    Paired xs ys fun zs => buildLong (.all zs) len s bulk := by
  refine .comp (.of_quiet (laneInit_quiet s bulk)) ?_
  refine .comp ((bulkWalk_paired len bulk).pre (p := fun σ =>
    { σ with wp := 0, wpOff := -1, p := 0, l := len, stripeNo := 0 }) fun _ => rfl) ?_
  refine .comp (roundStep_paired.whileL 32 _) ?_
  refine .comp (.of_quiet wall_quiet) ?_
  exact .comp (tail_paired len) (.of_quiet (finish_quiet s))

end Pairs

/-! ### The short path -/

/-- The two steps of a short key. -/
def shownTwice (a b d n : ℤ) (hl hl' : List Highlight) (σ : Run) : Run :=
  let σ := push { σ with st := { σ.st with a }, done := d } "load a" hl
  push { σ with st := { σ.st with b }, done := n } "load b" hl'

section Short
variable {xs ys : List Byte}

theorem shownTwice_paired {A B : List Byte → ℤ} (d n : ℤ) {hl hl' : List Highlight}
    (hA : Agree xs ys (reads hl) ↔ A xs = A ys) (hB : Agree xs ys (reads hl') ↔ B xs = B ys) :
    Paired xs ys fun zs σ => pure (shownTwice (A zs) (B zs) d n hl hl' σ) :=
  .comp
    (.shown St.a (fun a σ => { σ with st := { σ.st with a }, done := d }) (fun _ _ => rfl)
      (fun _ _ => rfl) hA)
    (.shown St.b (fun b σ => { σ with st := { σ.st with b }, done := n }) (fun _ _ => rfl)
      (fun _ _ => rfl) hB)

theorem val_eq_iff {x y : Word} : val x = val y ↔ x = y := ⟨val_inj, congrArg val⟩

/-- **The loads of a short key**, each shown by its step. -/
theorem shortLoads_shown {n : ℕ} (hpos : 0 < n) :
    ∃ (d : ℤ) (hl hl' : List Highlight) (A B : List Byte → ℤ),
      (∀ zs : List Byte, zs.length = n → ∀ σ, shortLoads (.all zs) n σ =
        pure (A zs, B zs, shownTwice (A zs) (B zs) d n hl hl' σ)) ∧
      ∀ xs ys, (Agree xs ys (reads hl) ↔ A xs = A ys) ∧
      (Agree xs ys (reads hl') ↔ B xs = B ys) := by
  unfold shortLoads
  by_cases h8 : 8 ≤ n
  · refine ⟨8, [⟨0, 8, .r⟩], ⟨n - 8, 8, .r⟩ :: (if max 0 (16 - (n : ℤ)) > 0 then
      [⟨n - 8, max 0 (16 - n), .o⟩] else []), fun zs => val (word64 (ofList zs) 0), fun zs =>
      val (word64 (ofList zs) (n - 8)),
      fun zs hzs σ => ?_, fun xs ys => ⟨?_, ?_⟩⟩
    · rw [if_pos (by omega), load64_big le_rfl (by omega), pure_bind,
        load64_big (by omega) (by omega), pure_bind]
      rfl
    · rw [reads_one, agree_word64, val_eq_iff]
    · rw [reads_again, agree_word64, val_eq_iff]
  by_cases h4 : 4 ≤ n
  · refine ⟨4, [⟨0, 4, .r⟩], ⟨n - 4, 4, .r⟩ :: (if 8 - (n : ℤ) > 0 then
      [⟨n - 4, 8 - n, .o⟩] else []), fun zs => val ((word32 (ofList zs) 0).setWidth 64),
      fun zs => val ((word32 (ofList zs) (n - 4)).setWidth 64), fun zs hzs σ => ?_,
      fun xs ys => ⟨?_, ?_⟩⟩
    · rw [if_neg (by omega), if_pos (by omega), load32_big le_rfl (by omega), pure_bind,
        load32_big (by omega) (by omega), pure_bind]
      rfl
    · rw [reads_one, agree_word32, val_eq_iff]
      exact ⟨congrArg _, setWidth_inj (by decide)⟩
    · rw [reads_again, agree_word32, val_eq_iff]
      exact ⟨congrArg _, setWidth_inj (by decide)⟩
  · refine ⟨1, [⟨0, 1, .r⟩], [⟨n / 2, 1, .r⟩, ⟨n - 1, 1, .r⟩], fun zs =>
      val ((ofList zs 0).setWidth 64),
      fun zs => val (((ofList zs (n / 2)).setWidth 64 <<< 8) |||
        ((ofList zs (n - 1)).setWidth 64 <<< 16)), fun zs hzs σ => ?_, fun xs ys => ⟨?_, ?_⟩⟩
    · rw [if_neg (by omega), if_neg (by omega), if_pos (by omega), byte_big le_rfl (by omega),
        pure_bind, byte_big (by omega) (by omega), pure_bind, byte_big (by omega) (by omega),
        pure_bind, val_shl_byte _ (by decide), val_shl_byte _ (by decide), bor_val, pure_bind]
      rfl
    · rw [reads_one, agree_byte, val_eq_iff]
      exact ⟨congrArg _, setWidth_inj (by decide)⟩
    · rw [reads_two, agree_union, agree_byte, agree_byte, val_eq_iff]
      constructor
      · rintro ⟨hmid, hlast⟩
        rw [hmid, hlast]
      · exact packed_inj

theorem buildShort_rest (len s lenmix : ℤ) : ∃ rest : ℤ × ℤ × Run → Chk Run,
    (∀ bytes σ, buildShort bytes len s lenmix σ = shortLoads bytes len σ >>= rest) ∧
      ∀ r, Quiet r.2.2 (rest r) := by
  refine ⟨_, fun _ _ => rfl, ?_⟩
  rintro ⟨a, b, σ⟩
  iterate 11 refine .val fun _ => ?_
  refine ((finalize_quiet _ _ _ _ _ _).after ?_).bind fun σ => .val fun _ => ?_
  · exact (((Silent.of_steps rfl).set _ _).set _ _).set _ _
  · refine (finishHigh_quiet _ _).bind fun σ => ?_
    exact .pure ((Silent.of_steps rfl).push _ (by rintro r ⟨⟩))

theorem Paired.congr {f g : List Byte → Run → Chk Run} (hf : Paired xs ys f)
    (h : ∀ zs ∈ [xs, ys], g zs = f zs) : Paired xs ys g where
  grows zs hzs σ τ hτ := hf.grows zs hzs σ τ (h zs hzs ▸ hτ)
  twin σ τ τ' hread hτ hτ' :=
    hf.twin σ τ τ' hread (h xs (by simp) ▸ hτ) (h ys (by simp) ▸ hτ')

theorem buildShort_paired {n : ℕ} (hx : xs.length = n) (hy : ys.length = n) (s lenmix : ℤ) :
    Paired xs ys fun zs => buildShort (.all zs) n s lenmix := by
  obtain ⟨rest, hrest, hquiet⟩ := buildShort_rest n s lenmix
  have hlen : ∀ zs ∈ [xs, ys], zs.length = n := by
    simp [hx, hy]
  by_cases hpos : 0 < n
  · obtain ⟨d, hl, hl', A, B, hloads, hread⟩ := shortLoads_shown hpos
    have hsteps : Paired xs ys fun zs σ => pure (shownTwice (A zs) (B zs) d n hl hl' σ) >>=
        fun σ => rest (σ.st.a, σ.st.b, σ) :=
      (shownTwice_paired d n (hread xs ys).1 (hread xs ys).2).comp
        (.of_quiet fun σ => hquiet (σ.st.a, σ.st.b, σ))
    refine hsteps.congr fun zs hzs => funext fun σ => ?_
    rw [hrest, hloads zs (hlen zs hzs)]
    rfl
  · obtain rfl : n = 0 := by omega
    have hnone : Paired xs ys fun _ σ =>
      rest (0, 0, σ.set "load a, b" ({ · with a := 0, b := 0 })) :=
      .of_quiet fun σ => (hquiet _).after ((Silent.of_steps rfl).set _ _)
    refine hnone.congr fun zs _ => funext fun σ => ?_
    rw [hrest]
    rfl

end Short

/-! ### Main result -/

section Built
variable {xs ys : List Byte}

/-- **Twins, step by step**: their first `k` steps are the same if and only if the inputs agree on
what these mark as read. -/
theorem Twin.take {σ τ : Run} (h : Twin xs ys σ τ) (k : ℕ) :
    σ.steps.take k = τ.steps.take k ↔ Agree xs ys (loaded (σ.steps.take k)) := by
  rcases h with ⟨rfl, hread⟩ | ⟨before, x, y, ⟨rest, hx⟩, ⟨rest', hy⟩, hne, hread, hdiff⟩
  · exact iff_of_true rfl fun i hi => hread i (loaded_mono (List.take_subset k _) hi)
  rw [← hx, ← hy]
  by_cases hk : k ≤ before.length
  · rw [List.append_assoc, List.append_assoc, List.take_append_of_le_length hk,
      List.take_append_of_le_length hk]
    exact iff_of_true rfl fun i hi => hread i (loaded_mono (List.take_subset k _) hi)
  · have hat : ∀ z rest, ((before ++ [z] ++ rest).take k)[before.length]? = some (z : Step) := by
      intro z rest
      rw [List.getElem?_take_of_lt (by omega)]
      simp
    refine iff_of_false (fun heq => hne ?_) fun hagree => hdiff fun i hi => ?_
    · have hsame := congrArg (·[before.length]?) heq
      simp only [hat, Option.some.injEq] at hsame
      exact hsame
    · exact hagree i ⟨x, List.mem_of_getElem? (hat x rest), hi⟩

theorem agree_premix {σ : Run} {st : St} (hσ : σ.steps = [⟨"premix", [], 0, st⟩]) :
    Agree xs ys (loaded σ.steps) := by
  rw [hσ, loaded_singleton, reads_of_marks (by rintro r ⟨⟩)]
  rintro i ⟨⟩

variable {seedIn : ℤ} {r r' : Built}

/-- **The runs of `buildSteps`** on two inputs of one length. -/
theorem buildSteps_twin (hlen : xs.length = ys.length) (hr : buildSteps (.all xs) seedIn = pure r)
    (hr' : buildSteps (.all ys) seedIn = pure r') : r.path = r'.path ∧
      ∃ σ τ, Twin xs ys σ τ ∧ r.steps = σ.steps ∧ r'.steps = τ.steps := by
  have hys : (View.all ys).len = (View.all xs).len := congrArg Nat.cast hlen.symm
  unfold buildSteps at hr hr'
  rw [hys] at hr'
  dsimp only at hr hr'
  obtain ⟨s, hs, hr⟩ := eq_pure_of_bind hr
  obtain ⟨s', hs', hr'⟩ := eq_pure_of_bind hr'
  obtain rfl := Except.ok.inj (hs.symm.trans hs')
  by_cases h16 : (View.all xs).len ≤ 16
  · rw [if_pos h16] at hr hr'
    obtain ⟨σ, hσ, hr⟩ := eq_pure_of_bind hr
    obtain ⟨τ, hτ, hr'⟩ := eq_pure_of_bind hr'
    rw [← Except.ok.inj hr, ← Except.ok.inj hr']
    exact ⟨rfl, σ, τ, (buildShort_paired rfl hlen.symm _ _).twin _ σ τ (agree_premix rfl) hσ hτ,
      rfl, rfl⟩
  · rw [if_neg h16] at hr hr'
    obtain ⟨σ, hσ, hr⟩ := eq_pure_of_bind hr
    obtain ⟨τ, hτ, hr'⟩ := eq_pure_of_bind hr'
    rw [← Except.ok.inj hr, ← Except.ok.inj hr']
    exact ⟨rfl, σ, τ, (buildLong_paired _ _ _).twin _ σ τ (agree_premix rfl) hσ hτ, rfl, rfl⟩

/-- **The marks are the loads.** Two inputs of one length take one path, and the first `k` steps,
with their titles, marks and states, are the same for both if and only if the inputs agree on every
byte that these steps mark as read. -/
theorem steps_marks (hlen : xs.length = ys.length) (hr : buildSteps (.all xs) seedIn = pure r)
    (hr' : buildSteps (.all ys) seedIn = pure r') : r.path = r'.path ∧
      ∀ k, r.steps.take k = r'.steps.take k ↔
        ∀ i ∈ loaded (r.steps.take k), ofList xs i = ofList ys i := by
  obtain ⟨hpath, σ, τ, htwin, hσ, hτ⟩ := buildSteps_twin hlen hr hr'
  refine ⟨hpath, fun k => ?_⟩
  rw [hσ, hτ]
  exact htwin.take k

end Built

end Hayahash.Refine.Marks
