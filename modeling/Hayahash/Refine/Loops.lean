import Hayahash.Refine.Pieces
import Hayahash.Spec.Stripes

/-! # The loops of the code are the recursions of the reference

Every bulk loop, from `p` on with `l` bytes left, runs `l / 64` blocks and leaves `l % 64` bytes;
every mid loop runs `l / 32` rounds and leaves `l % 32`. The loops that stop on `p != pe` hit `pe`.
A block may be spelled in any state `σ` that embeds the lanes: `BlockRuns` is all the loops need. -/

namespace Hayahash.Refine.Loops

open Hayahash.Lib.ReadProg Hayahash.Lib.Bytes Hayahash.Lib.Walk Hayahash.C.Primitives
open Hayahash.C.Walk Hayahash.Spec.Reference Hayahash.Spec.Stripes Hayahash.Refine.Pieces

variable (t : Target) {m : Mem Byte}

/-! ### Bulk loops -/

section Bulk
variable {σ : Type} (m) (emb : Lanes8 × Word → σ)

/-- `block` runs one block, in the spelling `emb` of the state. -/
def BlockRuns (block : ℤ → σ → Code σ) : Prop :=
  ∀ q s, Runs m (block q (emb s)) (emb (blockStep m q s)) (stripeSpans 8 q) (stripeEvents m 8 q s.2)

/-- `x` runs the blocks of `l` bytes from `p` on. -/
def BlocksRun (x : Code (σ × ℤ × ℤ)) (p : ℤ) (l : ℕ) (s : Lanes8 × Word) : Prop :=
  Runs m x (emb (blocks m (l / 64) p s), p + 64 * (l / 64 : ℕ), (l % 64 : ℕ))
    (stripeSpans (8 * (l / 64)) p) (stripeEvents m (8 * (l / 64)) p s.2)

variable {m emb} {block : ℤ → σ → Code σ}

theorem blockRuns_bulkBlock : BlockRuns m id (bulkBlock t) :=
  fun q s => .of_exec (exec_bulkBlock t q s)

theorem blockRuns_bulkBlockVec : BlockRuns m (fun s => (.ofLanes s.1, s.2)) (bulkBlockVec t) :=
  runs_bulkBlockVec t

theorem runs_blocks_succ {α : Type} {f : σ → Code α} {a : α} {k : ℕ} {p : ℤ} {s : Lanes8 × Word}
    (hb : BlockRuns m emb block)
    (hf : Runs m (f (emb (blockStep m p s))) a (stripeSpans (8 * k) (p + 64))
      (stripeEvents m (8 * k) (p + 64) (blockStep m p s).2)) :
    Runs m (block p (emb s) >>= f) a (stripeSpans (8 * (1 + k)) p)
      (stripeEvents m (8 * (1 + k)) p s.2) := by
  refine (hb p s).bind_eq hf ?_ ?_
  · simpa using stripeSpans_mul (d := 64) rfl 1 k p
  · simpa [blocks_succ, blocks, walk_zero, walk_succ] using stripeEvents_blocks (m := m) 1 k p s

/-- **The end-pointer loop stops exactly at `pe`**, after `k + 1` pairs of blocks. -/
theorem runs_twoBlockLoop (hb : BlockRuns m emb block) (k : ℕ) : ∀ (fuel : ℕ) (p pe : ℤ)
    (s : Lanes8 × Word), k < fuel → pe = p + 128 * (k + 1 : ℕ) →
    Runs m (twoBlockLoop block pe fuel p (emb s)) (emb (blocks m (2 * (k + 1)) p s), pe)
      (stripeSpans (8 * (2 * (k + 1))) p) (stripeEvents m (8 * (2 * (k + 1))) p s.2) := by
  induction k with
  | zero =>
    intro fuel p pe s hfuel hpe
    obtain ⟨fuel, rfl⟩ : ∃ f, fuel = f + 1 := ⟨fuel - 1, by omega⟩
    rw [twoBlockLoop]
    refine runs_blocks_succ (k := 1) hb (runs_blocks_succ (k := 0) hb ?_)
    rw [if_neg (by omega), ← hpe.trans (by push_cast; omega : _ = p + 128)]
    exact .pure _
  | succ k ih =>
    intro fuel p pe s hfuel hpe
    obtain ⟨fuel, rfl⟩ : ∃ f, fuel = f + 1 := ⟨fuel - 1, by omega⟩
    have hpe' : pe = p + 128 + 128 * (k + 1 : ℕ) := by
      push_cast at hpe ⊢
      omega
    have hrest := ih fuel (p + 128) pe (blockStep m (p + 64) (blockStep m p s)) (by omega) hpe'
    have hk : 2 * (k + 1 + 1) = 1 + (1 + 2 * (k + 1)) := by omega
    have hk' : 1 + (1 + 2 * (k + 1)) = 2 * (k + 1) + 1 + 1 := by omega
    have hp : p + 64 + 64 = p + 128 := by omega
    rw [twoBlockLoop, hk]
    refine runs_blocks_succ hb (runs_blocks_succ hb ?_)
    rw [if_pos (by omega), hk', blocks_succ, blocks_succ, hp]
    exact hrest

theorem blocksRun_twoBlockBulk (hb : BlockRuns m emb block) (p : ℤ) (l : ℕ) (hl : 128 ≤ l)
    (s : Lanes8 × Word) : BlocksRun m emb (twoBlockBulk block p l (emb s)) p l s := by
  obtain ⟨k, hk⟩ : ∃ k, l / 128 = k + 1 := ⟨l / 128 - 1, by omega⟩
  have hpe : p + (l - l % 128 : ℤ) = p + 128 * (k + 1 : ℕ) := by
    push_cast
    omega
  have hloop := runs_twoBlockLoop hb k l p (p + (l - l % 128)) s (by omega) hpe
  rw [BlocksRun, twoBlockBulk]
  by_cases hr : 64 ≤ l % 128
  · -- a block is left over
    have hd : l / 64 = 2 * (k + 1) + 1 := by omega
    rw [hd]
    refine hloop.bind_eq ?_ (stripeSpans_mul rfl (2 * (k + 1)) 1 p)
      (stripeEvents_blocks (2 * (k + 1)) 1 p s)
    have hp : p + (l - l % 128 : ℤ) = p + 64 * (2 * (k + 1) : ℕ) := by
      push_cast
      omega
    show Runs m (if _ then _ else _) _ _ _
    rw [if_pos (by omega), hp, blocks_add, blocks_succ]
    refine (hb _ _).bind_pure (congrArg pure (Prod.ext rfl (Prod.ext ?_ ?_)))
    · push_cast
      omega
    · push_cast
      omega
  · have hd : l / 64 = 2 * (k + 1) := by omega
    rw [hd]
    refine hloop.bind_pure ((if_neg (by omega)).trans
      (congrArg pure (Prod.ext rfl (Prod.ext ?_ ?_))))
    · push_cast
      omega
    · push_cast
      omega

theorem blocksRun_done (p : ℤ) (l : ℕ) (hl : l < 64) (s : Lanes8 × Word) :
    BlocksRun m emb (pure (emb s, p, (l : ℤ))) p l s := by
  have hd : l / 64 = 0 := by omega
  have hr : l % 64 = l := by omega
  rw [BlocksRun, hd, hr]
  simpa [blocks, walk_zero, stripeSpans, stripeEvents] using Runs.pure _

theorem blocksRun_step (hb : BlockRuns m emb block) {f : σ → Code (σ × ℤ × ℤ)} {p : ℤ} {l : ℕ}
    {s : Lanes8 × Word}
    (hf : BlocksRun m emb (f (emb (blockStep m p s))) (p + 64) l (blockStep m p s)) :
    BlocksRun m emb (block p (emb s) >>= f) p (l + 64) s := by
  have hd : (l + 64) / 64 = 1 + l / 64 := by omega
  have hr : (l + 64) % 64 = l % 64 := by omega
  have hp : p + 64 * ((l / 64 + 1 : ℕ) : ℤ) = p + 64 + 64 * (l / 64 : ℕ) := by
    push_cast
    omega
  rw [BlocksRun, hd, hr]
  refine runs_blocks_succ hb ?_
  rw [add_comm 1, blocks_succ, hp]
  exact hf

theorem blocksRun_oneBlockBulk (hb : BlockRuns m emb block) (l : ℕ) : ∀ (p : ℤ)
    (s : Lanes8 × Word), 64 ≤ l → BlocksRun m emb (oneBlockBulk block p l (emb s)) p l s := by
  induction l using Nat.strongRecOn with
  | _ l ih =>
    intro p s hl
    obtain ⟨l, rfl⟩ : ∃ r, l = r + 64 := ⟨l - 64, by omega⟩
    have hsub : ((l + 64 : ℕ) : ℤ) - 64 = l := by
      push_cast
      omega
    rw [oneBlockBulk, hsub]
    refine blocksRun_step hb ?_
    by_cases h : 64 ≤ l
    · rw [if_pos (by omega)]
      exact ih l (by omega) _ _ h
    · rw [if_neg (by omega)]
      exact blocksRun_done _ l (by omega) _

theorem blocksRun_whileBlocks (hb : BlockRuns m emb block) (l : ℕ) : ∀ (p : ℤ)
    (s : Lanes8 × Word), BlocksRun m emb (whileBlocks block p l (emb s)) p l s := by
  induction l using Nat.strongRecOn with
  | _ l ih =>
    intro p s
    rw [whileBlocks]
    by_cases hl : 64 ≤ l
    · obtain ⟨l, rfl⟩ : ∃ r, l = r + 64 := ⟨l - 64, by omega⟩
      have hsub : ((l + 64 : ℕ) : ℤ) - 64 = l := by
        push_cast
        omega
      rw [if_pos (by omega), hsub]
      exact blocksRun_step hb (ih l (by omega) _ _)
    · rw [if_neg (by omega)]
      exact blocksRun_done _ l (by omega) _

/-- **The loop `while (p != pe)` stops exactly at `pe`**, if that is `k` blocks away. -/
theorem runs_untilEnd (hb : BlockRuns m emb block) (k : ℕ) : ∀ (fuel : ℕ) (p pe : ℤ)
    (s : Lanes8 × Word), k ≤ fuel → pe = p + 64 * (k : ℕ) →
    Runs m (untilEnd block pe fuel p (emb s)) (emb (blocks m k p s))
      (stripeSpans (8 * k) p) (stripeEvents m (8 * k) p s.2) := by
  induction k with
  | zero =>
    intro fuel p pe s _ hpe
    have hp : ¬p ≠ pe := by simp [hpe]
    cases fuel with
    | zero =>
      rw [untilEnd, if_neg hp]
      exact .pure _
    | succ fuel =>
      rw [untilEnd, if_neg hp]
      exact .pure _
  | succ k ih =>
    intro fuel p pe s hfuel hpe
    obtain ⟨fuel, rfl⟩ : ∃ f, fuel = f + 1 := ⟨fuel - 1, by omega⟩
    have hpe' : pe = p + 64 + 64 * (k : ℕ) := by
      push_cast at hpe
      omega
    rw [untilEnd, if_pos (by omega), Nat.add_comm k 1]
    refine runs_blocks_succ hb ?_
    rw [Nat.add_comm 1 k, blocks_succ]
    exact ih fuel (p + 64) pe _ (by omega) hpe'

/-- **The bulk loop of the outlined paths**, on every platform. -/
theorem blocksRun_outlinedBulk (p : ℤ) (l : ℕ) (hl : 128 ≤ l) (s : Lanes8 × Word) :
    BlocksRun m id (outlinedBulk t p l s) p l s := by
  unfold outlinedBulk
  by_cases h2 : t.twoBlock
  · rw [if_pos h2]
    by_cases hv : t.vecgcc
    · rw [if_pos hv]
      exact (blocksRun_twoBlockBulk (blockRuns_bulkBlockVec t) p l hl s).bind_pure rfl
    · rw [if_neg hv]
      exact blocksRun_twoBlockBulk (blockRuns_bulkBlock t) p l hl s
  · rw [if_neg h2]
    exact blocksRun_oneBlockBulk (blockRuns_bulkBlock t) l p s (by omega)

end Bulk

/-! ### Mid loops -/

section Mid

/-- `x` runs the rounds of `l` bytes from `p` on. -/
def RoundsRun (m : Mem Byte) (x : Code ((Lanes4 × Word) × ℤ × ℤ)) (p : ℤ) (l : ℕ)
    (s : Lanes4 × Word) : Prop :=
  Runs m x (rounds m (l / 32) p s, p + 32 * (l / 32 : ℕ), (l % 32 : ℕ))
    (stripeSpans (4 * (l / 32)) p) (stripeEvents m (4 * (l / 32)) p s.2)

theorem roundsRun_done (p : ℤ) (l : ℕ) (hl : l < 32) (s : Lanes4 × Word) :
    RoundsRun m (pure (s, p, (l : ℤ))) p l s := by
  have hd : l / 32 = 0 := by omega
  have hr : l % 32 = l := by omega
  rw [RoundsRun, hd, hr]
  simpa [rounds, walk_zero, stripeSpans, stripeEvents] using Runs.pure _

theorem roundsRun_after {x : Code (Lanes4 × Word)} {f : Lanes4 × Word → Code _} {p : ℤ} {k l : ℕ}
    {s : Lanes4 × Word} (hx : Runs m x (rounds m k p s) (stripeSpans (4 * k) p)
      (stripeEvents m (4 * k) p s.2))
    (hf : RoundsRun m (f (rounds m k p s)) (p + 32 * k) l (rounds m k p s)) :
    RoundsRun m (x >>= f) p (l + 32 * k) s := by
  have hd : (l + 32 * k) / 32 = k + l / 32 := by omega
  have hr : (l + 32 * k) % 32 = l % 32 := by omega
  have hp : p + 32 * ((k + l / 32 : ℕ) : ℤ) = p + 32 * k + 32 * (l / 32 : ℕ) := by
    push_cast
    omega
  rw [RoundsRun, hd, hr, rounds_add, hp]
  exact hx.bind_eq hf (stripeSpans_mul rfl k _ p) (stripeEvents_rounds k _ p s)

theorem runs_midRound (p : ℤ) (s : Lanes4 × Word) :
    Runs m (midRound t p s) (rounds m 1 p s) (stripeSpans (4 * 1) p)
      (stripeEvents m (4 * 1) p s.2) :=
  .of_exec (exec_midRound t p s)

theorem roundsRun_midIf (p : ℤ) (l : ℕ) (hl : l < 64) (s : Lanes4 × Word) :
    RoundsRun m (midIf t p l s) p l s := by
  rw [midIf]
  by_cases h : 32 ≤ l
  · obtain ⟨l, rfl⟩ : ∃ r, l = r + 32 * 1 := ⟨l - 32, by omega⟩
    have hsub : ((l + 32 * 1 : ℕ) : ℤ) - 32 = l := by
      push_cast
      omega
    rw [if_pos (by omega), hsub]
    exact roundsRun_after (runs_midRound t p s) (roundsRun_done _ l (by omega) _)
  · rw [if_neg (by omega)]
    exact roundsRun_done p l (by omega) s

theorem roundsRun_midLoop (l : ℕ) : ∀ (p : ℤ) (s : Lanes4 × Word),
    RoundsRun m (midLoop t p l s) p l s := by
  induction l using Nat.strongRecOn with
  | _ l ih =>
    intro p s
    rw [midLoop]
    by_cases h : 32 ≤ l
    · obtain ⟨l, rfl⟩ : ∃ r, l = r + 32 * 1 := ⟨l - 32, by omega⟩
      have hsub : ((l + 32 * 1 : ℕ) : ℤ) - 32 = l := by
        push_cast
        omega
      rw [if_pos (by omega), hsub]
      exact roundsRun_after (runs_midRound t p s) (ih l (by omega) _ _)
    · rw [if_neg (by omega)]
      exact roundsRun_done p l (by omega) s

/-- **The mid loop of two rounds**, and the round it may leave. -/
theorem roundsRun_midLoop64 (l : ℕ) : ∀ (p : ℤ) (s : Lanes4 × Word),
    RoundsRun m (do let (s, p, l) ← midLoop64 t p l s; midIf t p l s) p l s := by
  induction l using Nat.strongRecOn with
  | _ l ih =>
    intro p s
    rw [midLoop64]
    by_cases h : 64 ≤ l
    · obtain ⟨l, rfl⟩ : ∃ r, l = r + 32 * 1 + 32 * 1 := ⟨l - 64, by omega⟩
      have hsub : ((l + 32 * 1 + 32 * 1 : ℕ) : ℤ) - 64 = l := by
        push_cast
        omega
      have hp : p + 32 * (1 : ℕ) + 32 * (1 : ℕ) = p + 64 := by
        push_cast
        omega
      rw [if_pos (by omega), hsub, bind_assoc]
      refine roundsRun_after (runs_midRound t p s) ?_
      rw [bind_assoc]
      refine roundsRun_after (runs_midRound t _ _) ?_
      rw [hp]
      exact ih l (by omega) _ _
    · rw [if_neg (by omega), pure_bind]
      exact roundsRun_midIf t p l (by omega) s

end Mid

/-! ### Blocks, then at most one round -/

section Both
variable {σ : Type} {emb : Lanes8 × Word → σ} {l : ℕ}

theorem BlocksRun.from_start {x : Code (σ × ℤ × ℤ)} {s : Lanes8 × Word}
    (hx : BlocksRun m emb x 0 l s) :
    Runs m x (emb (blocks m (l / 64) 0 s), (64 * (l / 64) : ℕ), (l % 64 : ℕ))
      (stripeSpans (8 * (l / 64)) 0) (stripeEvents m (8 * (l / 64)) 0 s.2) := by
  have hp : (0 : ℤ) + 64 * (l / 64 : ℕ) = (64 * (l / 64) : ℕ) := by
    push_cast
    omega
  rwa [BlocksRun, hp] at hx

theorem RoundsRun.after_blocks {x : Code ((Lanes4 × Word) × ℤ × ℤ)} {s : Lanes4 × Word}
    (hx : RoundsRun m x (64 * (l / 64) : ℕ) (l % 64) s) :
    Runs m x (rounds m (l % 64 / 32) (64 * (l / 64) : ℕ) s, (32 * (l / 32) : ℕ), (l % 32 : ℕ))
      (stripeSpans (4 * (l % 64 / 32)) (64 * (l / 64) : ℕ))
      (stripeEvents m (4 * (l % 64 / 32)) (64 * (l / 64) : ℕ) s.2) := by
  have hr : l % 64 % 32 = l % 32 := by omega
  have hp : ((64 * (l / 64) : ℕ) : ℤ) + 32 * (l % 64 / 32 : ℕ) = (32 * (l / 32) : ℕ) := by
    push_cast
    omega
  rwa [RoundsRun, hr, hp] at hx

end Both

end Hayahash.Refine.Loops
