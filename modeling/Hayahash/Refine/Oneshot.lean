import Hayahash.Refine.Ends
import Hayahash.Spec.Replay

/-! # The one-shot functions run as the reference says

**`runs_hayahash64`** and **`runs_hayahash128`**: on every platform, for every key and seed, the
value, the loaded ranges and the observations are those of `Spec.Reference`. The long paths are read
as a walk up to the wall (`WalkRun`) and the close after it, for either finalizer. The observations
say all that enters the lanes: the digests can be replayed from them (`value_replay`). -/

namespace Hayahash.Refine.Oneshot

open Hayahash.Lib.ReadProg Hayahash.Lib.Bytes Hayahash.Lib.Walk Hayahash.C.Primitives
open Hayahash.C.Walk Hayahash.C.Oneshot Hayahash.Spec.Reference Hayahash.Spec.Stripes
open Hayahash.Spec.Observe Hayahash.Spec.Replay Hayahash.Refine.Loops Hayahash.Refine.Ends

variable (t : Target) {m : Mem Byte} {n : ℕ} {s : Word}

/-! ### The walk up to the wall -/

/-- `x` leaves the lanes and the last word before the wall, and what is left of the key. -/
def WalkRun (m : Mem Byte) (n : ℕ) (s : Word) (x : Code ((Lanes4 × Word) × ℤ × ℤ)) : Prop :=
  Runs m x (walkState m n s, (32 * (n / 32) : ℕ), (n % 32 : ℕ)) (stripeSpans (4 * (n / 32)) 0)
    (walkTrace m n s)

theorem walkRun_mid (hn : n < 320) {x : Code ((Lanes4 × Word) × ℤ × ℤ)}
    (hx : RoundsRun m x 0 n (iv4 s, 0)) : WalkRun m n s x := by
  rw [WalkRun, walkState, walkTrace, if_pos hn, if_pos hn]
  simpa [RoundsRun] using hx

/-- From 320 bytes on, a bulk loop, the fold and a mid loop for what it leaves. -/
theorem walkRun_bulk (hn : 320 ≤ n) {x : Code ((Lanes8 × Word) × ℤ × ℤ)}
    {y : ℤ → ℤ → Lanes4 × Word → Code ((Lanes4 × Word) × ℤ × ℤ)}
    (hx : BlocksRun m id x 0 n (iv8 s, 0))
    (hy : ∀ (p : ℤ) (l : ℕ), l < 64 → ∀ st, RoundsRun m (y p l st) p l st) :
    WalkRun m n s (x >>= fun r => Prog.observe (.bulkExit r.1.1) >>= fun _ =>
      y r.2.1 r.2.2 (foldUpper r.1.1, r.1.2)) := by
  have hround := (hy (64 * (n / 64) : ℕ) (n % 64) (by omega)
    (foldUpper (bulkState m n s).1, (bulkState m n s).2)).after_blocks
  rw [WalkRun, walkState, walkTrace, if_neg (by omega), if_neg (by omega)]
  refine hx.from_start.bind_eq ((Runs.of_exec (exec_observe _)).bind hround) ?_ ?_
  · simpa using stripeSpans_split n
  · rfl

/-! ### The close -/

section Close
variable {α : Type} {fin : Lanes4 → Code α} {v : Lanes4 → α}

/-- `fin` folds the lanes into the value `v`. -/
def FinRuns (m : Mem Byte) (fin : Lanes4 → Code α) (v : Lanes4 → α) : Prop :=
  ∀ h, exec m (fin h) = some ⟨v h, [], [.fold h]⟩

/-- `x` runs as a long key does, to the value `v` of the lanes of the fold. -/
def LongRun (m : Mem Byte) (n : ℕ) (s : Word) (v : Lanes4 → α) (x : Code α) : Prop :=
  Runs m x (v (foldLanes m n s))
    (stripeSpans (4 * (n / 32)) 0 ++ tailSpans (32 * (n / 32) : ℕ) (n % 32 : ℕ))
    (walkTrace m n s ++ .absorb [] (rotl (walkState m n s).2 27) ::
      (tailEvents m (32 * (n / 32) : ℕ) (n % 32 : ℕ) ++ [.fold (foldLanes m n s)]))

theorem longRun_walk (hfin : FinRuns m fin v) {x : Code ((Lanes4 × Word) × ℤ × ℤ)}
    (hx : WalkRun m n s x) :
    LongRun m n s v (x >>= fun r => wall r.1.1 r.1.2 >>= fun h =>
      tail t r.2.1 r.2.2 h >>= fin) := by
  have htail := (Runs.of_exec (exec_tail t (32 * (n / 32) : ℕ) (n % 32 : ℕ)
    (wallStep (walkState m n s)))).bind (f := fin) (Runs.of_exec (hfin _))
  have hclose := (Runs.of_exec (exec_wall (m := m) (walkState m n s))).bind
    (f := fun h => tail t (32 * (n / 32) : ℕ) (n % 32 : ℕ) h >>= fin) htail
  refine hx.bind_eq hclose ?_ ?_
  · simp
  · rfl

theorem longRun_tier (hfin : FinRuns m fin v) (hn : n < 320) {x : Code Lanes4}
    (hx : TierRest m n (iv4 s) 0 x) : LongRun m n s v (x >>= fin) := by
  have hf : foldLanes m n s = tailStep m (32 * (n / 32) : ℕ) (n % 32 : ℕ)
      (wallStep (rounds m (n / 32) 0 (iv4 s, 0))) := by
    rw [foldLanes, walkState, if_pos hn]
  rw [LongRun, walkTrace, if_pos hn, walkState, if_pos hn]
  refine hx.bind_eq (by rw [← hf]; exact .of_exec (hfin _)) ?_ ?_
  · simp
  · simp [rounds, walk_zero]

theorem finRuns_finish64 (s : Word) (n : ℕ) :
    FinRuns m (finish64 s (lenmix n)) (fun h => long64 s h n) := fun _ => rfl

theorem finRuns_finish128 (s : Word) (n : ℕ) :
    FinRuns m (finish128 s (lenmix n)) (fun h => ⟨long64 s h n, longHi s h n⟩) := fun _ => rfl

end Close

/-! ### The long routes, for either finalizer -/

section Routes
variable {α : Type} {fin : Lanes4 → Code α} {v : Lanes4 → α}

theorem longRun_outlined (hfin : FinRuns m fin v) (hn : 320 ≤ n) :
    LongRun m n s v (do
      let ((h, wp), p, l) ← outlinedBulk t 0 n (iv8 s, 0)
      Prog.observe (.bulkExit h)
      let ((h, wp), p, l) ← midIf t p l (foldUpper h, wp)
      let h ← wall h wp
      let h ← tail t p l h
      fin h) := by
  have hwalk := walkRun_bulk (m := m) hn (blocksRun_outlinedBulk t 0 n (by omega) (iv8 s, 0))
    (roundsRun_midIf t)
  simpa only [bind_assoc] using longRun_walk t hfin hwalk

theorem longRun_midLoop (hfin : FinRuns m fin v) (hn : n < 320) :
    LongRun m n s v (do
      let ((h, wp), p, l) ← midLoop t 0 n (iv4 s, 0)
      let h ← wall h wp
      let h ← tail t p l h
      fin h) :=
  longRun_walk t hfin (walkRun_mid hn (roundsRun_midLoop t n 0 _))

theorem longRun_midLoop64 (hfin : FinRuns m fin v) (hn : n < 320) :
    LongRun m n s v (do
      let (r, p, l) ← midLoop64 t 0 n (iv4 s, 0)
      let ((h, wp), p, l) ← midIf t p l r
      let h ← wall h wp
      let h ← tail t p l h
      fin h) := by
  have hwalk := longRun_walk (m := m) t hfin (walkRun_mid hn (roundsRun_midLoop64 t n 0 (iv4 s, 0)))
  simpa only [bind_assoc] using hwalk

theorem longRun_tiers (hfin : FinRuns m fin v) (h17 : 16 < n) (hn : n < 320) :
    LongRun m n s v (
      if t.tiers ∧ (n : ℤ) < 32 then do fin (← tier32 t n (iv4 s))
      else if t.tiers ∧ (n : ℤ) < 64 then do fin (← tier64 t n (iv4 s))
      else if t.tiers ∧ (n : ℤ) < 128 then do fin (← tier128 t n (iv4 s))
      else if t.tiers ∧ (n : ℤ) < 192 then do fin (← tier192 t n (iv4 s))
      else if t.tiers ∧ (n : ℤ) < 256 then do fin (← tier256 t n (iv4 s))
      else do
        let ((h, wp), p, l) ← if t.tiers then do
            let (s, p, l) ← midLoop64 t 0 n (iv4 s, 0)
            midIf t p l s
          else midLoop t 0 n (iv4 s, 0)
        let h ← wall h wp
        let h ← tail t p l h
        fin h) := by
  by_cases ht : t.tiers
  · simp only [ht, true_and, if_true]
    split_ifs with h32 h64 h128 h192 h256
    · exact longRun_tier hfin hn (tierRest_tier32 t h17 (by omega))
    · exact longRun_tier hfin hn (tierRest_tier64 t (by omega) (by omega))
    · exact longRun_tier hfin hn (tierRest_tier128 t (by omega) (by omega))
    · exact longRun_tier hfin hn (tierRest_tier192 t (by omega) (by omega))
    · exact longRun_tier hfin hn (tierRest_tier256 t (by omega) (by omega))
    · exact longRun_midLoop64 t hfin hn
  · rw [Bool.not_eq_true] at ht
    simp only [ht, Bool.false_eq_true, false_and, if_false]
    exact longRun_midLoop t hfin hn

end Routes

/-! ### 64 bits -/

theorem longRun_hayahash64 (hn : 16 < n) (seed : Word) :
    LongRun m n (seed ^^^ K) (fun h => long64 (seed ^^^ K) h n) (hayahash64 t n seed) := by
  rw [hayahash64, if_neg (by omega)]
  by_cases hlong : t.isWasm = false ∧ (n : ℤ) ≥ bulkMin
  · have hn : 320 ≤ n := by simpa [bulkMin] using hlong.2
    rw [if_pos hlong]
    exact longRun_outlined t (finRuns_finish64 _ n) hn
  · rw [if_neg hlong]
    by_cases hw : t.isWasm ∧ (n : ℤ) ≥ bulkMin
    · have hn : 320 ≤ n := by simpa [bulkMin] using hw.2
      have ht : t.tiers = false := by
        have : t.arch = .wasm := by simpa [Target.isWasm] using hw.1
        simp [Target.tiers, this]
      have hwalk := walkRun_bulk (m := m) hn
        (blocksRun_oneBlockBulk (blockRuns_bulkBlock t) n 0 (iv8 (seed ^^^ K), 0) (by omega))
        (fun p l _ => roundsRun_midLoop t l p)
      rw [inlineBulkWasm, if_pos hw]
      have hrun := longRun_walk t (finRuns_finish64 (seed ^^^ K) n) hwalk
      simp only [ht, Bool.false_eq_true, false_and, if_false, bind_assoc, pure_bind] at hrun ⊢
      exact hrun
    · have hn : n < 320 := by
        rw [Bool.eq_false_iff] at hlong
        by_contra hge
        have hmin : (n : ℤ) ≥ bulkMin := by simpa [bulkMin] using hge
        exact hlong ⟨fun hwasm => hw ⟨hwasm, hmin⟩, hmin⟩
      rw [inlineBulkWasm, if_neg hw]
      exact longRun_tiers t (finRuns_finish64 _ n) (by omega) hn

/-- **`hayahash64` runs as the reference says**, on every platform. -/
theorem runs_hayahash64 (m : Mem Byte) (n : ℕ) (seed : Word) :
    Runs m (hayahash64 t n seed) (compact64 m n seed) (spans n) (trace m n seed) := by
  by_cases hn : n ≤ 16
  · rw [hayahash64, if_pos (by omega), compact64, spans, trace, if_pos hn, if_pos hn, if_pos hn]
    exact (Runs.of_exec (exec_shortProducts t _ n)).bind_pure rfl
  · rw [compact64, spans, trace, if_neg hn, if_neg hn, if_neg hn]
    exact longRun_hayahash64 t (by omega) seed

/-! ### 128 bits -/

theorem longRun_hayahash128 (hn : 16 < n) (seed : Word) :
    LongRun m n (seed ^^^ K) (fun h => ⟨long64 (seed ^^^ K) h n, longHi (seed ^^^ K) h n⟩)
      (hayahash128 t n seed) := by
  rw [hayahash128, if_neg (by omega)]
  by_cases hlong : (t.inlineBulk = false ∧ t.isWasm = false) ∧ (n : ℤ) ≥ bulkMin
  · have hn : 320 ≤ n := by simpa [bulkMin] using hlong.2
    rw [if_pos hlong]
    exact longRun_outlined t (finRuns_finish128 _ n) hn
  rw [if_neg hlong]
  by_cases hin : t.inlineBulk ∨ t.isWasm
  · rw [if_pos hin, inlineWalk128]
    by_cases hmin : (n : ℤ) ≥ bulkMin
    · have hn : 320 ≤ n := by simpa [bulkMin] using hmin
      have hbulk : ∀ x, x = twoBlockBulk (bulkBlock t) 0 n (iv8 (seed ^^^ K), 0) ∨
          x = oneBlockBulk (bulkBlock t) 0 n (iv8 (seed ^^^ K), 0) →
          BlocksRun m id x 0 n (iv8 (seed ^^^ K), 0) := by
        rintro x (rfl | rfl)
        · exact blocksRun_twoBlockBulk (blockRuns_bulkBlock t) 0 n (by omega) _
        · exact blocksRun_oneBlockBulk (blockRuns_bulkBlock t) n 0 _ (by omega)
      have hrun := fun x hx => longRun_walk t (finRuns_finish128 (seed ^^^ K) n)
        (walkRun_bulk (m := m) hn (hbulk x hx) (roundsRun_midIf t))
      simp only [hmin, if_true]
      split_ifs
      · have := hrun _ (.inl rfl)
        simp only [bind_assoc] at this ⊢
        exact this
      · have := hrun _ (.inr rfl)
        simp only [bind_assoc] at this ⊢
        exact this
    · have hn : n < 320 := by simpa [bulkMin] using hmin
      simp only [hmin, if_false]
      exact longRun_midLoop t (finRuns_finish128 _ n) hn
  · have hn : n < 320 := by
      rw [not_or, Bool.not_eq_true, Bool.not_eq_true] at hin
      by_contra hge
      exact hlong ⟨hin, by simpa [bulkMin] using hge⟩
    rw [if_neg hin]
    exact longRun_tiers t (finRuns_finish128 _ n) (by omega) hn

/-- **`hayahash128` runs as the reference says**, on every platform. -/
theorem runs_hayahash128 (m : Mem Byte) (n : ℕ) (seed : Word) :
    Runs m (hayahash128 t n seed) (compact128 m n seed) (spans n) (trace m n seed) := by
  by_cases hn : n ≤ 16
  · rw [hayahash128, if_pos (by omega), compact128, compact64, compactHi, spans, trace, if_pos hn,
      if_pos hn, if_pos hn, if_pos hn]
    exact (Runs.of_exec (exec_shortProducts t _ n)).bind_pure rfl
  · rw [compact128, compact64, compactHi, spans, trace, if_neg hn, if_neg hn, if_neg hn, if_neg hn]
    exact longRun_hayahash128 t (by omega) seed

/-! ### What was absorbed -/

/-- **Nothing enters the lanes but what was noted**: both digests are those of the values that the
run absorbed, each of them put into its lane (`Spec.Replay`). -/
theorem value_replay (m : Mem Byte) (n : ℕ) (seed : Word) :
    value m (hayahash64 t n seed) =
        some (replayHash n seed (absorbs (notes m (hayahash64 t n seed)))).lo ∧
      value m (hayahash128 t n seed) =
        some (replayHash n seed (absorbs (notes m (hayahash128 t n seed)))) := by
  constructor
  · rw [(runs_hayahash64 t m n seed).notes_eq, replayHash_trace,
      (runs_hayahash64 t m n seed).value_eq]
    rfl
  · rw [(runs_hayahash128 t m n seed).notes_eq, replayHash_trace,
      (runs_hayahash128 t m n seed).value_eq]

/-- And so are the lanes seen at the folds. -/
theorem folds_replay (m : Mem Byte) {n : ℕ} (h17 : 16 < n) (seed : Word) :
    folds (notes m (hayahash64 t n seed)) =
        [replay n (seed ^^^ K) (absorbs (notes m (hayahash64 t n seed)))] ∧
      folds (notes m (hayahash128 t n seed)) =
        [replay n (seed ^^^ K) (absorbs (notes m (hayahash128 t n seed)))] := by
  rw [(runs_hayahash64 t m n seed).notes_eq, (runs_hayahash128 t m n seed).notes_eq,
    replay_trace h17, folds_trace h17]
  exact ⟨rfl, rfl⟩

/-! ### Hashes that differ -/

/-- `hayahash64` and both words of `hayahash128` differ on the `n` bytes of `m` and the `n'` bytes
of `m'`. -/
structure AllDiffer (t : Target) (seed : Word) (m : Mem Byte) (n : ℕ) (m' : Mem Byte) (n' : ℕ) :
    Prop where
  hash64 : value m (hayahash64 t n seed) ≠ value m' (hayahash64 t n' seed)
  lo : (value m (hayahash128 t n seed)).map Hash128.lo ≠
    (value m' (hayahash128 t n' seed)).map Hash128.lo
  hi : (value m (hayahash128 t n seed)).map Hash128.hi ≠
    (value m' (hayahash128 t n' seed)).map Hash128.hi

theorem allDiffer_of_compact {t : Target} {seed : Word} {m m' : Mem Byte} {n n' : ℕ}
    (hlo : (compact128 m n seed).lo ≠ (compact128 m' n' seed).lo)
    (hhi : (compact128 m n seed).hi ≠ (compact128 m' n' seed).hi) :
    AllDiffer t seed m n m' n' := by
  constructor
  · rw [(runs_hayahash64 t m n seed).value_eq, (runs_hayahash64 t m' n' seed).value_eq]
    intro h
    exact hlo (Option.some.inj h)
  · rw [(runs_hayahash128 t m n seed).value_eq, (runs_hayahash128 t m' n' seed).value_eq]
    intro h
    exact hlo (Option.some.inj h)
  · rw [(runs_hayahash128 t m n seed).value_eq, (runs_hayahash128 t m' n' seed).value_eq]
    intro h
    exact hhi (Option.some.inj h)

end Hayahash.Refine.Oneshot
