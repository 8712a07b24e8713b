import Hayahash.Refine.Loops

/-! # The wall, the tail, the tiers and the short path

What comes after the loops, and the two ways around them: the straight-line tiers of 17 to 255
bytes, and the words of a key of at most 16. A tier is read from its end: `TierRest k x` says that
`x` does what is left of the walk of a key once `k` of its rounds are done. -/

namespace Hayahash.Refine.Ends

open Hayahash.Lib.ReadProg Hayahash.Lib.Bytes Hayahash.Lib.Walk Hayahash.C.Primitives
open Hayahash.C.Walk Hayahash.C.Oneshot Hayahash.Spec.Reference Hayahash.Spec.Stripes

variable (t : Target) {m : Mem Byte}

/-! ### Wall and tail -/

theorem exec_wall (s : Lanes4 × Word) :
    exec m (wall s.1 s.2) = some ⟨wallStep s, [], [.absorb [] (rotl s.2 27)]⟩ := rfl

theorem exec_tail (p l : ℤ) (h : Lanes4) :
    exec m (tail t p l h) = some ⟨tailStep m p l h, tailSpans p l, tailEvents m p l⟩ := by
  unfold tail tailStep lastStep headStep tailSpans tailEvents
  split_ifs <;> simp [exec_bind, Outcome.andThen]

/-! ### Tiers -/

section Tiers
variable {l : ℕ} {h : Lanes4}

/-- `x` does what is left of the walk of `l` bytes from the lanes `h` on, after `k` rounds. -/
def TierRest (m : Mem Byte) (l : ℕ) (h : Lanes4) (k : ℕ) (x : Code Lanes4) : Prop :=
  Runs m x (tailStep m (32 * (l / 32) : ℕ) (l % 32 : ℕ) (wallStep (rounds m (l / 32) 0 (h, 0))))
    (stripeSpans (4 * (l / 32 - k)) (32 * k : ℕ) ++ tailSpans (32 * (l / 32) : ℕ) (l % 32 : ℕ))
    (stripeEvents m (4 * (l / 32 - k)) (32 * k : ℕ) (rounds m k 0 (h, 0)).2 ++
      .absorb [] (rotl (rounds m (l / 32) 0 (h, 0)).2 27) ::
        tailEvents m (32 * (l / 32) : ℕ) (l % 32 : ℕ))

theorem exec_tierFirst (h : Lanes4) :
    exec m (tierFirst t 0 8 16 24 h) =
      some ⟨roundStep m 0 (h, 0), stripeSpans 4 0, stripeEvents m 4 0 0⟩ := by
  simp [tierFirst, exec_bind, Outcome.andThen, roundStep, stripeSpans, stripeEvents]

theorem exec_tierRound (p : ℤ) (s : Lanes4 × Word) :
    exec m (tierRound t p (p + 8) (p + 16) (p + 24) s) =
      some ⟨roundStep m p s, stripeSpans 4 p, stripeEvents m 4 p s.2⟩ := by
  simp [tierRound, exec_bind, Outcome.andThen, roundStep, stripeSpans, stripeEvents, add_assoc]

theorem tierRest_after {k : ℕ} (hk : k < l / 32) {x : Code (Lanes4 × Word)}
    {f : Lanes4 × Word → Code Lanes4}
    (hx : Runs m x (roundStep m (32 * k : ℕ) (rounds m k 0 (h, 0))) (stripeSpans 4 (32 * k : ℕ))
      (stripeEvents m 4 (32 * k : ℕ) (rounds m k 0 (h, 0)).2))
    (hf : TierRest m l h (k + 1) (f (rounds m (k + 1) 0 (h, 0)))) :
    TierRest m l h k (x >>= f) := by
  have hr : rounds m (k + 1) 0 (h, 0) = roundStep m (32 * k : ℕ) (rounds m k 0 (h, 0)) := by
    rw [rounds, walk_last]
    simp [rounds]
  have h4 : 4 * (l / 32 - k) = 4 + 4 * (l / 32 - (k + 1)) := by omega
  have hp : ((32 * k : ℕ) : ℤ) + 8 * (4 : ℕ) = (32 * (k + 1) : ℕ) := by push_cast; omega
  rw [TierRest, h4, stripeSpans_add, stripeEvents_add, hp, List.append_assoc, List.append_assoc]
  rw [TierRest, hr] at hf
  exact hx.bind hf

theorem tierRest_first (hl : 32 ≤ l) {f : Lanes4 × Word → Code Lanes4}
    (hf : TierRest m l h 1 (f (rounds m 1 0 (h, 0)))) :
    TierRest m l h 0 (tierFirst t 0 8 16 24 h >>= f) :=
  tierRest_after (by omega) (.of_exec (exec_tierFirst t h)) hf

theorem tierRest_round {k : ℕ} (hk : k < l / 32) {o0 o1 o2 o3 : ℤ} {f : Lanes4 × Word → Code Lanes4}
    (ho : o0 = (32 * k : ℕ) ∧ o1 = o0 + 8 ∧ o2 = o0 + 16 ∧ o3 = o0 + 24)
    (hf : TierRest m l h (k + 1) (f (rounds m (k + 1) 0 (h, 0)))) :
    TierRest m l h k (tierRound t o0 o1 o2 o3 (rounds m k 0 (h, 0)) >>= f) := by
  obtain ⟨rfl, rfl, rfl, rfl⟩ := ho
  exact tierRest_after hk (.of_exec (exec_tierRound t _ _)) hf

/-- The end of a tier is the wall and the tail, with the length of the whole key in place of what is
left of it. -/
theorem tierEnd_eq (p r : ℤ) (s : Lanes4 × Word) :
    tierEnd t (p + r) (p + 16) p p (p + 8) s = wall s.1 s.2 >>= tail t p r := by
  refine congrArg (wall s.1 s.2 >>= ·) (funext fun h => ?_)
  simp [tail]

/-- The thresholds and the offsets of the end are those of the rounds done. -/
theorem tierRest_end {k : ℕ} (hk : l / 32 = k) {hi lo o0 o1 : ℤ}
    (ho : lo = (32 * k : ℕ) ∧ hi = lo + 16 ∧ o0 = lo ∧ o1 = lo + 8) :
    TierRest m l h k (tierEnd t l hi lo o0 o1 (rounds m k 0 (h, 0))) := by
  obtain ⟨rfl, rfl, rfl, rfl⟩ := ho
  subst hk
  have hl : (l : ℤ) = (32 * (l / 32) : ℕ) + (l % 32 : ℕ) := by omega
  rw [TierRest, Nat.sub_self]
  conv in tierEnd _ _ _ _ _ _ _ => rw [hl]
  rw [tierEnd_eq]
  exact (Runs.of_exec (exec_wall _)).bind (.of_exec (exec_tail t _ _ _))

/-- **Below 32 bytes** no stripe is absorbed, so the wall adds `rotl(0, 27)`. -/
theorem tierRest_tier32 (h17 : 16 < l) (hl : l < 32) : TierRest m l h 0 (tier32 t l h) := by
  have h0 : l / 32 = 0 := by omega
  have hr : l % 32 = l := by omega
  have hrun : exec m (tier32 t l h) = some ⟨tailStep m 0 l (wallStep (h, 0)), tailSpans 0 l,
      .absorb [] (rotl 0 27) :: tailEvents m 0 l⟩ := by
    have h1 : (16 : ℤ) < l := by omega
    have h2 : 0 < l := by omega
    simp [tier32, exec_bind, Outcome.andThen, tailStep, lastStep, headStep, tailSpans, tailEvents,
      wallStep, h1, h2]
  rw [TierRest, h0, hr]
  exact .of_exec hrun

theorem tierRest_tier64 (h32 : 32 ≤ l) (hl : l < 64) : TierRest m l h 0 (tier64 t l h) :=
  tierRest_first t h32 (tierRest_end t (by omega) (by omega))

theorem tierRest_tier128 (h64 : 64 ≤ l) (hl : l < 128) : TierRest m l h 0 (tier128 t l h) := by
  refine tierRest_first t (by omega) (tierRest_round t (by omega) (by omega) ?_)
  by_cases h96 : 96 ≤ l
  · rw [if_pos (by omega)]
    exact tierRest_round t (by omega) (by omega) (tierRest_end t (by omega) (by omega))
  · rw [if_neg (by omega)]
    exact tierRest_end t (by omega) (by omega)

theorem tierRest_tier192 (h128 : 128 ≤ l) (hl : l < 192) : TierRest m l h 0 (tier192 t l h) := by
  refine tierRest_first t (by omega) (tierRest_round t (by omega) (by omega)
    (tierRest_round t (by omega) (by omega) (tierRest_round t (by omega) (by omega) ?_)))
  by_cases h160 : 160 ≤ l
  · rw [if_pos (by omega)]
    exact tierRest_round t (by omega) (by omega) (tierRest_end t (by omega) (by omega))
  · rw [if_neg (by omega)]
    exact tierRest_end t (by omega) (by omega)

theorem tierRest_tier256 (h192 : 192 ≤ l) (hl : l < 256) : TierRest m l h 0 (tier256 t l h) := by
  refine tierRest_first t (by omega) (tierRest_round t (by omega) (by omega)
    (tierRest_round t (by omega) (by omega) (tierRest_round t (by omega) (by omega)
      (tierRest_round t (by omega) (by omega) (tierRest_round t (by omega) (by omega) ?_)))))
  by_cases h224 : 224 ≤ l
  · rw [if_pos (by omega)]
    exact tierRest_round t (by omega) (by omega) (tierRest_end t (by omega) (by omega))
  · rw [if_neg (by omega)]
    exact tierRest_end t (by omega) (by omega)

end Tiers

/-! ### The short path -/

theorem exec_shortWords (n : ℕ) :
    exec m (shortWords t n) =
      some ⟨(⟨shortSpansA n, shortA m n⟩, ⟨shortSpansB n, shortB m n⟩),
        shortSpansA n ++ shortSpansB n, []⟩ := by
  unfold shortWords
  by_cases h8 : 8 ≤ n
  · simp [h8, exec_bind, Outcome.andThen, shortA, shortB, shortSpansA, shortSpansB]
  by_cases h4 : 4 ≤ n
  · simp [h8, h4, exec_bind, Outcome.andThen, shortA, shortB, shortSpansA, shortSpansB]
  by_cases h0 : 0 < n
  · simp [h8, h4, h0, exec_bind, Outcome.andThen, shortA, shortB, shortSpansA, shortSpansB]
  · simp [h8, h4, h0, shortA, shortB, shortSpansA, shortSpansB]

theorem exec_shortProducts (s : Word) (n : ℕ) :
    exec m (shortProducts t s n) =
      some ⟨(shortX (shortA m n) s, shortY (shortB m n) s), shortSpansA n ++ shortSpansB n,
        shortTrace m n⟩ := by
  simp [shortProducts, exec_bind, exec_shortWords, Outcome.andThen, shortTrace, shortX, shortY]

end Hayahash.Refine.Ends
