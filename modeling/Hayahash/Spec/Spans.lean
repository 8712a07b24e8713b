import Hayahash.Spec.Stripes

/-! # What a run reads

The ranges of `Spec.Reference.spans` lie inside the key, and every byte of the key lies in a range
that is absorbed: the stripes cover the complete rounds, and the tail words, which may reach back
over stripes, cover what the rounds leave. -/

namespace Hayahash.Spec.Spans

open Hayahash.Lib.ReadProg Hayahash.Lib.Bytes Hayahash.C.Primitives Hayahash.Spec.Reference
open Hayahash.Spec.Stripes

variable {m : Mem Byte} {n : ℕ}

/-! ### Stripes -/

theorem mem_stripeSpans {k : ℕ} {r : Span} : ∀ {p : ℤ},
    r ∈ stripeSpans k p ↔ ∃ j < k, r = ⟨p + 8 * (j : ℕ), 8⟩ := by
  induction k with
  | zero => simp [stripeSpans]
  | succ k ih =>
    intro p
    rw [stripeSpans, List.mem_cons, ih]
    constructor
    · rintro (rfl | ⟨j, hj, rfl⟩)
      · exact ⟨0, by omega, by simp⟩
      · exact ⟨j + 1, by omega, by rw [stripe_pos_succ]⟩
    · rintro ⟨j, hj, rfl⟩
      cases j with
      | zero => exact .inl (by simp)
      | succ j => exact .inr ⟨j, by omega, by rw [stripe_pos_succ]⟩

theorem exists_stripeEvents {k j : ℕ} (hj : j < k) : ∀ (p : ℤ) (wp : Word),
    ∃ x, Event.absorb [⟨p + 8 * (j : ℕ), 8⟩] x ∈ stripeEvents m k p wp := by
  induction k generalizing j with
  | zero => omega
  | succ k ih =>
    intro p wp
    cases j with
    | zero => exact ⟨chain (word64 m p) wp, by simp [stripeEvents]⟩
    | succ j =>
      obtain ⟨x, hx⟩ := ih (j := j) (by omega) (p + 8) (word64 m p)
      refine ⟨x, List.mem_cons_of_mem _ ?_⟩
      rwa [stripe_pos_succ]

/-! ### Inside the key -/

/-- The tail does not reach back before the key, if the key has 17 bytes at least. -/
theorem tailSpans_within {p l : ℤ} (hp : 0 ≤ p) (h16 : 16 < p + l) {r : Span}
    (hr : r ∈ tailSpans p l) : r.Within 0 (p + l) := by
  unfold tailSpans at hr
  rw [Span.Within]
  split_ifs at hr <;> simp only [List.cons_append, List.nil_append, List.mem_cons,
    List.not_mem_nil, or_false] at hr
  · rcases hr with rfl | rfl | rfl | rfl <;> constructor <;> push_cast <;> omega
  · omega
  · rcases hr with rfl | rfl <;> constructor <;> push_cast <;> omega

/-- **No range leaves the key.** -/
theorem spans_within {r : Span} (hr : r ∈ spans n) : r.Within 0 n := by
  unfold spans at hr
  by_cases h16 : n ≤ 16
  · rw [if_pos h16] at hr
    unfold shortSpansA shortSpansB at hr
    rw [Span.Within]
    split_ifs at hr <;> simp only [List.cons_append, List.nil_append, List.mem_cons,
      List.not_mem_nil, or_false] at hr
    · rcases hr with rfl | rfl <;> constructor <;> push_cast <;> omega
    · rcases hr with rfl | rfl <;> constructor <;> push_cast <;> omega
    · rcases hr with rfl | rfl | rfl <;> constructor <;> push_cast <;> omega
  · rw [if_neg h16, List.mem_append] at hr
    rcases hr with hr | hr
    · obtain ⟨j, hj, rfl⟩ := mem_stripeSpans.mp hr
      exact ⟨by push_cast; omega, by push_cast; omega⟩
    · have hend : ((32 * (n / 32) : ℕ) : ℤ) + (n % 32 : ℕ) = n := by omega
      have hw := tailSpans_within (by omega) (by omega) hr
      rwa [hend] at hw

/-! ### All of the key -/

/-- The byte `i` is in a range that is loaded and absorbed. -/
def Absorbed (ls : List Span) (ns : List Event) (i : ℤ) : Prop :=
  ∃ src x, Event.absorb src x ∈ ns ∧ ∃ r ∈ src, r ∈ ls ∧ r.Covers i

theorem absorbed_tail {p l i : ℤ} (h0 : p ≤ i) (h1 : i < p + l) (h32 : l < 32) :
    Absorbed (tailSpans p l) (tailEvents m p l) i := by
  have hpos : l > 0 := by omega
  -- the words of the tail, and the one that covers `i`
  have hword : ∀ q, tailEvent m q ∈ tailEvents m p l → (⟨q, 8⟩ : Span) ∈ tailSpans p l →
      q ≤ i → i < q + 8 → Absorbed (tailSpans p l) (tailEvents m p l) i :=
    fun q he hs hq hi => ⟨_, _, he, _, List.mem_singleton_self _, hs, hq, by push_cast; omega⟩
  by_cases hlast : p + l - 8 ≤ i
  · exact hword (p + l - 8) (by simp [tailEvents, hpos]) (by simp [tailSpans, hpos]) hlast
      (by omega)
  by_cases hlast' : p + l - 16 ≤ i
  · exact hword (p + l - 16) (by simp [tailEvents, hpos]) (by simp [tailSpans, hpos]) hlast'
      (by omega)
  -- `i` is not in the last 16 bytes, so more than 16 are left
  have h16 : l > 16 := by omega
  by_cases hhead : p + 8 ≤ i
  · exact hword (p + 8) (by simp [tailEvents, h16]) (by simp [tailSpans, h16]) hhead (by omega)
  · exact hword p (by simp [tailEvents, h16]) (by simp [tailSpans, h16]) h0 (by omega)

theorem Absorbed.mono {ls ls' : List Span} {ns ns' : List Event} {i : ℤ} (h : Absorbed ls ns i)
    (hl : ls ⊆ ls') (hn : ns ⊆ ns') : Absorbed ls' ns' i := by
  obtain ⟨src, x, he, r, hr, hls, hc⟩ := h
  exact ⟨src, x, hn he, r, hr, hl hls, hc⟩

/-- Stripes up to a whole number of rounds, and the tail of the rest, absorb every byte. -/
theorem absorbed_walk {l : ℕ} {i : ℤ} (h0 : 0 ≤ i) (h1 : i < l) {ls : List Span} {ns : List Event}
    (hs : ∀ j < 4 * (l / 32), ∃ x, Event.absorb [⟨8 * (j : ℕ), 8⟩] x ∈ ns)
    (hsl : stripeSpans (4 * (l / 32)) 0 ⊆ ls)
    (ht : tailEvents m (32 * (l / 32) : ℕ) (l % 32 : ℕ) ⊆ ns)
    (htl : tailSpans (32 * (l / 32) : ℕ) (l % 32 : ℕ) ⊆ ls) : Absorbed ls ns i := by
  by_cases hi : i < (32 * (l / 32) : ℕ)
  · obtain ⟨j, hj⟩ : ∃ j : ℕ, (j : ℤ) = i / 8 := ⟨(i / 8).toNat, by omega⟩
    obtain ⟨x, hx⟩ := hs j (by omega)
    exact ⟨_, x, hx, _, List.mem_singleton_self _,
      hsl (mem_stripeSpans.mpr ⟨j, by omega, by simp⟩), by constructor <;> push_cast <;> omega⟩
  · exact (absorbed_tail (by omega) (by omega) (by omega)).mono htl ht

theorem exists_blocks_rounds {l j : ℕ} {wp wp' : Word} {ns : List Event} (hj : j < 4 * (l / 32))
    (hb : stripeEvents m (8 * (l / 64)) 0 wp ⊆ ns)
    (hr : stripeEvents m (4 * (l % 64 / 32)) (64 * (l / 64) : ℕ) wp' ⊆ ns) :
    ∃ x, Event.absorb [⟨8 * (j : ℕ), 8⟩] x ∈ ns := by
  by_cases hlt : j < 8 * (l / 64)
  · obtain ⟨x, hx⟩ := exists_stripeEvents (m := m) hlt 0 wp
    exact ⟨x, hb (by simpa using hx)⟩
  · have hrest : j - 8 * (l / 64) < 4 * (l % 64 / 32) := by omega
    have hpos : ((64 * (l / 64) : ℕ) : ℤ) + 8 * ((j - 8 * (l / 64) : ℕ) : ℤ) = 8 * (j : ℕ) := by
      omega
    obtain ⟨x, hx⟩ := exists_stripeEvents (m := m) hrest (64 * (l / 64) : ℕ) wp'
    refine ⟨x, hr ?_⟩
    rwa [hpos] at hx

theorem exists_walkTrace (s : Word) {j : ℕ} (hj : j < 4 * (n / 32)) :
    ∃ x, Event.absorb [⟨8 * (j : ℕ), 8⟩] x ∈ walkTrace m n s := by
  unfold walkTrace
  by_cases hn : n < 320
  · rw [if_pos hn]
    simpa using exists_stripeEvents (m := m) hj 0 0
  · rw [if_neg hn]
    exact exists_blocks_rounds hj (List.subset_append_left _ _)
      (List.subset_append_of_subset_right _ (List.subset_cons_self _ _))

theorem absorbed_short (hn : n ≤ 16) {i : ℤ} (h0 : 0 ≤ i) (h1 : i < n) :
    Absorbed (shortSpansA n ++ shortSpansB n) (shortTrace m n) i := by
  have hA : ∀ r ∈ shortSpansA n, r.Covers i →
      Absorbed (shortSpansA n ++ shortSpansB n) (shortTrace m n) i :=
    fun r hr hc => ⟨_, _, List.mem_cons_self, r, hr, List.mem_append_left _ hr, hc⟩
  have hB : ∀ r ∈ shortSpansB n, r.Covers i →
      Absorbed (shortSpansA n ++ shortSpansB n) (shortTrace m n) i :=
    fun r hr hc => ⟨_, _, List.mem_cons_of_mem _ List.mem_cons_self, r, hr,
      List.mem_append_right _ hr, hc⟩
  -- the words reach to the end of the key
  have hcovers : ∀ k : ℕ, (n : ℤ) - k ≤ i → Span.Covers ⟨n - k, k⟩ i :=
    fun k hi => ⟨hi, by push_cast; omega⟩
  by_cases h8 : 8 ≤ n
  · by_cases hi : i < 8
    · exact hA ⟨0, 8⟩ (by simp [shortSpansA, h8]) ⟨h0, by simpa using hi⟩
    · exact hB ⟨n - 8, 8⟩ (by simp [shortSpansB, h8]) (hcovers 8 (by push_cast; omega))
  by_cases h4 : 4 ≤ n
  · by_cases hi : i < 4
    · exact hA ⟨0, 4⟩ (by simp [shortSpansA, h8, h4]) ⟨h0, by simpa using hi⟩
    · exact hB ⟨n - 4, 4⟩ (by simp [shortSpansB, h8, h4]) (hcovers 4 (by push_cast; omega))
  -- at most three bytes: the first, the middle one and the last
  have hpos : 0 < n := by omega
  by_cases hi : i = 0
  · exact hA ⟨0, 1⟩ (by simp [shortSpansA, h8, h4, hpos]) ⟨h0, by simp [hi]⟩
  by_cases hi' : i = n / 2
  · exact hB ⟨n / 2, 1⟩ (by simp [shortSpansB, h8, h4, hpos]) ⟨hi'.ge, by push_cast; omega⟩
  · exact hB ⟨n - 1, 1⟩ (by simp [shortSpansB, h8, h4, hpos]) (hcovers 1 (by push_cast; omega))

/-- **Every byte of the key is absorbed.** -/
theorem absorbed_trace (seed : Word) {i : ℤ} (h0 : 0 ≤ i) (h1 : i < n) :
    Absorbed (spans n) (trace m n seed) i := by
  unfold spans trace
  by_cases h16 : n ≤ 16
  · rw [if_pos h16, if_pos h16]
    exact absorbed_short h16 h0 h1
  · rw [if_neg h16, if_neg h16]
    refine absorbed_walk (m := m) h0 h1 (fun j hj => ?_) (List.subset_append_left _ _)
      (fun e he => ?_) (List.subset_append_right _ _)
    · obtain ⟨x, hx⟩ := exists_walkTrace (m := m) (seed ^^^ K) hj
      exact ⟨x, List.mem_append_left _ hx⟩
    · exact List.mem_append_right _ (List.mem_cons_of_mem _ (List.mem_append_left _ he))

end Hayahash.Spec.Spans
