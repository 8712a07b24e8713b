import Hayahash.Cli.Generate
import Hayahash.Lib.Weyl
import Hayahash.Spec.Corpora

/-! # The corpus that is drawn

What the generator is for: `corpusOf seed count`, the corpus of `count` cases that are drawn from
the words of SplitMix64 after `seed`, one behind the other. First a case of each length up to 384,
then one of each of the larger edges, then cases of lengths that are drawn too. It fits
(`corpusOf_fits`), is right (`corpusOf_right`), and no two of its cases have the same seed
(`seeds_nodup`). -/

namespace Hayahash.Spec.Draws

open Function Hayahash.Lib.Bits Hayahash.Lib.Bytes Hayahash.Lib.Weyl
open Hayahash.C.Primitives Hayahash.Spec.Reference Hayahash.Spec.Corpora
open Hayahash.Cli.Generate (largeEdges dispatchBoundaries)
open Hayahash.Lib.Wire (length_bytes32)
open Hayahash.Ports.Differential (magic)

/-! ### SplitMix64 -/

/-- What is made of a state. -/
def scramble (z : Word) : Word :=
  xorShift 31 (xorShift 27 (xorShift 30 z * 0xBF58476D1CE4E5B9) * 0x94D049BB133111EB)

theorem scramble_bijective : Bijective scramble := by
  have hmul : ∀ k : Word, k.toNat % 2 = 1 → Bijective fun x : Word => x * k :=
    fun k hk => (mul_bijective_iff (by decide) k).mpr hk
  have h30 : Bijective (xorShift 30 : Word → Word) := xorShift_bijective (by decide)
  have h27 : Bijective (xorShift 27 : Word → Word) := xorShift_bijective (by decide)
  have h31 : Bijective (xorShift 31 : Word → Word) := xorShift_bijective (by decide)
  exact h31.comp
    ((hmul 0x94D049BB133111EB rfl).comp (h27.comp ((hmul 0xBF58476D1CE4E5B9 rfl).comp h30)))

/-- **SplitMix64.** -/
def splitMix : Counter 64 where
  step := 0x9E3779B97F4A7C15
  odd := rfl
  out := scramble
  bijective := scramble_bijective

/-! ### Cases -/

section Cases
variable (w : ℕ → Word)

/-- A length that is drawn from the word `k` on, and how many words that takes. -/
def drawnLength (k : ℕ) : ℕ × ℕ :=
  let r := (w k).toNat % 16
  let x := (w (k + 1)).toNat
  if r < 6 then (x % 385, 2)
  else if r < 11 then (x % 4097, 2)
  else if r < 14 then (x % 16385, 2)
  -- around a boundary, seven bytes at most below it or above it
  else if r = 14 then
    (min 131073 (dispatchBoundaries.getD (x % 28) 0 + (w (k + 2)).toNat % 15 - 7), 3)
  else (x % 131074, 2)

/-- The length of case `i`. -/
def lengthAt (i k : ℕ) : ℕ × ℕ :=
  if i ≤ 384 then (i, 0)
  else match largeEdges[i - 385]? with
    | some edge => (edge, 0)
    | none => drawnLength w k

/-- `len` bytes of words, from the word `k` on. -/
def bytesAt (k len : ℕ) : List Byte :=
  ((List.range ((len + 7) / 8)).flatMap fun j => bytes64 (w (k + j))).take len

/-- A case of `len` bytes: its seed, and behind it its bytes. -/
def drawnCase (k len : ℕ) : Case :=
  let data := bytesAt w (k + 1) len
  let digest := compact128 (ofList data) data.length (w k)
  ⟨data, w k, digest.lo, digest.hi⟩

/-- Case `i`: its length, and the rest of it; and where the next one starts. -/
def caseAt (i k : ℕ) : Case × ℕ :=
  let (len, d) := lengthAt w i k
  (drawnCase w (k + d) len, k + d + 1 + (len + 7) / 8)

/-- `n` cases from case `i` on. -/
def casesAt : ℕ → ℕ → ℕ → List Case
  | 0, _, _ => []
  | n + 1, i, k => (caseAt w i k).1 :: casesAt n (i + 1) (caseAt w i k).2

end Cases

/-- **The corpus** of `count` cases after `seed`. -/
def corpusOf (seed : Word) (count : ℕ) : Corpus := ⟨seed, casesAt (splitMix.word seed) count 0 0⟩

/-! ### Lengths -/

variable {w : ℕ → Word} {i k n : ℕ}

theorem drawnLength_le : (drawnLength w k).1 ≤ 131073 ∧ (drawnLength w k).2 ≤ 3 := by
  unfold drawnLength
  dsimp only
  split_ifs <;> constructor <;> dsimp only <;> omega

theorem lengthAt_le : (lengthAt w i k).1 ≤ 131073 ∧ (lengthAt w i k).2 ≤ 3 := by
  unfold lengthAt
  split_ifs with hi
  · exact ⟨by dsimp only; omega, Nat.zero_le _⟩
  · cases hedge : largeEdges[i - 385]? with
    | some edge =>
      have hle : ∀ e ∈ largeEdges, e ≤ 131073 := by decide
      exact ⟨hle edge (List.mem_of_getElem? hedge), Nat.zero_le _⟩
    | none => exact drawnLength_le

theorem length_words (k m : ℕ) : ((List.range m).flatMap fun j => bytes64 (w (k + j))).length =
    8 * m := by
  rw [List.length_flatMap]
  simp only [bytes64, length_bytes, List.map_const', List.length_range, List.sum_replicate_nat,
    Nat.mul_comm]

theorem length_bytesAt (k len : ℕ) : (bytesAt w k len).length = len := by
  rw [bytesAt, List.length_take, length_words]
  omega

theorem length_caseAt : (caseAt w i k).1.data.length = (lengthAt w i k).1 := length_bytesAt _ _

theorem length_casesAt : (casesAt w n i k).length = n := by
  induction n generalizing i k with
  | zero => rfl
  | succ n ih => rw [casesAt, List.length_cons, ih]

theorem casesAt_getElem {j : ℕ} {c : Case} (h : (casesAt w n i k)[j]? = some c) :
    ∃ k', c = (caseAt w (i + j) k').1 := by
  induction n generalizing i k j with
  | zero => cases h
  | succ n ih =>
    cases j with
    | zero => exact ⟨k, (Option.some.inj h).symm⟩
    | succ j =>
      obtain ⟨k', hk'⟩ := ih (i := i + 1) h
      exact ⟨k', by rw [hk', Nat.add_right_comm]; rfl⟩

theorem casesAt_mem {c : Case} (h : c ∈ casesAt w n i k) : ∃ j k', c = (caseAt w j k').1 := by
  obtain ⟨j, hj⟩ := List.getElem?_of_mem h
  obtain ⟨k', hk'⟩ := casesAt_getElem hj
  exact ⟨_, k', hk'⟩

theorem corpusOf_right (seed : Word) (count : ℕ) : (corpusOf seed count).Right := by
  intro c hc
  obtain ⟨j, k', rfl⟩ := casesAt_mem hc
  rfl

theorem corpusOf_fits (seed : Word) {count : ℕ} (h : count < 2 ^ 32) :
    (corpusOf seed count).Fits where
  count := length_casesAt.trans_lt h
  each c hc := by
    obtain ⟨j, k', rfl⟩ := casesAt_mem hc
    have hle := (lengthAt_le (w := splitMix.word seed) (i := j) (k := k')).1
    rw [Case.Fits, length_caseAt]
    omega

theorem caseAt_next : k < (caseAt w i k).2 ∧ (caseAt w i k).2 ≤ k + 16389 := by
  have hle := lengthAt_le (w := w) (i := i) (k := k)
  show k < k + (lengthAt w i k).2 + 1 + ((lengthAt w i k).1 + 7) / 8 ∧
    k + (lengthAt w i k).2 + 1 + ((lengthAt w i k).1 + 7) / 8 ≤ k + 16389
  omega

/-- **The seeds are words of the stream, further and further on.** -/
theorem seeds_words : ∃ ks : List ℕ, (casesAt w n i k).map Case.seed = ks.map w ∧
    ks.Pairwise (· < ·) ∧ ∀ j ∈ ks, k ≤ j ∧ j < k + 16389 * n := by
  induction n generalizing i k with
  | zero => exact ⟨[], rfl, .nil, nofun⟩
  | succ n ih =>
    obtain ⟨ks, hmap, hpair, hks⟩ := ih (i := i + 1) (k := (caseAt w i k).2)
    have hnext := caseAt_next (w := w) (i := i) (k := k)
    have hd := (lengthAt_le (w := w) (i := i) (k := k)).2
    have hseed : (caseAt w i k).1.seed = w (k + (lengthAt w i k).2) := rfl
    have hend : (caseAt w i k).2 = k + (lengthAt w i k).2 + 1 + ((lengthAt w i k).1 + 7) / 8 := rfl
    refine ⟨(k + (lengthAt w i k).2) :: ks, ?_, ?_, ?_⟩
    · rw [casesAt, List.map_cons, List.map_cons, hmap, hseed]
    · refine List.pairwise_cons.mpr ⟨fun j hj => ?_, hpair⟩
      have hlow := (hks j hj).1
      omega
    · intro j hj
      rcases List.mem_cons.mp hj with rfl | hj
      · omega
      · have hrange := hks j hj
        omega

/-- **No two cases have the same seed.** -/
theorem seeds_nodup (seed : Word) {count : ℕ} (h : count < 2 ^ 32) :
    ((corpusOf seed count).cases.map Case.seed).Nodup := by
  obtain ⟨ks, hmap, hpair, hks⟩ :=
    seeds_words (w := splitMix.word seed) (n := count) (i := 0) (k := 0)
  rw [corpusOf, hmap]
  refine List.Nodup.map_on (fun j hj j' hj' heq => ?_) (hpair.imp Nat.ne_of_lt)
  have hlt := (hks j hj).2
  have hlt' := (hks j' hj').2
  exact Counter.word_injective (by decide) (by omega) (by omega) heq

end Hayahash.Spec.Draws
