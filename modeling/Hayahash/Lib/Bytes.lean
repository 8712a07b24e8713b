import Hayahash.Lib.ReadProg
import Mathlib.Data.BitVec
import Mathlib.Data.List.GetD
import Mathlib.Tactic.FinCases

/-! # Bytes in memory

Little-endian words of eight and of four bytes (`le64`, `le32`), the word at an address (`word64`,
`word32`) and byte strings as memories (`ofList`). A word and its bytes determine each other
(`le64_inj`, `le64_bytes`), and a word is read back from where its bytes were stored. -/

namespace Hayahash.Lib.Bytes

open Hayahash.Lib.ReadProg

abbrev Byte := BitVec 8

-- Named once, so that the numerals of `Fin 8` and `Fin 4` are the same terms in every module.
instance neZero_eight : NeZero 8 := ⟨by decide⟩

instance neZero_four : NeZero 4 := ⟨by decide⟩

/-- Eight bytes, least significant first. -/
def le64 (b : Fin 8 → Byte) : BitVec 64 :=
  b 7 ++ b 6 ++ b 5 ++ b 4 ++ b 3 ++ b 2 ++ b 1 ++ b 0

/-- Four bytes, least significant first. -/
def le32 (b : Fin 4 → Byte) : BitVec 32 := b 3 ++ b 2 ++ b 1 ++ b 0

/-- The bytes of a word, least significant first. -/
def byteOf (x : BitVec 64) (i : ℕ) : Byte := x.extractLsb' (8 * i) 8

theorem getLsbD_le64 (b : Fin 8 → Byte) (j : Fin 8) {r : ℕ} (hr : r < 8) :
    (le64 b).getLsbD (8 * j + r) = (b j).getLsbD r := by
  unfold le64
  simp only [BitVec.getLsbD_append]
  fin_cases j <;> simp <;> grind

theorem getLsbD_le32 (b : Fin 4 → Byte) (j : Fin 4) {r : ℕ} (hr : r < 8) :
    (le32 b).getLsbD (8 * j + r) = (b j).getLsbD r := by
  unfold le32
  simp only [BitVec.getLsbD_append]
  fin_cases j <;> simp <;> grind

theorem eq_of_bytes (k : ℕ) {x y : BitVec (8 * k)}
    (h : ∀ j : Fin k, ∀ r < 8, x.getLsbD (8 * j + r) = y.getLsbD (8 * j + r)) : x = y := by
  refine BitVec.eq_of_getLsbD_eq fun i hi => ?_
  have hsplit : 8 * (i / 8) + i % 8 = i := by omega
  have hbyte := h ⟨i / 8, by omega⟩ (i % 8) (Nat.mod_lt _ (by decide))
  rwa [hsplit] at hbyte

theorem le64_inj {b c : Fin 8 → Byte} (h : le64 b = le64 c) : b = c := by
  funext j
  refine BitVec.eq_of_getLsbD_eq fun r hr => ?_
  rw [← getLsbD_le64 b j hr, h, getLsbD_le64 c j hr]

theorem le32_inj {b c : Fin 4 → Byte} (h : le32 b = le32 c) : b = c := by
  funext j
  refine BitVec.eq_of_getLsbD_eq fun r hr => ?_
  rw [← getLsbD_le32 b j hr, h, getLsbD_le32 c j hr]

theorem le64_bytes (x : BitVec 64) : le64 (fun i => byteOf x i) = x := by
  refine eq_of_bytes 8 fun j r hr => ?_
  rw [getLsbD_le64 _ j hr, byteOf, BitVec.getLsbD_extractLsb']
  simp [hr]

/-! ### Words at an address -/

/-- The little-endian word at address `p`. -/
def word64 (m : Mem Byte) (p : ℤ) : BitVec 64 := le64 fun i => m (p + i)

/-- The little-endian half word at address `p`. -/
def word32 (m : Mem Byte) (p : ℤ) : BitVec 32 := le32 fun i => m (p + i)

theorem eq_of_read {m m' : Mem Byte} {k : ℕ} {p i : ℤ}
    (h : (fun j : Fin k => m (p + j)) = fun j : Fin k => m' (p + j)) (hi : p ≤ i)
    (hi' : i < p + k) : m i = m' i := by
  obtain ⟨j, rfl⟩ : ∃ j : ℕ, i = p + j := ⟨(i - p).toNat, by omega⟩
  exact congrFun h ⟨j, by omega⟩

/-- A word determines the bytes it was read from. -/
theorem word64_inj {m m' : Mem Byte} {p : ℤ} (h : word64 m p = word64 m' p) {i : ℤ}
    (hi : p ≤ i) (hi' : i < p + 8) : m i = m' i :=
  eq_of_read (le64_inj h) hi hi'

theorem word32_inj {m m' : Mem Byte} {p : ℤ} (h : word32 m p = word32 m' p) {i : ℤ}
    (hi : p ≤ i) (hi' : i < p + 4) : m i = m' i :=
  eq_of_read (le32_inj h) hi hi'

theorem word64_halves (m : Mem Byte) (p : ℤ) : word64 m p =
    (word32 m p).setWidth 64 ||| ((word32 m (p + 4)).setWidth 64 <<< 32) := by
  refine eq_of_bytes 8 fun j r hr => ?_
  have low := fun j : Fin 4 => getLsbD_le32 (fun i => m (p + i)) j hr
  have high := fun j : Fin 4 => getLsbD_le32 (fun i => m (p + 4 + i)) j hr
  unfold word64 word32
  rw [getLsbD_le64 _ j hr]
  simp only [BitVec.getLsbD_or, BitVec.getLsbD_shiftLeft, BitVec.getLsbD_setWidth]
  have l0 := low 0
  have l1 := low 1
  have l2 := low 2
  have l3 := low 3
  have h0 := high 0
  have h1 := high 1
  have h2 := high 2
  have h3 := high 3
  fin_cases j <;> simp at * <;> grind

theorem word64_shift {m m' : Mem Byte} {p q : ℤ}
    (h : ∀ i, 0 ≤ i → i < 8 → m (p + i) = m' (q + i)) : word64 m p = word64 m' q := by
  unfold word64
  congr 1
  funext i
  exact h _ (by omega) (by omega)

/-! ### Byte strings -/

/-- A byte string as a memory, from address `0` on. -/
def ofList (l : List Byte) : Mem Byte := fun i => if 0 ≤ i then l.getD i.toNat 0 else 0

/-- The bytes `0`, `1`, `2` and so on, `n` of them. -/
def ramp (n : ℕ) : List Byte := (List.range n).map (BitVec.ofNat 8)

theorem length_ramp (n : ℕ) : (ramp n).length = n := by simp [ramp]

theorem ofList_nat (l : List Byte) (i : ℕ) : ofList l i = l.getD i 0 := by simp [ofList]

theorem ofList_inj {a b : List Byte} (hl : a.length = b.length)
    (h : ∀ i : ℕ, i < a.length → ofList a i = ofList b i) : a = b := by
  refine List.ext_getElem hl fun i hi hi' => ?_
  have := h i hi
  rwa [ofList_nat, ofList_nat, List.getD_eq_getElem _ _ hi, List.getD_eq_getElem _ _ hi'] at this

theorem ofList_append_left {a b : List Byte} {i : ℤ} (hi : i < a.length) :
    ofList (a ++ b) i = ofList a i := by
  unfold ofList
  split_ifs with h
  · exact List.getD_append _ _ _ _ (by omega)
  · rfl

theorem ofList_append_right {a b : List Byte} {i : ℤ} (hi : 0 ≤ i) :
    ofList (a ++ b) (a.length + i) = ofList b i := by
  unfold ofList
  rw [if_pos (by omega), if_pos hi, List.getD_append_right _ _ _ _ (by omega)]
  congr 1
  omega

/-- The bytes of a list of words. -/
def store64 (ws : List (BitVec 64)) : List Byte :=
  ws.flatMap fun x => (List.range 8).map (byteOf x)

theorem length_bytes (x : BitVec 64) : ((List.range 8).map (byteOf x)).length = 8 := by
  rw [List.length_map, List.length_range]

theorem word64_bytes (x : BitVec 64) (bs : List Byte) :
    word64 (ofList ((List.range 8).map (byteOf x) ++ bs)) 0 = x := by
  rw [← le64_bytes x, word64]
  congr 1
  funext i
  have hi : (i : ℤ) < ((List.range 8).map (byteOf x)).length := by
    rw [length_bytes]
    exact_mod_cast i.isLt
  rw [le64_bytes, zero_add, ofList_append_left hi, ofList_nat,
    List.getD_eq_getElem _ _ (by exact_mod_cast hi), List.getElem_map, List.getElem_range]

theorem word64_store64 (ws : List (BitVec 64)) : ∀ j : ℕ, j < ws.length →
    word64 (ofList (store64 ws)) (8 * j) = ws.getD j 0 := by
  induction ws with
  | nil =>
    intro j h
    exact absurd h (Nat.not_lt_zero j)
  | cons x ws ih =>
    intro j h
    have hx : store64 (x :: ws) = (List.range 8).map (byteOf x) ++ store64 ws := rfl
    rw [hx]
    cases j with
    | zero => exact word64_bytes x _
    | succ j =>
      rw [List.getD_cons_succ, ← ih j (Nat.lt_of_succ_lt_succ h)]
      refine word64_shift fun i hi _ => ?_
      have hright := ofList_append_right (a := (List.range 8).map (byteOf x)) (b := store64 ws)
        (i := 8 * j + i) (by omega)
      rw [length_bytes] at hright
      rw [← hright]
      congr 1
      push_cast
      omega

end Hayahash.Lib.Bytes
