import Hayahash.Lib.Bytes
import Hayahash.Lib.Checked

/-! # Byte arrays with bounds

Arrays are lists of bytes. A `View` is a range of an array, the way a slice or a span is one, or an
array with an offset and a length; `View.bytes` are the bytes in it. Reading outside a view, taking
a part that is none and copying where there is no room are faults. -/

namespace Hayahash.Lib.Arrays

open Hayahash.Lib.ReadProg Hayahash.Lib.Bytes Hayahash.Lib.Checked

/-- `len` bytes of `data` from `off` on. -/
structure View where
  data : List Byte
  off : ℤ
  len : ℤ
deriving DecidableEq, Repr

namespace View

/-- The whole of an array. -/
def all (xs : List Byte) : View := ⟨xs, 0, xs.length⟩

/-- The view lies inside its array. -/
structure Valid (v : View) : Prop where
  off : 0 ≤ v.off
  len : 0 ≤ v.len
  fin : v.off + v.len ≤ v.data.length

/-- The bytes in view. -/
def bytes (v : View) : List Byte := (v.data.drop v.off.toNat).take v.len.toNat

variable {v : View}

theorem all_valid (xs : List Byte) : (all xs).Valid :=
  ⟨le_rfl, by simp [all], by simp [all]⟩

@[simp] theorem all_bytes (xs : List Byte) : (all xs).bytes = xs := by simp [all, bytes]

theorem Valid.length_bytes (h : v.Valid) : (v.bytes.length : ℤ) = v.len := by
  have hoff := h.off
  have hlen := h.len
  have hfin := h.fin
  simp only [bytes, List.length_take, List.length_drop]
  omega

theorem Valid.byte (h : v.Valid) {i : ℤ} (h0 : 0 ≤ i) (hi : i < v.len) :
    ofList v.bytes i = ofList v.data (v.off + i) := by
  obtain ⟨i, rfl⟩ := Int.eq_ofNat_of_zero_le h0
  obtain ⟨o, ho⟩ := Int.eq_ofNat_of_zero_le h.off
  have hpos : v.off + (i : ℤ) = (o + i : ℕ) := by omega
  have hone : o = v.off.toNat := by omega
  rw [hpos, ofList_nat, ofList_nat, bytes, hone, List.getD_eq_getElem?_getD,
    List.getD_eq_getElem?_getD, List.getElem?_take_of_lt (by omega), List.getElem?_drop]

/-! ### Parts -/

/-- The part from `a` to `b`. -/
def part (v : View) (a b : ℤ) : Chk View :=
  if 0 ≤ a ∧ a ≤ b ∧ b ≤ v.len then pure ⟨v.data, v.off + a, b - a⟩ else throw .bounds

/-- What is left of a view after `k` bytes. -/
def dropped (v : View) (k : ℤ) : View := ⟨v.data, v.off + k, v.len - k⟩

theorem part_eq {a b : ℤ} (h0 : 0 ≤ a) (h : a ≤ b) (h1 : b ≤ v.len) :
    v.part a b = pure ⟨v.data, v.off + a, b - a⟩ := if_pos ⟨h0, h, h1⟩

theorem Valid.dropped (h : v.Valid) {k : ℤ} (h0 : 0 ≤ k) (hk : k ≤ v.len) :
    (v.dropped k).Valid := by
  have hoff := h.off
  have hfin := h.fin
  exact ⟨by simp only [View.dropped]; omega, by simp only [View.dropped]; omega,
    by simp only [View.dropped]; omega⟩

theorem Valid.bytes_dropped (h : v.Valid) {k : ℕ} :
    (v.dropped k).bytes = v.bytes.drop k := by
  have hoff := h.off
  have hlen := h.len
  have hnext : (v.off + (k : ℤ)).toNat = v.off.toNat + k := by omega
  have hrest : (v.len - (k : ℤ)).toNat = v.len.toNat - k := by omega
  simp only [bytes, View.dropped, hnext, hrest, List.drop_take, List.drop_drop]

/-! ### Reading -/

/-- The byte at `i`. -/
def get (v : View) (i : ℤ) : Chk Byte :=
  if 0 ≤ i ∧ i < v.len then pure (ofList v.data (v.off + i)) else throw .bounds

/-- The eight bytes at `i`, as a little-endian word. -/
def read64 (v : View) (i : ℤ) : Chk (BitVec 64) :=
  if 0 ≤ i ∧ i + 8 ≤ v.len then pure (word64 (ofList v.data) (v.off + i)) else throw .bounds

/-- The four bytes at `i`, as a little-endian half word. -/
def read32 (v : View) (i : ℤ) : Chk (BitVec 32) :=
  if 0 ≤ i ∧ i + 4 ≤ v.len then pure (word32 (ofList v.data) (v.off + i)) else throw .bounds

theorem get_eq {i : ℤ} (h0 : 0 ≤ i) (hi : i < v.len) :
    v.get i = pure (ofList v.data (v.off + i)) := if_pos ⟨h0, hi⟩

theorem read64_eq {i : ℤ} (h0 : 0 ≤ i) (hi : i + 8 ≤ v.len) :
    v.read64 i = pure (word64 (ofList v.data) (v.off + i)) := if_pos ⟨h0, hi⟩

theorem read32_eq {i : ℤ} (h0 : 0 ≤ i) (hi : i + 4 ≤ v.len) :
    v.read32 i = pure (word32 (ofList v.data) (v.off + i)) := if_pos ⟨h0, hi⟩

/-- What is left from `i` on. -/
def suffix (v : View) (i : ℤ) : Chk View := v.part i v.len

theorem suffix_eq {i : ℤ} (h0 : 0 ≤ i) (hi : i ≤ v.len) : v.suffix i = pure (v.dropped i) :=
  part_eq h0 hi le_rfl

theorem suffix_part {i n : ℤ} (h0 : 0 ≤ i) (h1 : 0 ≤ n) (h : i + n ≤ v.len) :
    (do (← v.suffix i).part 0 n) = v.part i (i + n) := by
  have hlen : i + n - i = n := by omega
  rw [suffix_eq h0 (by omega), pure_bind, part_eq le_rfl h1 (by simp only [View.dropped]; omega),
    part_eq h0 (by omega) h]
  simp only [View.dropped, add_zero, sub_zero, hlen]

theorem part_read64 {i : ℤ} (h0 : 0 ≤ i) (hi : i + 8 ≤ v.len) :
    (do (← v.part i (i + 8)).read64 0) = v.read64 i := by
  rw [part_eq h0 (by omega) hi, pure_bind, read64_eq le_rfl (by dsimp only; omega), read64_eq h0 hi]
  simp only [add_zero]

theorem part_read32 {i : ℤ} (h0 : 0 ≤ i) (hi : i + 4 ≤ v.len) :
    (do (← v.part i (i + 4)).read32 0) = v.read32 i := by
  rw [part_eq h0 (by omega) hi, pure_bind, read32_eq le_rfl (by dsimp only; omega), read32_eq h0 hi]
  simp only [add_zero]

theorem suffix_read64 {i : ℤ} (h0 : 0 ≤ i) (hi : i + 8 ≤ v.len) :
    (do (← v.suffix i).read64 0) = v.read64 i := by
  rw [suffix_eq h0 (by omega), pure_bind, read64_eq le_rfl, read64_eq h0 hi]
  · simp only [View.dropped, add_zero]
  · simp only [View.dropped]
    omega

theorem suffix_read32 {i : ℤ} (h0 : 0 ≤ i) (hi : i + 4 ≤ v.len) :
    (do (← v.suffix i).read32 0) = v.read32 i := by
  rw [suffix_eq h0 (by omega), pure_bind, read32_eq le_rfl, read32_eq h0 hi]
  · simp only [View.dropped, add_zero]
  · simp only [View.dropped]
    omega

/-! What is read is in the bytes of the view. -/

theorem Valid.read64 (h : v.Valid) {i : ℤ} (h0 : 0 ≤ i) (hi : i + 8 ≤ v.len) :
    v.read64 i = pure (word64 (ofList v.bytes) i) := by
  rw [read64_eq h0 hi]
  refine congrArg pure (word64_shift fun j hj hj' => ?_)
  rw [add_assoc, h.byte (by omega) (by omega)]

theorem Valid.read32 (h : v.Valid) {i : ℤ} (h0 : 0 ≤ i) (hi : i + 4 ≤ v.len) :
    v.read32 i = pure (word32 (ofList v.bytes) i) := by
  rw [read32_eq h0 hi]
  refine congrArg pure (congrArg le32 (funext fun j => ?_))
  rw [add_assoc, h.byte (by omega) (by omega)]

theorem Valid.get (h : v.Valid) {i : ℤ} (h0 : 0 ≤ i) (hi : i < v.len) :
    v.get i = pure (ofList v.bytes i) := by
  rw [get_eq h0 hi, h.byte h0 hi]

end View

/-! ### Copying -/

/-- The array `dst` with `src` from `pos` on. -/
def spliced (dst : List Byte) (pos : ℕ) (src : List Byte) : List Byte :=
  dst.take pos ++ src ++ dst.drop (pos + src.length)

/-- Copy `src` into `dst`, from `pos` on. -/
def blit (dst : List Byte) (pos : ℤ) (src : List Byte) : Chk (List Byte) :=
  if 0 ≤ pos ∧ pos + src.length ≤ dst.length then pure (spliced dst pos.toNat src)
  else throw .bounds

/-- `k` bytes of an array from `src + i` on move to `i`, one by one and from the front. -/
def moveForwards (I : Ints) (src : ℤ) : ℕ → ℤ → List Byte → Chk (List Byte)
  | 0, _, xs => pure xs
  | k + 1, i, xs => do
    let b ← (View.all xs).get (← I.add src i)
    let xs ← blit xs i [b]
    moveForwards I src k (i + 1) xs

section Copying
variable {dst src : List Byte} {pos : ℕ}

theorem blit_eq (h : pos + src.length ≤ dst.length) :
    blit dst pos src = pure (spliced dst pos src) :=
  if_pos ⟨by omega, by omega⟩

theorem length_spliced (h : pos + src.length ≤ dst.length) :
    (spliced dst pos src).length = dst.length := by
  simp only [spliced, List.length_append, List.length_take, List.length_drop]
  omega

theorem take_spliced (h : pos ≤ dst.length) :
    (spliced dst pos src).take (pos + src.length) = dst.take pos ++ src := by
  have hlen : (dst.take pos ++ src).length = pos + src.length := by
    rw [List.length_append, List.length_take, Nat.min_eq_left h]
  rw [spliced, ← hlen, List.take_left]

theorem spliced_zero (dst src : List Byte) :
    spliced dst 0 src = src ++ dst.drop src.length := by
  simp [spliced]

theorem moveForwards_from {I : Ints} {xs : List Byte} {src : ℕ} (hI : I.Upto xs.length) :
    ∀ (k i : ℕ), src + (i + k) ≤ xs.length →
    moveForwards I src k i ((xs.drop src).take i ++ xs.drop i) =
      pure ((xs.drop src).take (i + k) ++ xs.drop (i + k)) := by
  intro k
  induction k with
  | zero => intro i _; rfl
  | succ k ih =>
    intro i h
    have hmoved : ((xs.drop src).take i).length = i := by
      rw [List.length_take, List.length_drop]
      omega
    have hlen : ((xs.drop src).take i ++ xs.drop i).length = xs.length := by
      rw [List.length_append, hmoved, List.length_drop]
      omega
    -- what is read is not moved yet
    have hread : ofList ((xs.drop src).take i ++ xs.drop i) ((src + i : ℕ) : ℤ) =
        xs.getD (src + i) 0 := by
      rw [ofList_nat, List.getD_eq_getElem?_getD, List.getD_eq_getElem?_getD,
        List.getElem?_append_right (by omega), hmoved, List.getElem?_drop]
      congr 2
      omega
    have hnext : (xs.drop src).take (i + 1) = (xs.drop src).take i ++ [xs.getD (src + i) 0] := by
      rw [List.take_add_one, List.getElem?_drop, List.getElem?_eq_getElem (by omega),
        List.getD_eq_getElem _ _ (by omega), Option.toList_some]
    have hput : spliced ((xs.drop src).take i ++ xs.drop i) i [xs.getD (src + i) 0] =
        (xs.drop src).take (i + 1) ++ xs.drop (i + 1) := by
      have hdrop : ((xs.drop src).take i ++ xs.drop i).drop (i + 1) = xs.drop (i + 1) := by
        rw [List.drop_append, hmoved, Nat.add_sub_cancel_left, List.drop_drop,
          List.drop_eq_nil_of_le (by omega), List.nil_append]
      rw [spliced, List.length_singleton, hdrop, List.take_left' hmoved, hnext]
    have hpos : (src : ℤ) + i = (src + i : ℕ) := by push_cast; rfl
    have hone : (i : ℤ) + 1 = (i + 1 : ℕ) := by push_cast; rfl
    have hsum : i + (k + 1) = i + 1 + k := by omega
    unfold moveForwards
    rw [hI.add (by omega) (by omega), pure_bind,
      View.get_eq (by omega) (by simp only [View.all, hlen]; omega), pure_bind]
    simp only [View.all, zero_add]
    rw [hpos, hread, blit_eq (by rw [hlen, List.length_singleton]; omega), pure_bind, hput, hone,
      hsum]
    exact ih (i + 1) (by omega)

/-- **Moving down byte by byte** is moving down. -/
theorem moveForwards_eq {I : Ints} {xs : List Byte} {src len : ℕ} (hI : I.Upto xs.length)
    (h : src + len ≤ xs.length) :
    moveForwards I src len 0 xs = pure (spliced xs 0 ((xs.drop src).take len)) := by
  have hmoved : ((xs.drop src).take len).length = len := by
    rw [List.length_take, List.length_drop]
    omega
  have hfit : src + (0 + len) ≤ xs.length := by omega
  have hfrom := moveForwards_from hI len 0 hfit
  rw [List.take_zero, List.nil_append, List.drop_zero, Nat.zero_add] at hfrom
  rw [spliced_zero, hmoved]
  exact hfrom

end Copying

/-! ### Regions -/

/-- The `n` bytes of an array from `p` on. -/
def region (xs : List Byte) (p n : ℕ) : List Byte := (xs.drop p).take n

section Regions
variable {xs src : List Byte} {p q n : ℕ}

theorem length_region (h : p + n ≤ xs.length) : (region xs p n).length = n := by
  rw [region, List.length_take, List.length_drop]
  omega

theorem region_spliced (h : p ≤ xs.length) : region (spliced xs p src) p src.length = src := by
  have hfront : (xs.take p).length = p := by rw [List.length_take, Nat.min_eq_left h]
  rw [region, spliced, List.append_assoc, List.drop_left' hfront, List.take_left]

/-- **A copy leaves what is elsewhere.** -/
theorem region_spliced_apart (h : p ≤ xs.length) (hq : q + n ≤ p ∨ p + src.length ≤ q) :
    region (spliced xs p src) q n = region xs q n := by
  have hfront : (xs.take p).length = p := by rw [List.length_take, Nat.min_eq_left h]
  unfold region spliced
  rcases hq with hq | hq
  · rw [List.append_assoc, List.drop_append_of_le_length (by omega),
      List.take_append_of_le_length (by rw [List.length_drop]; omega), List.drop_take,
      List.take_take, Nat.min_eq_left (by omega)]
  · have hlen : (xs.take p ++ src).length = p + src.length := by rw [List.length_append, hfront]
    have hpos : p + src.length + (q - (p + src.length)) = q := by omega
    rw [List.drop_append, List.drop_eq_nil_of_le (by omega), List.nil_append, hlen,
      List.drop_drop, hpos]

theorem word64_region {i : ℕ} (hi : i + 8 ≤ n) (h : p + n ≤ xs.length) :
    word64 (ofList (region xs p n)) i = word64 (ofList xs) (p + i : ℕ) := by
  have hv : View.Valid ⟨xs, p, n⟩ :=
    ⟨by dsimp only; omega, by dsimp only; omega, by dsimp only; omega⟩
  refine word64_shift fun j h0 h1 => ?_
  have hbyte := hv.byte (i := i + j) (by omega) (by dsimp only; omega)
  rw [Nat.cast_add, add_assoc]
  exact hbyte

end Regions

end Hayahash.Lib.Arrays
