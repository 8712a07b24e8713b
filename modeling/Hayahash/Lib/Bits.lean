import Mathlib.Data.BitVec
import Mathlib.Data.Int.GCD
import Mathlib.Data.Nat.Prime.Basic
import Mathlib.Logic.Function.Iterate

/-! # Words: invertible multiplications, xor-shifts and xors of rotations

The maps on words of `w` bits that mixers are made of, each with the reason it loses nothing.

* `mul_bijective_iff`: multiplication by an odd word, which is one with an inverse.
* `xorShift_bijective`: `x ^ (x >> n)` for `n > 0`. Two rounds of shift `n` are one round of shift
  `2 n` (`xorShift_xorShift`), so `2 ^ k` rounds are the identity once `2 ^ k * n ≥ w`.
* `rotXor_bijective_iff`: the xor of the rotations of a word by the amounts `as` is bijective
  exactly when their number is odd, for `w` a power of two. Over `𝔽₂` the rotations commute, so
  squaring doubles every amount (`rotXor_rotXor`), and `w` rounds rotate by multiples of `w`. -/

namespace Hayahash.Lib.Bits

open Function

variable {w : ℕ}

/-- A map some iterate of which is the identity is bijective. -/
theorem bijective_of_iterate {α : Type} {f : α → α} {n : ℕ} (hn : 0 < n) (h : f^[n] = id) :
    Bijective f := by
  obtain ⟨n, rfl⟩ : ∃ k, n = k + 1 := ⟨n - 1, by omega⟩
  refine bijective_iff_has_inverse.mpr ⟨f^[n], fun x => ?_, fun x => ?_⟩
  · exact (iterate_succ_apply f n x).symm.trans (congrFun h x)
  · exact (iterate_succ_apply' f n x).symm.trans (congrFun h x)

/-- A map whose square on `p` is the map on `2 p`, iterated `2 ^ k` times. -/
theorem iterate_two_pow {α : Type} {f : ℕ → α → α} (h : ∀ n x, f n (f n x) = f (2 * n) x) (n : ℕ) :
    ∀ k, (f n)^[2 ^ k] = f (2 ^ k * n)
  | 0 => by simp
  | k + 1 => by
    have h2 : (f (2 ^ k * n))^[2] = f (2 * (2 ^ k * n)) := funext fun x => h _ x
    rw [Nat.pow_succ, iterate_mul, iterate_two_pow h n k, h2]
    rw [← Nat.mul_assoc, Nat.mul_comm 2]

/-! ### Multiplication, xor and addition by a fixed word -/

theorem mul_bijective {k k' : BitVec w} (h : k * k' = 1) : Bijective fun x : BitVec w => x * k :=
  bijective_iff_has_inverse.mpr ⟨fun x => x * k', fun x => by simp [mul_assoc, h],
    fun x => by simp [mul_assoc, mul_comm k' k, h]⟩

/-- The odd words are the ones with an inverse. -/
theorem exists_mul_eq_one {k : BitVec w} (hk : k.toNat % 2 = 1) : ∃ k', k * k' = 1 := by
  rcases Nat.eq_zero_or_pos w with rfl | hw
  · exact ⟨0, Subsingleton.elim _ _⟩
  have h1 : 1 < 2 ^ w := Nat.one_lt_two_pow hw.ne'
  have htwo : Nat.Coprime k.toNat 2 := Nat.coprime_two_right.mpr (Nat.odd_iff.mpr hk)
  obtain ⟨c, -, hc⟩ := Nat.exists_mul_mod_eq_one_of_coprime (htwo.pow_right w) h1
  refine ⟨BitVec.ofNat w c, BitVec.eq_of_toNat_eq ?_⟩
  rw [BitVec.toNat_mul, BitVec.toNat_ofNat, Nat.mul_mod_mod, hc]
  exact (BitVec.toNat_one hw).symm

/-- **Multiplications**: invertible exactly when the factor is odd. -/
theorem mul_bijective_iff (hw : 0 < w) (k : BitVec w) :
    Bijective (fun x : BitVec w => x * k) ↔ k.toNat % 2 = 1 := by
  constructor
  · intro h
    by_contra hne
    -- an even factor takes the top bit out of the word
    obtain ⟨c, hc⟩ : ∃ c, k.toNat = 2 * c := ⟨k.toNat / 2, by omega⟩
    obtain ⟨v, rfl⟩ : ∃ v, w = v + 1 := ⟨w - 1, by omega⟩
    have htop : BitVec.twoPow (v + 1) v * k = 0#(v + 1) * k := by
      refine BitVec.eq_of_toNat_eq ?_
      rw [BitVec.toNat_mul, BitVec.toNat_twoPow_of_lt (by omega), hc, BitVec.zero_mul,
        BitVec.toNat_zero, ← Nat.mul_assoc, ← Nat.pow_succ, Nat.mul_mod_right]
    have hzero := congrArg BitVec.toNat (h.1 htop)
    rw [BitVec.toNat_twoPow_of_lt (by omega), BitVec.toNat_zero] at hzero
    exact absurd hzero (Nat.two_pow_pos v).ne'
  · intro hk
    obtain ⟨k', hk'⟩ := exists_mul_eq_one hk
    exact mul_bijective hk'

theorem xor_bijective (t : BitVec w) : Bijective fun x : BitVec w => x ^^^ t :=
  have hinv : ∀ x, x ^^^ t ^^^ t = x := fun x => by
    rw [BitVec.xor_assoc, BitVec.xor_self, BitVec.xor_zero]
  bijective_iff_has_inverse.mpr ⟨fun x => x ^^^ t, hinv, hinv⟩

theorem add_bijective (t : BitVec w) : Bijective fun x : BitVec w => x + t :=
  bijective_iff_has_inverse.mpr ⟨fun x => x - t, fun x => by simp, fun x => by simp⟩

/-! ### Xor-shift -/

/-- Xor with the word shifted right by `n`. -/
def xorShift (n : ℕ) (x : BitVec w) : BitVec w := x ^^^ (x >>> n)

theorem xorShift_xorShift (n : ℕ) (x : BitVec w) :
    xorShift n (xorShift n x) = xorShift (2 * n) x := by
  unfold xorShift
  ext i hi
  have htwice : n + (n + i) = 2 * n + i := by omega
  simp only [BitVec.getElem_xor, BitVec.getElem_ushiftRight, BitVec.getLsbD_xor,
    BitVec.getLsbD_ushiftRight, htwice]
  cases x[i] <;> cases x.getLsbD (n + i) <;> simp

theorem xorShift_of_le {n : ℕ} (h : w ≤ n) (x : BitVec w) : xorShift n x = x := by
  simp [xorShift, BitVec.ushiftRight_eq_zero h]

theorem xorShift_bijective {n : ℕ} (hn : 0 < n) : Bijective (xorShift n : BitVec w → BitVec w) := by
  refine bijective_of_iterate (n := 2 ^ w) (Nat.two_pow_pos w) ?_
  rw [iterate_two_pow xorShift_xorShift]
  have hw : w ≤ 2 ^ w * n := Nat.le_trans Nat.lt_two_pow_self.le (Nat.le_mul_of_pos_right _ hn)
  exact funext fun x => xorShift_of_le hw x

/-! ### Rotations -/

/-- Bit `i` of a rotated word, by its place before the rotation. -/
theorem getLsbD_rotateLeft_mod (x : BitVec w) (r : ℕ) {i : ℕ} (hi : i < w) :
    (x.rotateLeft r).getLsbD i = x.getLsbD ((i + (w - r % w)) % w) := by
  have hr : r % w < w := Nat.mod_lt _ (by omega)
  rw [BitVec.getLsbD_rotateLeft]
  by_cases h : i < r % w
  · rw [Nat.mod_eq_of_lt (by omega : i + (w - r % w) < w)]
    simp [h, Nat.add_comm]
  · have hwrap : i + (w - r % w) = i - r % w + w := by omega
    rw [hwrap, Nat.add_mod_right, Nat.mod_eq_of_lt (by omega : i - r % w < w)]
    simp [h, hi]

theorem rotateLeft_xor (x y : BitVec w) (r : ℕ) :
    (x ^^^ y).rotateLeft r = x.rotateLeft r ^^^ y.rotateLeft r := by
  refine BitVec.eq_of_getLsbD_eq fun i hi => ?_
  simp only [BitVec.getLsbD_xor, getLsbD_rotateLeft_mod _ _ hi]

theorem rotateLeft_rotateLeft (x : BitVec w) (a b : ℕ) :
    (x.rotateLeft a).rotateLeft b = x.rotateLeft (a + b) := by
  refine BitVec.eq_of_getLsbD_eq fun i hi => ?_
  have hw : 0 < w := by omega
  have ha : a % w < w := Nat.mod_lt _ hw
  have hb : b % w < w := Nat.mod_lt _ hw
  rw [getLsbD_rotateLeft_mod _ _ hi, getLsbD_rotateLeft_mod _ _ (Nat.mod_lt _ hw),
    getLsbD_rotateLeft_mod _ _ hi, Nat.mod_add_mod]
  congr 1
  -- both indices are `i - a - b` modulo `w`
  by_cases h : a % w + b % w < w
  · have hwrap : i + (w - b % w) + (w - a % w) = i + (w - (a % w + b % w)) + w := by omega
    rw [Nat.add_mod a b w, Nat.mod_eq_of_lt h, hwrap, Nat.add_mod_right]
  · rw [Nat.add_mod a b w, Nat.mod_eq_sub_mod (by omega : a % w + b % w ≥ w),
      Nat.mod_eq_of_lt (by omega : a % w + b % w - w < w)]
    congr 1
    omega

theorem rotateLeft_mul_width (x : BitVec w) (a : ℕ) : x.rotateLeft (a * w) = x := by
  rw [← BitVec.rotateLeft_mod_eq_rotateLeft, Nat.mul_mod_left]
  refine BitVec.eq_of_getLsbD_eq fun i hi => ?_
  rw [getLsbD_rotateLeft_mod _ _ hi]
  simp [Nat.mod_eq_of_lt hi]

theorem rotateLeft_bijective (a : ℕ) : Bijective fun x : BitVec w => x.rotateLeft a := by
  rcases Nat.eq_zero_or_pos w with rfl | hw
  · exact ⟨fun x y _ => Subsingleton.elim x y, fun y => ⟨y, Subsingleton.elim _ _⟩⟩
  have hinv : ∀ b c : ℕ, b + c = a % w + (w - a % w) → ∀ x : BitVec w,
      (x.rotateLeft b).rotateLeft c = x := by
    intro b c h x
    have hlt : a % w < w := Nat.mod_lt _ hw
    have hfull : a % w + (w - a % w) = 1 * w := by omega
    rw [rotateLeft_rotateLeft, h, hfull, rotateLeft_mul_width]
  refine bijective_iff_has_inverse.mpr ⟨fun x => x.rotateLeft (w - a % w), fun x => ?_, fun x => ?_⟩
  · show (x.rotateLeft a).rotateLeft (w - a % w) = x
    rw [← BitVec.rotateLeft_mod_eq_rotateLeft (r := a)]
    exact hinv _ _ rfl x
  · show (x.rotateLeft (w - a % w)).rotateLeft a = x
    rw [← BitVec.rotateLeft_mod_eq_rotateLeft (r := a)]
    exact hinv _ _ (Nat.add_comm _ _) x

/-! ### Xor of rotations -/

/-- The xor of the rotations of a word by the amounts `as`. -/
def rotXor (as : List ℕ) (x : BitVec w) : BitVec w :=
  as.foldr (fun a acc => x.rotateLeft a ^^^ acc) 0#w

@[simp] theorem rotXor_nil (x : BitVec w) : rotXor [] x = 0#w := rfl

@[simp] theorem rotXor_cons (a : ℕ) (as : List ℕ) (x : BitVec w) :
    rotXor (a :: as) x = x.rotateLeft a ^^^ rotXor as x := rfl

theorem rotXor_xor : ∀ (as : List ℕ) (x y : BitVec w),
    rotXor as (x ^^^ y) = rotXor as x ^^^ rotXor as y
  | [], x, y => by simp
  | a :: as, x, y => by
    simp only [rotXor_cons, rotXor_xor as, rotateLeft_xor]
    ac_rfl

theorem rotXor_rotateLeft : ∀ (as : List ℕ) (x : BitVec w) (b : ℕ),
    rotXor as (x.rotateLeft b) = (rotXor as x).rotateLeft b
  | [], x, b => by simp [BitVec.rotateLeft_def]
  | a :: as, x, b => by
    simp only [rotXor_cons, rotXor_rotateLeft as, rotateLeft_xor, rotateLeft_rotateLeft,
      Nat.add_comm]

/-- Squaring doubles the amounts: the cross terms come in equal pairs. -/
theorem rotXor_rotXor : ∀ (as : List ℕ) (x : BitVec w),
    rotXor as (rotXor as x) = rotXor (as.map (2 * ·)) x
  | [], x => rfl
  | a :: as, x => by
    have h : rotXor as (rotXor (a :: as) x) = (rotXor as x).rotateLeft a ^^^
        rotXor (as.map (2 * ·)) x := by
      rw [rotXor_cons, rotXor_xor, rotXor_rotateLeft, rotXor_rotXor as]
    rw [rotXor_cons, h, rotXor_cons, rotateLeft_xor, rotateLeft_rotateLeft, List.map_cons,
      rotXor_cons, ← Nat.two_mul, BitVec.xor_assoc,
      ← BitVec.xor_assoc ((rotXor as x).rotateLeft a), BitVec.xor_self, BitVec.zero_xor]

theorem rotXor_iterate (as : List ℕ) : ∀ k,
    (rotXor as : BitVec w → BitVec w)^[2 ^ k] = rotXor (as.map (2 ^ k * ·))
  | 0 => by simp
  | k + 1 => by
    have h2 : (rotXor (as.map (2 ^ k * ·)) : BitVec w → BitVec w)^[2] =
        rotXor ((as.map (2 ^ k * ·)).map (2 * ·)) := funext fun x => rotXor_rotXor _ x
    rw [Nat.pow_succ, iterate_mul, rotXor_iterate as k, h2, List.map_map]
    congr 2
    funext a
    simp only [comp_apply]
    rw [← Nat.mul_assoc, Nat.mul_comm 2]

/-- An even number of copies of a word cancel, an odd number leave one. -/
theorem rotXor_width (x : BitVec w) : ∀ as : List ℕ,
    rotXor (as.map (w * ·)) x = if as.length % 2 = 1 then x else 0#w
  | [] => by simp
  | a :: as => by
    rw [List.map_cons, rotXor_cons, Nat.mul_comm, rotateLeft_mul_width, rotXor_width x as,
      List.length_cons]
    rcases Nat.mod_two_eq_zero_or_one as.length with h | h
    · rw [if_neg (by omega), if_pos (by omega), BitVec.xor_zero]
    · rw [if_pos h, if_neg (by omega), BitVec.xor_self]

theorem rotXor_bijective {k : ℕ} (hw : w = 2 ^ k) {as : List ℕ} (has : as.length % 2 = 1) :
    Bijective (rotXor as : BitVec w → BitVec w) := by
  refine bijective_of_iterate (n := 2 ^ k) (Nat.two_pow_pos k) ?_
  rw [rotXor_iterate, ← hw]
  funext x
  rw [rotXor_width, if_pos has, id]

/-- **Xors of rotations**: invertible exactly when the number of terms is odd. -/
theorem rotXor_bijective_iff {k : ℕ} (hw : w = 2 ^ k) (as : List ℕ) :
    Bijective (rotXor as : BitVec w → BitVec w) ↔ as.length % 2 = 1 := by
  refine ⟨fun h => ?_, rotXor_bijective hw⟩
  by_contra hne
  have himg : (rotXor as)^[2 ^ k] 1#w = (rotXor as)^[2 ^ k] 0#w := by
    rw [rotXor_iterate, ← hw, rotXor_width, rotXor_width, if_neg hne, if_neg hne]
  have hit : 1#w = 0#w := h.1.iterate (2 ^ k) himg
  have hpos : 0 < w := hw ▸ Nat.two_pow_pos k
  have h1 := congrArg BitVec.toNat hit
  rw [BitVec.toNat_ofNat, BitVec.toNat_ofNat, Nat.mod_eq_of_lt (Nat.one_lt_two_pow hpos.ne')] at h1
  simp at h1

end Hayahash.Lib.Bits
