import Hayahash.Lib.Bits
import Hayahash.C.Primitives

/-! # The mixers lose nothing

The constants are odd, so multiplying by them can be undone; with the xor-shifts and the xors of an
odd number of rotations of `Lib.Bits` every finalizer and both injections are bijections on words.
So are the two ways a word enters a lane, as maps of the lane. -/

namespace Hayahash.C.Mixers

open Function Hayahash.Lib.Bits Hayahash.C.Primitives

theorem K_mul_inv : K * 0xF1DE83E19937733D#64 = 1 := by decide

theorem M1_mul_inv : M1 * 0xC09C5FE5BD6DFDDB#64 = 1 := by decide

theorem M2_mul_inv : M2 * 0xC47C8F6B6BAFB41D#64 = 1 := by decide

theorem N1_mul_inv : N1 * 0x4F74430C22A54005#64 = 1 := by decide

theorem N2_mul_inv : N2 * 0x9CB4B2F8129337DB#64 = 1 := by decide

/-- The multiplier keeps a difference in the top bit alone. -/
theorem top_mul_K : BitVec.twoPow 64 63 * K = BitVec.twoPow 64 63 := by decide

/-! ### Rotations -/

theorem rotateLeft_zero (w : Word) : w.rotateLeft 0 = w := by
  simpa using rotateLeft_mul_width w 0

theorem rotl_eq {n : ℕ} (hn : n < 64) (x : Word) : rotl x n = x.rotateLeft n := by
  rcases Nat.eq_zero_or_pos n with rfl | hpos
  · simp [rotl, rotateLeft_zero]
  · have hsub : 64 - n < 64 := by omega
    rw [rotl, BitVec.rotateLeft_def, Nat.mod_eq_of_lt hn, Nat.mod_eq_of_lt hsub]

theorem rotl_bijective {n : ℕ} (hn : n < 64) : Bijective fun x => rotl x n := by
  simp only [rotl_eq hn]
  exact rotateLeft_bijective n

theorem rotl_inj {n : ℕ} (hn : n < 64) {x y : Word} (h : rotl x n = rotl y n) : x = y :=
  (rotl_bijective hn).1 h

@[simp] theorem rotlProduct_eq (x : Word) (n : ℕ) : rotlProduct x n = rotl x n := rfl

@[simp] theorem rotl_zero (n : ℕ) : rotl 0#64 n = 0#64 := by simp [rotl]

/-! ### Injections -/

/-- The xor of the rotations of a word by the amounts `as`. -/
def xorRotl (as : List ℕ) (w : Word) : Word := as.foldr (fun a x => rotl w a ^^^ x) 0

theorem xorRotl_eq {as : List ℕ} (h : ∀ a ∈ as, a < 64) : xorRotl as = rotXor as := by
  funext w
  induction as with
  | nil => rfl
  | cons a as ih =>
    have hrest := ih fun b hb => h b (List.mem_cons_of_mem a hb)
    rw [rotXor_cons, ← hrest, ← rotl_eq (h a List.mem_cons_self)]
    rfl

/-- **An xor of rotations** loses nothing exactly when the number of its terms is odd. -/
theorem xorRotl_bijective_iff {as : List ℕ} (h : ∀ a ∈ as, a < 64) :
    Bijective (xorRotl as) ↔ as.length % 2 = 1 := by
  rw [xorRotl_eq h]
  exact rotXor_bijective_iff (k := 6) (by decide) as

theorem xor_rotl_rotl_bijective {a b : ℕ} (ha : a < 64) (hb : b < 64) :
    Bijective fun w : Word => w ^^^ rotl w a ^^^ rotl w b := by
  have hlt : ∀ c ∈ [0, a, b], c < 64 := by simp [ha, hb]
  have heq : (fun w : Word => w ^^^ rotl w a ^^^ rotl w b) = xorRotl [0, a, b] := by
    rw [xorRotl_eq hlt]
    funext w
    simp only [rotl_eq ha, rotl_eq hb, rotXor_cons, rotXor_nil, BitVec.xor_zero, rotateLeft_zero,
      BitVec.xor_assoc]
  rw [heq]
  exact (xorRotl_bijective_iff hlt).mpr (by simp)

theorem inj_bijective : Bijective inj :=
  xor_rotl_rotl_bijective (a := 21) (b := 41) (by decide) (by decide)

theorem inj2_bijective : Bijective inj2 :=
  xor_rotl_rotl_bijective (a := 11) (b := 50) (by decide) (by decide)

/-! ### Finalizers -/

theorem fmix_bijective : Bijective fmix :=
  (xorShift_bijective (n := 27) (by decide)).comp <| (mul_bijective M2_mul_inv).comp <|
    (xorShift_bijective (n := 33) (by decide)).comp <| (mul_bijective M1_mul_inv).comp <|
      xorShift_bijective (n := 27) (by decide)

theorem fmix128_bijective : Bijective fmix128 :=
  (xorShift_bijective (n := 33) (by decide)).comp <| (mul_bijective N2_mul_inv).comp <|
    (xorShift_bijective (n := 31) (by decide)).comp <| (mul_bijective N1_mul_inv).comp <|
      xorShift_bijective (n := 30) (by decide)

theorem longFmix_bijective_iff (k : Word) : (Bijective fun x => longFmix x k) ↔
    k.toNat % 2 = 1 := by
  rw [← mul_bijective_iff (by decide) k]
  have h32 : Bijective (xorShift 32 : Word → Word) := xorShift_bijective (by decide)
  have h37 : Bijective (xorShift 37 : Word → Word) := xorShift_bijective (by decide)
  have hcomp : (fun x => longFmix x k) = xorShift 32 ∘ (fun x => x * k) ∘ xorShift 37 := rfl
  rw [hcomp, Bijective.of_comp_iff' h32, Bijective.of_comp_iff _ h37]

theorem longFmix_bijective : Bijective fun x => longFmix x K :=
  (longFmix_bijective_iff K).mpr (by decide)

/-! ### Entering a lane -/

theorem stripe_bijective (x : Word) : Bijective fun h : Word => (h ^^^ x) * K :=
  (mul_bijective K_mul_inv).comp (xor_bijective x)

theorem tail_bijective (x : Word) : Bijective fun h : Word => (h + x) * K :=
  (mul_bijective K_mul_inv).comp (add_bijective x)

end Hayahash.C.Mixers
