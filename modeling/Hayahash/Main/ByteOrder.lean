import Hayahash.Main.Streaming
import Mathlib.Algebra.BigOperators.Fin

/-! # The byte order of the host

**`byte_order`**: on every host the loads return the little-endian number of the bytes, so every
hash and every run of the streaming interface answers the same on hosts of either byte order. -/

namespace Hayahash.Main.ByteOrder

open Hayahash.Lib.ReadProg Hayahash.Lib.Bytes Hayahash.C.Primitives Hayahash.C.Loads
open Hayahash.C.Oneshot Hayahash.C.Stream
open Hayahash.Spec.Stream Hayahash.Refine.Oneshot Hayahash.Refine.Update Hayahash.Main.Streaming

/-! ### The number of a word -/

theorem toNat_append_byte {w : ℕ} (x : BitVec w) (b : Byte) :
    (x ++ b).toNat = 256 * x.toNat + b.toNat := by
  rw [BitVec.toNat_append, ← Nat.shiftLeft_add_eq_or_of_lt b.isLt, Nat.shiftLeft_eq]
  omega

theorem toNat_le64 (b : Fin 8 → Byte) :
    (le64 b).toNat = ∑ i : Fin 8, (b i).toNat * 256 ^ (i : ℕ) := by
  unfold le64
  simp only [toNat_append_byte, Fin.sum_univ_eight]
  simp
  omega

theorem toNat_le32 (b : Fin 4 → Byte) :
    (le32 b).toNat = ∑ i : Fin 4, (b i).toNat * 256 ^ (i : ℕ) := by
  unfold le32
  simp only [toNat_append_byte, Fin.sum_univ_four]
  simp
  omega

variable {t : Target} {m : Mem Byte} {p : ℤ}

/-- **`load64le` returns the number of its eight bytes.** -/
theorem value_load64le (t : Target) (m : Mem Byte) (p : ℤ) : ∃ w, value m (load64le t p) = some w ∧
    w.val.toNat = ∑ i : Fin 8, (m (p + i)).toNat * 256 ^ (i : ℕ) := by
  refine ⟨⟨[⟨p, 8⟩], decode64 t.endian (m.read ⟨p, 8⟩)⟩, rfl, ?_⟩
  show (decode64 t.endian (m.read ⟨p, 8⟩)).toNat = _
  rw [decode64_eq, toNat_le64]
  rfl

/-- **`load32le` returns the number of its four bytes**, in the lower half of the word. -/
theorem value_load32le (t : Target) (m : Mem Byte) (p : ℤ) : ∃ w, value m (load32le t p) = some w ∧
    w.val.toNat = ∑ i : Fin 4, (m (p + i)).toNat * 256 ^ (i : ℕ) ∧ w.val.toNat < 2 ^ 32 := by
  have hle := toNat_le32 (m.read ⟨p, 4⟩)
  have hlt := (le32 (m.read ⟨p, 4⟩)).isLt
  have hval : (decode32 t.endian (m.read ⟨p, 4⟩)).toNat = (le32 (m.read ⟨p, 4⟩)).toNat := by
    rw [decode32_eq, BitVec.toNat_setWidth]
    exact Nat.mod_eq_of_lt (by omega)
  refine ⟨⟨[⟨p, 4⟩], decode32 t.endian (m.read ⟨p, 4⟩)⟩, rfl, ?_, ?_⟩
  · show (decode32 t.endian (m.read ⟨p, 4⟩)).toNat = _
    rw [hval, hle]
    rfl
  · show (decode32 t.endian (m.read ⟨p, 4⟩)).toNat < _
    omega

/-! ### The same calls on another host -/

/-- The host with another byte order. -/
def withOrder (t : Target) (e : Endian) : Target := { t with endian := e }

/-- The call on that host. Its objects are as long. -/
def onHost (e : Endian) : Call t → Call (withOrder t e)
  | .update64 c => .update64 ⟨c.bytes, c.fits⟩
  | .update128 c => .update128 ⟨c.bytes, c.fits⟩
  | .digest64 => .digest64
  | .digest128 => .digest128

theorem ask_onHost (e : Endian) (seed : Word) (xs : List Byte) (c : Call t) :
    ask seed xs (onHost e c) = ask seed xs c := by
  cases c with
  | update64 c => rfl
  | update128 c => rfl
  | digest64 => simp only [ask, onHost, (runs_hayahash64 _ _ _ seed).value_eq]
  | digest128 => simp only [ask, onHost, (runs_hayahash128 _ _ _ seed).value_eq]

theorem askAll_onHost (e : Endian) (seed : Word) (cs : List (Call t)) : ∀ xs : List Byte,
    askAll seed xs (cs.map (onHost e)) = askAll seed xs cs := by
  induction cs with
  | nil =>
    intro xs
    rfl
  | cons c cs ih =>
    intro xs
    simp only [List.map_cons, askAll, ask_onHost, ih]

/-- **A run of calls** answers the same on a host of either byte order. -/
theorem run_onHost (e : Endian) (st st' : State) (seed : Word) (cs : List (Call t)) :
    ∃ end₁ end₂ as, run (hayahash64Init st seed) cs = some (end₁, as) ∧
      run (hayahash64Init st' seed) (cs.map (onHost e)) = some (end₂, as) := by
  obtain ⟨end₁, xs, as, hrun, hask⟩ := run_refines t st seed cs
  obtain ⟨end₂, xs', as', hrun', hask'⟩ := run_refines (withOrder t e) st' seed (cs.map (onHost e))
  rw [askAll_onHost, hask] at hask'
  obtain ⟨rfl, rfl⟩ : xs = xs' ∧ as = as' := by simpa using hask'
  exact ⟨end₁, end₂, as, hrun, hrun'⟩

/-! ### Main result -/

/-- **The loads, and with them the digests, do not depend on the byte order of the host.** -/
theorem byte_order (t : Target) (e : Endian) :
    (∀ m p, ∃ w, value m (load64le (withOrder t e) p) = some w ∧
      w.val.toNat = ∑ i : Fin 8, (m (p + i)).toNat * 256 ^ (i : ℕ)) ∧
    (∀ m p, ∃ w, value m (load32le (withOrder t e) p) = some w ∧
      w.val.toNat = ∑ i : Fin 4, (m (p + i)).toNat * 256 ^ (i : ℕ) ∧ w.val.toNat < 2 ^ 32) ∧
    (∀ m (n : ℕ) seed, ∃ x y,
      value m (hayahash64 t n seed) = some x ∧
      value m (hayahash64 (withOrder t e) n seed) = some x ∧
      value m (hayahash128 t n seed) = some y ∧
      value m (hayahash128 (withOrder t e) n seed) = some y) ∧
    ∀ st st' seed (cs : List (Call t)), ∃ end₁ end₂ as,
      run (hayahash64Init st seed) cs = some (end₁, as) ∧
      run (hayahash64Init st' seed) (cs.map (onHost e)) = some (end₂, as) := by
  refine ⟨value_load64le _, value_load32le _, fun m n seed => ?_, run_onHost e⟩
  exact ⟨_, _, (runs_hayahash64 t m n seed).value_eq, (runs_hayahash64 _ m n seed).value_eq,
    (runs_hayahash128 t m n seed).value_eq, (runs_hayahash128 _ m n seed).value_eq⟩

end Hayahash.Main.ByteOrder
