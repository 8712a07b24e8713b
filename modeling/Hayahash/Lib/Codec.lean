import Mathlib.Algebra.Ring.Nat
import Mathlib.Data.List.Basic
import Mathlib.Data.Nat.Notation
import Mathlib.Tactic.Common

/-! # Codes for text

What a text of lines is made of, over any alphabet, each with a reader that reads back what was
written.

* `Escapes`: symbols that are written as an announced letter (`unescape_escape`). Escaping changes a
  string if it has such a symbol, and only then (`escape_eq_self_iff`).
* `lines`: a text, split at the ends of its lines (`lines_flatMap`).
* `digits`: numbers with a fixed number of digits (`ofDigits_digits`). -/

namespace Hayahash.Lib.Codec

variable {α : Type*}

/-! ### Escapes -/

/-- **An escaping scheme.** A symbol that has a letter is written as `esc` and its letter; `esc` is
such a symbol, and letters are told apart. -/
structure Escapes (α : Type*) where
  esc : α
  letter : α → Option α
  symbol : α → Option α
  symbol_letter : ∀ {c d}, letter c = some d → symbol d = some c
  letter_esc : (letter esc).isSome

namespace Escapes

variable (S : Escapes α)

/-- A symbol, as it is written. -/
def write (c : α) : List α :=
  match S.letter c with
  | some d => [S.esc, d]
  | none => [c]

/-- A string, as it is written. -/
def escape (s : List α) : List α := s.flatMap S.write

/-- What was written, if anything. -/
def unescape [DecidableEq α] : List α → Option (List α)
  | [] => some []
  | [c] => if c = S.esc then none else some [c]
  | c :: d :: s =>
    if c = S.esc then do return (← S.symbol d) :: (← unescape s)
    else do return c :: (← unescape (d :: s))

variable {S}

theorem escape_cons (c : α) (s : List α) : S.escape (c :: s) = S.write c ++ S.escape s :=
  List.flatMap_cons

theorem write_some {c d : α} (h : S.letter c = some d) : S.write c = [S.esc, d] := by
  rw [write, h]

theorem write_none {c : α} (h : S.letter c = none) : S.write c = [c] := by rw [write, h]

section Unescape
variable [DecidableEq α]

theorem unescape_cons {c : α} (h : c ≠ S.esc) (s : List α) :
    S.unescape (c :: s) = (S.unescape s).map (c :: ·) := by
  cases s with
  | nil => exact if_neg h
  | cons d s =>
    rw [unescape, if_neg h]
    cases S.unescape (d :: s) <;> rfl

theorem unescape_esc {c d : α} (h : S.symbol d = some c) (s : List α) :
    S.unescape (S.esc :: d :: s) = (S.unescape s).map (c :: ·) := by
  rw [unescape, if_pos rfl, h]
  cases S.unescape s <;> rfl

/-- **What was escaped is read back.** -/
theorem unescape_escape (s : List α) : S.unescape (S.escape s) = some s := by
  induction s with
  | nil => rfl
  | cons c s ih =>
    rw [escape_cons]
    cases hc : S.letter c with
    | some d =>
      rw [write_some hc, List.cons_append, List.singleton_append,
        unescape_esc (S.symbol_letter hc), ih, Option.map_some]
    | none =>
      have hne : c ≠ S.esc := by
        rintro rfl
        have hesc := S.letter_esc
        rw [hc] at hesc
        cases hesc
      rw [write_none hc, List.singleton_append, unescape_cons hne, ih, Option.map_some]

end Unescape

theorem escape_of_none {s : List α} (h : ∀ c ∈ s, S.letter c = none) : S.escape s = s := by
  induction s with
  | nil => rfl
  | cons c s ih =>
    rw [escape_cons, write_none (h c List.mem_cons_self),
      ih fun d hd => h d (List.mem_cons_of_mem c hd), List.singleton_append]

theorem length_le_escape (s : List α) : s.length ≤ (S.escape s).length := by
  induction s with
  | nil => exact Nat.le_refl _
  | cons c s ih =>
    rw [escape_cons, List.length_append, List.length_cons]
    have hwrite : 1 ≤ (S.write c).length := by
      unfold write
      split <;> simp
    omega

/-- **Escaping changes a string if a symbol of it has a letter**, and only then. -/
theorem escape_eq_self_iff {s : List α} : S.escape s = s ↔ ∀ c ∈ s, S.letter c = none := by
  refine ⟨fun h => ?_, escape_of_none⟩
  induction s with
  | nil => simp
  | cons c s ih =>
    rw [escape_cons] at h
    cases hc : S.letter c with
    | some d =>
      -- two symbols for one, and none fewer for the others
      have hlen := congrArg List.length h
      have hle := length_le_escape (S := S) s
      rw [write_some hc, List.length_append, List.length_cons, List.length_singleton,
        List.length_cons] at hlen
      omega
    | none =>
      rw [write_none hc, List.singleton_append, List.cons.injEq] at h
      intro d hd
      rcases List.mem_cons.mp hd with rfl | hd
      · exact hc
      · exact ih h.2 d hd

/-- A symbol that is escaped, and is no part of an escape, does not occur in what is written. -/
theorem not_mem_escape {x : α} (hx : (S.letter x).isSome) (hesc : x ≠ S.esc)
    (hletter : ∀ c, S.letter c ≠ some x) (s : List α) : x ∉ S.escape s := by
  intro h
  obtain ⟨c, -, hc⟩ := List.mem_flatMap.mp h
  cases hl : S.letter c with
  | some d =>
    rw [write_some hl, List.mem_cons, List.mem_singleton] at hc
    rcases hc with rfl | rfl
    · exact hesc rfl
    · exact hletter c hl
  | none =>
    rw [write_none hl, List.mem_singleton] at hc
    obtain rfl := hc
    rw [hl] at hx
    cases hx

end Escapes

/-! ### Lines -/

section Lines
variable [DecidableEq α] (fin : α)

/-- A text, split behind every `fin`. -/
def lines : List α → List (List α)
  | [] => []
  | c :: s =>
    if c = fin then [] :: lines s
    else
      match lines s with
      | [] => [[c]]
      | l :: ls => (c :: l) :: ls

variable {fin}

theorem lines_append {l : List α} (h : fin ∉ l) (s : List α) :
    lines fin (l ++ fin :: s) = l :: lines fin s := by
  induction l with
  | nil => rw [List.nil_append, lines, if_pos rfl]
  | cons c l ih =>
    have hc : c ≠ fin := fun hc => h (hc ▸ List.mem_cons_self)
    rw [List.cons_append, lines, if_neg hc, ih fun hl => h (List.mem_cons_of_mem c hl)]

/-- **The lines of a text are read back.** -/
theorem lines_flatMap {ls : List (List α)} (h : ∀ l ∈ ls, fin ∉ l) :
    lines fin (ls.flatMap (· ++ [fin])) = ls := by
  induction ls with
  | nil => rfl
  | cons l ls ih =>
    rw [List.flatMap_cons, List.append_assoc, List.singleton_append,
      lines_append (h l List.mem_cons_self), ih fun k hk => h k (List.mem_cons_of_mem l hk)]

theorem count_flatMap {ls : List (List α)} (h : ∀ l ∈ ls, fin ∉ l) :
    (ls.flatMap (· ++ [fin])).count fin = ls.length := by
  induction ls with
  | nil => rfl
  | cons l ls ih =>
    rw [List.flatMap_cons, List.count_append, List.count_append, List.count_eq_zero_of_not_mem
      (h l List.mem_cons_self), ih fun k hk =>
      h k (List.mem_cons_of_mem l hk), List.count_singleton_self,
      List.length_cons]
    omega

end Lines

/-! ### Digits -/

/-- The last `w` digits of a number, the most significant one first. -/
def digits (b : ℕ) : ℕ → ℕ → List ℕ
  | 0, _ => []
  | w + 1, n => digits b w (n / b) ++ [n % b]

/-- The number of a string of digits. -/
def ofDigits (b : ℕ) (ds : List ℕ) : ℕ := ds.foldl (fun n d => n * b + d) 0

theorem length_digits (b : ℕ) : ∀ w n : ℕ, (digits b w n).length = w
  | 0, _ => rfl
  | w + 1, n => by rw [digits, List.length_append, length_digits b w, List.length_singleton]

theorem digits_lt {b : ℕ} (hb : 0 < b) : ∀ w n : ℕ, ∀ d ∈ digits b w n, d < b
  | 0, _ => by simp [digits]
  | w + 1, n => by
    intro d hd
    rw [digits, List.mem_append, List.mem_singleton] at hd
    rcases hd with hd | rfl
    · exact digits_lt hb w _ d hd
    · exact Nat.mod_lt n hb

/-- **A number that has no more digits is read back.** -/
theorem ofDigits_digits {b : ℕ} : ∀ {w n : ℕ}, n < b ^ w → ofDigits b (digits b w n) = n
  | 0, n, h => by
    rw [Nat.pow_zero] at h
    rw [digits, ofDigits, List.foldl_nil]
    omega
  | w + 1, n, h => by
    have hdiv : n / b < b ^ w := by
      rw [Nat.pow_succ, Nat.mul_comm] at h
      exact Nat.div_lt_of_lt_mul h
    have ih := ofDigits_digits hdiv
    unfold ofDigits at ih
    rw [digits, ofDigits, List.foldl_append, ih, List.foldl_cons, List.foldl_nil, Nat.div_add_mod']

end Hayahash.Lib.Codec
