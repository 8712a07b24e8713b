import Hayahash.Cli.Args
import Hayahash.Spec.Number

/-! # The seed parser and numerals

`strtoull` takes more than numerals. What is left behind the screen of `hayasum_parse_u64` are the
digits of a number, up to where they end (`parseDigits_accepts`), so that the parser accepts the
numerals of 64 bits (`parseU64_accepts`). -/

namespace Hayahash.Refine.Number

open Hayahash.Lib.Bytes (Byte)
open Hayahash.Lib.Codec Hayahash.Lib.Libc Hayahash.C.Primitives Hayahash.Cli.Args
open Hayahash.Spec.Number

variable {base : ℕ} {s : List Byte} {out : Word} {r : ℤ × Word} {P Q : ℕ → Prop}

/-! ### The digits -/

/-- What is returned for a text of the numbers `P`: a number of 64 bits is accepted, and nothing
else. -/
def Accepts (P : ℕ → Prop) (out : Word) (r : ℤ × Word) : Prop :=
  (∃ n < 2 ^ 64, P n ∧ r = (1, .ofNat 64 n)) ∨ (¬∃ n < 2 ^ 64, P n) ∧ r = (0, out)

theorem Accepts.imp (h : Accepts P out r) (hpq : ∀ n, P n ↔ Q n) : Accepts Q out r := by
  simpa only [Accepts, hpq] using h

theorem accepts_none (h : ∀ n, ¬P n) : Accepts P out (0, out) :=
  .inr ⟨fun ⟨n, _, hn⟩ => h n hn, rfl⟩

/-- `has0x` sees the prefix that `strtoull` would skip. -/
theorem skip0x_of_has0x {c : Byte} (h : has0x (c :: s) = some false) :
    skip0x (c :: s) = some (c :: s) := by
  rw [skip0x]
  rw [has0x] at h
  simp only [List.getElem?_cons_zero, Option.bind_eq_bind, Option.bind_some] at h ⊢
  by_cases hc : c = char '0'
  · rw [if_pos hc] at h
    rw [if_neg (not_not_intro hc)]
    cases hx : (c :: s)[1]? with
    | none => rw [hx] at h; cases h
    | some x =>
      rw [hx] at h
      have hnot : x ≠ char 'x' ∧ x ≠ char 'X' := by simpa using h
      simp only [Option.bind_some, if_pos hnot]
      rfl
  · rw [if_pos hc]
    rfl

/-- **Behind the screen**: a text that begins with a digit, and with no other prefix, is accepted if
it is the digits of a number of 64 bits. -/
theorem parseDigits_accepts (hbase : IsBase base) {c : Byte} (hs : 0 ∉ c :: s)
    (hc : (digit base c).isSome) (h0x : base = 16 → has0x (c :: (s ++ [0])) = some false)
    (out : Word) : ∃ r, parseDigits (c :: (s ++ [0])) base out = some r ∧
    Accepts (Digits base (c :: s)) out r := by
  obtain ⟨ds, front, behind, hsplit, hfront, hbehind⟩ := digits_split base (c :: s)
  have hnumber : ∀ {n}, Digits base (c :: s) n ↔ behind = [] ∧ n = ofDigits base ds :=
    digits_split_iff hbase (List.cons_ne_nil c s) hsplit hfront hbehind
  have hnul : digit base 0 = none := by rcases hbase with rfl | rfl <;> rfl
  -- the scan stops at `x`, which is the NUL exactly if all are digits
  obtain ⟨x, q, hq, hx, hx0⟩ : ∃ x q, behind ++ [0] = x :: q ∧ digit base x = none ∧
      (x = 0 ↔ behind = []) := by
    cases behind with
    | nil => exact ⟨0, [], rfl, hnul, fun _ => rfl, fun _ => rfl⟩
    | cons x q =>
      have hmem : x ∈ c :: s := hsplit ▸ List.mem_append_right front List.mem_cons_self
      exact ⟨x, q ++ [0], rfl, hbehind x rfl, fun h => absurd (h ▸ hmem) hs, fun h => by cases h⟩
  have hscan : scanDigits base 0 (c :: (s ++ [0])) = some (ofDigits base ds, x :: q) := by
    rw [← List.cons_append, hsplit, List.append_assoc, hq, scanDigits_eq hfront hx]
    rfl
  have hne : x :: q ≠ c :: (s ++ [0]) := by
    intro h
    rw [(List.cons.inj h).1] at hx
    rw [hx] at hc
    cases hc
  have hmax : ULLONG_MAX < ofDigits base ds ↔ ¬ofDigits base ds < 2 ^ 64 := by
    unfold ULLONG_MAX
    omega
  rw [parseDigits, strtoull_digits hc (fun h => skip0x_of_has0x (h0x h)) hscan hne]
  by_cases hrange : ofDigits base ds < 2 ^ 64
  · have hok : ¬(false = true ∨ x :: q = c :: (s ++ [0])) := not_or.mpr ⟨Bool.false_ne_true, hne⟩
    rw [if_neg fun h => hmax.mp h hrange]
    simp only [Option.bind_eq_bind, Option.bind_some, if_neg hok, List.getElem?_cons_zero]
    by_cases hend : behind = []
    · rw [if_neg (not_not_intro (hx0.mpr hend))]
      exact ⟨_, rfl, .inl ⟨_, hrange, hnumber.mpr ⟨hend, rfl⟩, rfl⟩⟩
    · rw [if_pos fun h => hend (hx0.mp h)]
      exact ⟨_, rfl, accepts_none fun n hn => hend (hnumber.mp hn).1⟩
  · rw [if_pos (hmax.mpr hrange)]
    refine ⟨_, rfl, .inr ⟨?_, rfl⟩⟩
    rintro ⟨n, hlt, hn⟩
    rw [(hnumber.mp hn).2] at hlt
    exact hrange hlt

/-! ### The screen -/

theorem isDigit_eq : ∀ c : Byte, isDigit c = (digit 10 c).isSome := by decide +kernel

theorem isHexdigit_eq : ∀ c : Byte, isHexdigit c = (digit 16 c).isSome := by decide +kernel

theorem has0x_cases (s : List Byte) :
    (∃ x t, IsX x ∧ s = char '0' :: x :: t ∧ has0x (s ++ [0]) = some true) ∨
      (∀ x t, IsX x → s ≠ char '0' :: x :: t) ∧ has0x (s ++ [0]) = some false := by
  cases s with
  | nil => exact .inr ⟨fun _ _ _ h => (by cases h), rfl⟩
  | cons c s =>
    by_cases hc : c = char '0'
    · subst hc
      cases s with
      | nil => exact .inr ⟨fun _ _ _ h => (by cases h), rfl⟩
      | cons x t =>
        have htest : has0x (char '0' :: x :: t ++ [0]) = some (x = char 'x' || x = char 'X') := rfl
        by_cases hx : IsX x
        · refine .inl ⟨x, t, hx, rfl, ?_⟩
          rw [htest]
          rcases hx with rfl | rfl <;> rfl
        · refine .inr ⟨?_, ?_⟩
          · rintro y u hy heq
            cases heq
            exact hx hy
          · obtain ⟨hlower, hupper⟩ := not_or.mp hx
            rw [htest, decide_eq_false hlower, decide_eq_false hupper]
            rfl
    · refine .inr ⟨fun x t _ h => hc (List.cons.inj h).1, ?_⟩
      rw [has0x]
      simp [hc]

/-- **The seed parser**, on every string. -/
theorem parseU64_accepts (hs : 0 ∉ s) (out : Word) :
    ∃ r, parseU64 (s ++ [0]) out = some r ∧ Accepts (Numeral s) out r := by
  have hreject : ∀ {base c t}, IsBase base → ¬(digit base c).isSome →
    ∀ n, ¬Digits base (c :: t) n :=
    fun hbase hc n hn => hc (hn.isSome_digit hbase List.mem_cons_self)
  have hempty : ∀ base n, ¬Digits base [] n := fun _ _ hn => hn.1 rfl
  rcases has0x_cases s with ⟨x, t, hx, rfl, htest⟩ | ⟨hdecimal, htest⟩
  · have hdigits : (char '0' :: x :: t ++ [0]).drop 2 = t ++ [0] := rfl
    have ht : 0 ∉ t := (not_mem_cons (not_mem_cons hs).2).2
    have hnumeral : ∀ n, Numeral (char '0' :: x :: t) n ↔ Digits 16 t n :=
      fun n => numeral_hex_iff hx
    rw [parseU64]
    simp only [htest, hdigits, Option.bind_eq_bind, Option.bind_some, if_pos]
    cases t with
    | nil => exact ⟨(0, out), rfl, accepts_none fun n hn => hempty 16 n ((hnumeral n).mp hn)⟩
    | cons c t =>
      simp only [List.cons_append, List.getElem?_cons_zero, Option.bind_some, isHexdigit_eq]
      by_cases hc : (digit 16 c).isSome
      · rcases has0x_cases (c :: t) with ⟨y, u, hy, heq, htwice⟩ | ⟨-, htwice⟩
        · rw [List.cons_append] at htwice
          refine ⟨(0, out), by simp only [hc, htwice]; rfl, accepts_none fun n hn => ?_⟩
          have hmem : y ∈ c :: t := by rw [heq]; simp
          exact ((hnumeral n).mp hn).no_x (.inr rfl) hy hmem
        · rw [List.cons_append] at htwice
          obtain ⟨r, hr, haccepts⟩ := parseDigits_accepts (.inr rfl) ht hc (fun _ => htwice) out
          exact ⟨r, by simp only [hc, htwice]; exact hr, haccepts.imp fun n => (hnumeral n).symm⟩
      · exact ⟨(0, out), by simp [hc],
          accepts_none fun n hn => hreject (.inr rfl) hc n ((hnumeral n).mp hn)⟩
  · have hnumeral : ∀ n, Numeral s n ↔ Digits 10 s n := fun n => numeral_decimal_iff hdecimal
    rw [parseU64]
    simp only [htest, Option.bind_eq_bind, Option.bind_some]
    cases s with
    | nil => exact ⟨(0, out), rfl, accepts_none fun n hn => hempty 10 n ((hnumeral n).mp hn)⟩
    | cons c t =>
      simp only [List.cons_append, List.getElem?_cons_zero, Option.bind_some, isDigit_eq]
      by_cases hc : (digit 10 c).isSome
      · obtain ⟨r, hr, haccepts⟩ := parseDigits_accepts (.inl rfl) hs hc (fun h => by cases h) out
        exact ⟨r, by simp only [hc]; exact hr, haccepts.imp fun n => (hnumeral n).symm⟩
      · exact ⟨(0, out), by simp [hc],
          accepts_none fun n hn => hreject (.inl rfl) hc n ((hnumeral n).mp hn)⟩

end Hayahash.Refine.Number
