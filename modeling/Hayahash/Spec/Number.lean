import Hayahash.Lib.Libc
import Mathlib.Data.List.Forall2

/-! # The numerals of a seed

`Numeral s n`: the text `s` is one or more decimal digits, or `0x` or `0X` and one or more
hexadecimal digits, and `n` is the number. A text is a numeral of one number at most
(`Numeral.unique`). -/

namespace Hayahash.Spec.Number

open Hayahash.Lib.Bytes (Byte)
open Hayahash.Lib.Codec Hayahash.Lib.Libc

variable {base n m : ℕ} {s : List Byte} {ds : List ℕ}

/-- A character is the digit `d`, in either case. -/
def Digit (base : ℕ) (c : Byte) (d : ℕ) : Prop :=
  d < base ∧ ((text "0123456789abcdef")[d]? = some c ∨ (text "0123456789ABCDEF")[d]? = some c)

instance (base : ℕ) (c : Byte) (d : ℕ) : Decidable (Digit base c d) :=
  inferInstanceAs (Decidable (_ ∧ _))

/-- One or more digits, and their number. -/
def Digits (base : ℕ) (s : List Byte) (n : ℕ) : Prop :=
  s ≠ [] ∧ ∃ ds, List.Forall₂ (Digit base) s ds ∧ n = ofDigits base ds

/-- **A numeral, and its number.** -/
inductive Numeral : List Byte → ℕ → Prop
  | decimal {s : List Byte} {n : ℕ} (h : Digits 10 s n) : Numeral s n
  | hex {s : List Byte} {n : ℕ} {x : Byte} (hx : x = char 'x' ∨ x = char 'X') (h : Digits 16 s n) :
    Numeral (char '0' :: x :: s) n

/-- The bases of numerals. -/
def IsBase (base : ℕ) : Prop := base = 10 ∨ base = 16

theorem digit_ten : ∀ c : Byte, ∀ d < 16, digit 10 c = some d ↔ Digit 10 c d := by decide +kernel

theorem digit_sixteen : ∀ c : Byte, ∀ d < 16, digit 16 c = some d ↔
    Digit 16 c d := by decide +kernel

theorem digit_iff (hbase : IsBase base) {c : Byte} {d : ℕ} :
    digit base c = some d ↔ Digit base c d := by
  have hle : base ≤ 16 := by rcases hbase with rfl | rfl <;> decide
  by_cases hd : d < 16
  · rcases hbase with rfl | rfl
    · exact digit_ten c d hd
    · exact digit_sixteen c d hd
  · refine ⟨fun h => ?_, fun h => absurd h.1 (by omega)⟩
    have hlt := of_decide_eq_true (Option.filter_eq_some_iff.mp h).2
    omega

theorem forall₂_digit (hbase : IsBase base) :
    List.Forall₂ (fun c d => digit base c = some d) s ds ↔ List.Forall₂ (Digit base) s ds := by
  constructor
  · exact List.Forall₂.imp fun _ _ => (digit_iff hbase).mp
  · exact List.Forall₂.imp fun _ _ => (digit_iff hbase).mpr

theorem Digits.unique (hbase : IsBase base) (hn : Digits base s n) (hm : Digits base s m) :
    n = m := by
  obtain ⟨-, ds, hds, rfl⟩ := hn
  obtain ⟨-, es, hes, rfl⟩ := hm
  have hds' := (forall₂_digit hbase).mpr hds
  have hes' := (forall₂_digit hbase).mpr hes
  clear hds hes
  suffices ds = es by rw [this]
  induction hds' generalizing es with
  | nil => cases hes'; rfl
  | cons hd _ ih =>
    obtain ⟨e, es, he, hes, rfl⟩ := List.forall₂_cons_left_iff.mp hes'
    rw [ih es hes, Option.some.inj (hd.symm.trans he)]

theorem Digits.isSome_digit (hbase : IsBase base) (h : Digits base s n) {c : Byte} (hc : c ∈ s) :
    (digit base c).isSome := by
  obtain ⟨-, ds, hds, -⟩ := h
  induction hds with
  | nil => cases hc
  | cons hd _ ih =>
    rcases List.mem_cons.mp hc with rfl | hc
    · rw [(digit_iff hbase).mpr hd]
      rfl
    · exact ih hc

/-- **The numbers of a text**, of which `front` are the digits at the front. -/
theorem digits_split_iff (hbase : IsBase base) (hne : s ≠ []) {front behind : List Byte}
    (hs : s = front ++ behind) (hfront : List.Forall₂ (fun c d => digit base c = some d) front ds)
    (hbehind : ∀ c ∈ behind.head?, digit base c = none) :
    Digits base s n ↔ behind = [] ∧ n = ofDigits base ds := by
  have hdigits : behind = [] → Digits base s (ofDigits base ds) := by
    rintro rfl
    rw [List.append_nil] at hs
    exact ⟨hne, ds, hs ▸ (forall₂_digit hbase).mp hfront, rfl⟩
  constructor
  · intro hn
    have hnil : behind = [] := by
      cases behind with
      | nil => rfl
      | cons c t =>
        have hmem : c ∈ s := hs ▸ List.mem_append_right front List.mem_cons_self
        have hsome := hn.isSome_digit hbase hmem
        rw [hbehind c rfl] at hsome
        cases hsome
    exact ⟨hnil, hn.unique hbase (hdigits hnil)⟩
  · rintro ⟨hnil, rfl⟩
    exact hdigits hnil

/-- The letter of a hexadecimal numeral. -/
def IsX (x : Byte) : Prop := x = char 'x' ∨ x = char 'X'

theorem Digits.no_x (hbase : IsBase base) (h : Digits base s n) {x : Byte} (hx : IsX x) :
    x ∉ s := by
  intro hmem
  have hsome := h.isSome_digit hbase hmem
  rcases hbase with rfl | rfl <;> rcases hx with rfl | rfl <;> exact absurd hsome (by decide)

theorem numeral_hex_iff {x : Byte} (hx : IsX x) :
    Numeral (char '0' :: x :: s) n ↔ Digits 16 s n := by
  constructor
  · intro h
    cases h with
    | decimal h => exact absurd (by simp) (h.no_x (.inl rfl) hx)
    | hex _ h => exact h
  · exact .hex hx

theorem numeral_decimal_iff (hs : ∀ x t, IsX x → s ≠ char '0' :: x :: t) :
    Numeral s n ↔ Digits 10 s n := by
  constructor
  · intro h
    cases h with
    | decimal h => exact h
    | hex hx _ => exact absurd rfl (hs _ _ hx)
  · exact .decimal

/-- **A numeral has one number.** -/
theorem Numeral.unique (hn : Numeral s n) (hm : Numeral s m) : n = m := by
  cases hm with
  | hex hx hm => exact ((numeral_hex_iff hx).mp hn).unique (.inr rfl) hm
  | decimal hm =>
    cases hn with
    | decimal hn => exact hn.unique (.inl rfl) hm
    | hex hx _ => exact absurd (by simp) (hm.no_x (.inl rfl) hx)

end Hayahash.Spec.Number
