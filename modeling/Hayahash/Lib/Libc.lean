import Hayahash.Lib.Bytes
import Hayahash.Lib.Codec

/-! # Strings of the C library

The functions of `string.h`, `snprintf` and `strtoull`. A pointer is the memory from its first byte
on; a scan that runs past the end of it, and a store there, have no value. Each is related to the
bytes of the string, which are those before its NUL: whatever is behind it does not matter.

* `strlen_eq`, `strchr_eq_none`, `strchr_eq_some`, `strcmp_eq`, `cstr_eq`: scans.
* `memcpy_append`, `snprintf_eq`: stores.
* `strtoull_digits`: what `strtoull` makes of a text that begins with a digit;
  `strtoull_terminated`: it makes something of every string. -/

namespace Hayahash.Lib.Libc

open Hayahash.Lib.Bytes (Byte)
open Hayahash.Lib.Codec (ofDigits)

variable {s r : List Byte}

/-! ### Text -/

/-- A character of the basic character set. -/
def char (c : Char) : Byte := .ofNat 8 c.toNat

/-- The bytes of a text. -/
def text (s : String) : List Byte := s.toList.map char

/-! ### Scans -/

/-- `strlen`. -/
def strlen : List Byte → Option ℕ
  | [] => none
  | c :: s => if c = 0 then some 0 else (strlen s).map (· + 1)

/-- `strchr`, for a character other than NUL: a pointer, or `NULL`. -/
def strchr (x : Byte) : List Byte → Option (Option (List Byte))
  | [] => none
  | c :: s => if c = x then some (some (c :: s)) else if c = 0 then some none else strchr x s

/-- `strcmp(p, q) == 0`. -/
def strcmp : List Byte → List Byte → Option Bool
  | c :: s, d :: t => if c ≠ d then some false else if c = 0 then some true else strcmp s t
  | _, _ => none

/-- `memcmp(p, q, n) == 0`. -/
def memcmp (p q : List Byte) (n : ℕ) : Option Bool :=
  if n ≤ p.length ∧ n ≤ q.length then some (decide (p.take n = q.take n)) else none

/-- The string at a pointer. -/
def cstr : List Byte → Option (List Byte)
  | [] => none
  | c :: s => if c = 0 then some [] else (cstr s).map (c :: ·)

theorem not_mem_cons {c : Byte} (h : 0 ∉ c :: s) : c ≠ 0 ∧ 0 ∉ s :=
  ⟨fun hc => h (hc ▸ List.mem_cons_self), fun hs => h (List.mem_cons_of_mem c hs)⟩

theorem strlen_eq (h : 0 ∉ s) : strlen (s ++ 0 :: r) = some s.length := by
  induction s with
  | nil => rfl
  | cons c s ih =>
    obtain ⟨hc, hs⟩ := not_mem_cons h
    rw [List.cons_append, strlen, if_neg hc, ih hs, Option.map_some, List.length_cons]

theorem cstr_eq (h : 0 ∉ s) : cstr (s ++ 0 :: r) = some s := by
  induction s with
  | nil => rfl
  | cons c s ih =>
    obtain ⟨hc, hs⟩ := not_mem_cons h
    rw [List.cons_append, cstr, if_neg hc, ih hs, Option.map_some]

theorem strchr_eq_none {x : Byte} (h : 0 ∉ s) (hx0 : x ≠ 0) (hx : x ∉ s) :
    strchr x (s ++ 0 :: r) = some none := by
  induction s with
  | nil =>
    rw [List.nil_append, strchr, if_neg (Ne.symm hx0), if_pos rfl]
  | cons c s ih =>
    obtain ⟨hc, hs⟩ := not_mem_cons h
    have hne : c ≠ x := fun hcx => hx (hcx ▸ List.mem_cons_self)
    rw [List.cons_append, strchr, if_neg hne, if_neg hc,
      ih hs fun hmem => hx (List.mem_cons_of_mem c hmem)]

theorem strchr_eq_some {x : Byte} (h : 0 ∉ s) (hx : x ∉ s) :
    strchr x (s ++ x :: r) = some (some (x :: r)) := by
  induction s with
  | nil => rw [List.nil_append, strchr, if_pos rfl]
  | cons c s ih =>
    obtain ⟨hc, hs⟩ := not_mem_cons h
    have hne : c ≠ x := fun hcx => hx (hcx ▸ List.mem_cons_self)
    rw [List.cons_append, strchr, if_neg hne, if_neg hc,
      ih hs fun hmem => hx (List.mem_cons_of_mem c hmem)]

theorem strcmp_eq {t r' : List Byte} (hs : 0 ∉ s) (ht : 0 ∉ t) :
    strcmp (s ++ 0 :: r) (t ++ 0 :: r') = some (decide (s = t)) := by
  induction s generalizing t with
  | nil =>
    cases t with
    | nil => rfl
    | cons d t =>
      have hd := (not_mem_cons ht).1
      rw [List.nil_append, List.cons_append, strcmp, if_pos (Ne.symm hd)]
      rfl
  | cons c s ih =>
    obtain ⟨hc, hs⟩ := not_mem_cons hs
    cases t with
    | nil =>
      rw [List.nil_append, List.cons_append, strcmp, if_pos hc]
      rfl
    | cons d t =>
      obtain ⟨-, ht⟩ := not_mem_cons ht
      rw [List.cons_append, List.cons_append, strcmp, ih hs ht]
      by_cases hcd : c = d
      · rw [if_neg (not_not_intro hcd), if_neg hc]
        simp only [hcd, List.cons.injEq, true_and]
      · rw [if_pos hcd]
        simp only [List.cons.injEq, hcd, false_and, decide_false]

theorem memcmp_eq {t : List Byte} {n : ℕ} (hs : s.length = n) (ht : t.length = n) :
    memcmp (s ++ r) t n = some (decide (s = t)) := by
  subst hs
  rw [memcmp, if_pos ⟨by rw [List.length_append]; omega, ht.ge⟩, List.take_left, ← ht,
    List.take_length]

/-! ### Stores -/

/-- `memcpy(dst + i, src, src.length)`. -/
def memcpy (dst : List Byte) (i : ℕ) (src : List Byte) : Option (List Byte) :=
  if i + src.length ≤ dst.length then some (dst.take i ++ src ++ dst.drop (i + src.length))
  else none

/-- `dst[i] = c`. -/
def store (dst : List Byte) (i : ℕ) (c : Byte) : Option (List Byte) := memcpy dst i [c]

/-- `snprintf(dst, n, …)`, which prints `s`. -/
def snprintf (dst : List Byte) (n : ℕ) (s : List Byte) : Option (List Byte) :=
  if n = 0 then some dst else memcpy dst 0 (s.take (n - 1) ++ [0])

theorem memcpy_append {p q : List Byte} (src : List Byte) (h : src.length ≤ q.length) :
    memcpy (p ++ q) p.length src = some (p ++ src ++ q.drop src.length) := by
  rw [memcpy, if_pos (by rw [List.length_append]; omega), List.take_left,
    List.drop_length_add_append]

/-- **What is printed**, and what was behind it. -/
theorem snprintf_eq {dst : List Byte} {n : ℕ} (hpos : 0 < n) (hn : n ≤ dst.length) (s : List Byte) :
    snprintf dst n s = some (s.take (n - 1) ++ 0 :: dst.drop ((s.take (n - 1)).length + 1)) := by
  have hlen : (s.take (n - 1)).length ≤ n - 1 := List.length_take_le _ _
  have hfits : (s.take (n - 1) ++ [0]).length ≤ dst.length := by
    rw [List.length_append, List.length_singleton]
    omega
  have hcopy := memcpy_append (p := []) _ hfits
  rw [List.nil_append, List.length_nil] at hcopy
  rw [snprintf, if_neg (by omega), hcopy, List.length_append, List.length_singleton,
    List.nil_append, List.append_assoc, List.singleton_append]

theorem length_terminated {dst : List Byte} (h : s.length < dst.length) :
    (s ++ 0 :: dst.drop (s.length + 1)).length = dst.length := by
  rw [List.length_append, List.length_cons, List.length_drop]
  omega

theorem drop_terminated {n : ℕ} (h : s.length < n) (dst : List Byte) :
    (s ++ 0 :: dst.drop (s.length + 1)).drop n = dst.drop n := by
  obtain ⟨k, rfl⟩ : ∃ k, n = s.length + (1 + k) := ⟨n - s.length - 1, by omega⟩
  rw [List.drop_length_add_append, Nat.add_comm 1, List.drop_succ_cons, List.drop_drop,
    Nat.add_right_comm, Nat.add_assoc]

theorem cstr_take {n : ℕ} (h : 0 ∉ s) (hn : s.length < n) :
    cstr ((s ++ 0 :: r).take n) = some s := by
  obtain ⟨k, rfl⟩ : ∃ k, n = s.length + (k + 1) := ⟨n - s.length - 1, by omega⟩
  rw [List.take_length_add_append, List.take_succ_cons]
  exact cstr_eq h

/-! ### Numbers -/

/-- `ULLONG_MAX`, of 64 bits. -/
def ULLONG_MAX : ℕ := 2 ^ 64 - 1

/-- `isspace`, in the locale `C`. -/
def isspace (c : Byte) : Prop := c = 0x20 ∨ (0x09 ≤ c ∧ c ≤ 0x0d)

instance (c : Byte) : Decidable (isspace c) := inferInstanceAs (Decidable (_ ∨ _))

/-- The value of a digit or a letter. -/
def digitValue (c : Byte) : Option ℕ :=
  if char '0' ≤ c ∧ c ≤ char '9' then some (c.toNat - 0x30)
  else if char 'a' ≤ c ∧ c ≤ char 'z' then some (c.toNat - 0x61 + 10)
  else if char 'A' ≤ c ∧ c ≤ char 'Z' then some (c.toNat - 0x41 + 10)
  else none

/-- A digit of a base. -/
def digit (base : ℕ) (c : Byte) : Option ℕ := (digitValue c).filter (· < base)

/-- Behind the space at the front. -/
def skipSpace : List Byte → Option (List Byte)
  | [] => none
  | c :: s => if isspace c then skipSpace s else some (c :: s)

/-- Behind a prefix of a hexadecimal number, if it is one: a digit follows. -/
def skip0x (s : List Byte) : Option (List Byte) := do
  if (← s[0]?) ≠ char '0' then return s
  let x ← s[1]?
  if x ≠ char 'x' ∧ x ≠ char 'X' then return s
  return if (digit 16 (← s[2]?)).isSome then s.drop 2 else s

/-- The digits of a number, behind those of `n`: its value, and what follows. -/
def scanDigits (base : ℕ) : ℕ → List Byte → Option (ℕ × List Byte)
  | _, [] => none
  | n, c :: s =>
    match digit base c with
    | some d => scanDigits base (n * base + d) s
    | none => some (n, c :: s)

/-- What `strtoull` gives: the value, `*endptr`, and whether `errno` is `ERANGE`. -/
structure Converted where
  value : BitVec 64
  endptr : List Byte
  erange : Bool

/-- **`strtoull`**, for a base from 2 on. -/
def strtoull (s : List Byte) (base : ℕ) : Option Converted := do
  let p ← skipSpace s
  let sign ← p[0]?
  let p := if sign = char '+' ∨ sign = char '-' then p.drop 1 else p
  let p ← if base = 16 then skip0x p else some p
  let (n, q) ← scanDigits base 0 p
  if q = p then return ⟨0, s, false⟩
  if ULLONG_MAX < n then return ⟨.ofNat 64 ULLONG_MAX, q, true⟩
  return ⟨if sign = char '-' then -.ofNat 64 n else .ofNat 64 n, q, false⟩

theorem scanDigits_eq {base : ℕ} {ds : List ℕ}
    (h : List.Forall₂ (fun c d => digit base c = some d) s ds)
    {c : Byte} (hc : digit base c = none) (n : ℕ) :
    scanDigits base n (s ++ c :: r) = some (ds.foldl (fun n d => n * base + d) n, c :: r) := by
  induction h generalizing n with
  | nil => rw [List.nil_append, scanDigits, hc, List.foldl_nil]
  | cons hd _ ih =>
    rw [List.cons_append, scanDigits, hd]
    exact ih _

/-- A string is digits up to where it ends, or up to something that is no digit. -/
theorem digits_split (base : ℕ) (s : List Byte) : ∃ ds front behind,
    s = front ++ behind ∧ List.Forall₂ (fun c d => digit base c = some d) front ds ∧
      ∀ c ∈ behind.head?, digit base c = none := by
  induction s with
  | nil => exact ⟨[], [], [], rfl, .nil, by simp⟩
  | cons c s ih =>
    cases hc : digit base c with
    | none =>
      refine ⟨[], [], c :: s, rfl, .nil, fun x hx => ?_⟩
      obtain rfl : c = x := by simpa using hx
      exact hc
    | some d =>
      obtain ⟨ds, front, behind, rfl, hfront, hbehind⟩ := ih
      exact ⟨d :: ds, c :: front, behind, rfl, .cons hc hfront, hbehind⟩

theorem digitValue_plain : ∀ c : Byte, (digitValue c).isSome →
    ¬isspace c ∧ c ≠ char '+' ∧ c ≠ char '-' := by decide +kernel

/-- **What `strtoull` makes of a text that begins with a digit**, with no prefix in front. -/
theorem strtoull_digits {base : ℕ} {c : Byte} {n : ℕ} {q : List Byte} (hc : (digit base c).isSome)
    (h0x : base = 16 → skip0x (c :: s) = some (c :: s))
    (hscan : scanDigits base 0 (c :: s) = some (n, q)) (hq : q ≠ c :: s) :
    strtoull (c :: s) base = some (if ULLONG_MAX < n then ⟨.ofNat 64 ULLONG_MAX, q, true⟩
      else ⟨.ofNat 64 n, q, false⟩) := by
  have hvalue : (digitValue c).isSome := by
    unfold digit at hc
    cases hd : digitValue c with
    | none => rw [hd] at hc; exact hc
    | some d => rfl
  obtain ⟨hspace, hplus, hminus⟩ := digitValue_plain c hvalue
  have hskip : skipSpace (c :: s) = some (c :: s) := if_neg hspace
  have hsign : (if c = char '+' ∨ c = char '-' then (c :: s).drop 1 else c :: s) = c :: s :=
    if_neg (not_or.mpr ⟨hplus, hminus⟩)
  by_cases hbase : base = 16
  · simp only [strtoull, hskip, Option.bind_eq_bind, Option.bind_some,
      List.getElem?_cons_zero, hsign, if_pos hbase, h0x hbase, hscan, if_neg hq, if_neg hminus]
    split_ifs <;> rfl
  · simp only [strtoull, hskip, Option.bind_eq_bind, Option.bind_some,
      List.getElem?_cons_zero, hsign, if_neg hbase, hscan, if_neg hq, if_neg hminus]
    split_ifs <;> rfl

/-! ### Strings that end -/

/-- A string, up to its NUL. -/
def Terminated (s : List Byte) : Prop := ∃ q, 0 ∉ q ∧ s = q ++ [0]

theorem Terminated.head (h : Terminated s) : ∃ c, s[0]? = some c := by
  obtain ⟨q, -, rfl⟩ := h
  cases q <;> exact ⟨_, rfl⟩

theorem Terminated.tail {c : Byte} (h : Terminated (c :: s)) (hc : c ≠ 0) : Terminated s := by
  obtain ⟨q, hq, heq⟩ := h
  cases q with
  | nil => exact absurd (List.cons.inj heq).1 hc
  | cons d q =>
    obtain ⟨-, rfl⟩ := List.cons.inj heq
    exact ⟨q, (not_mem_cons hq).2, rfl⟩

theorem Terminated.drop_one {c : Byte} (h : Terminated s) (hs : s[0]? = some c) (hc : c ≠ 0) :
    Terminated (s.drop 1) := by
  cases s with
  | nil => cases hs
  | cons d s =>
    obtain rfl : d = c := Option.some.inj hs
    exact h.tail hc

theorem skipSpace_terminated (h : Terminated s) : ∃ p, skipSpace s = some p ∧ Terminated p := by
  induction s with
  | nil =>
    obtain ⟨q, -, heq⟩ := h
    exact absurd heq.symm (List.append_ne_nil_of_right_ne_nil _ (List.cons_ne_nil _ _))
  | cons c s ih =>
    by_cases hc : isspace c
    · have hne : c ≠ 0 := by
        rintro rfl
        exact absurd hc (by decide)
      rw [skipSpace, if_pos hc]
      exact ih (h.tail hne)
    · exact ⟨c :: s, if_neg hc, h⟩

theorem skip0x_terminated (h : Terminated s) : ∃ p, skip0x s = some p ∧ Terminated p := by
  obtain ⟨c, hc⟩ := h.head
  rw [skip0x, hc]
  simp only [Option.bind_eq_bind, Option.bind_some]
  by_cases h0 : c = char '0'
  · have h1 : Terminated (s.drop 1) := h.drop_one hc (by rw [h0]; decide)
    obtain ⟨x, hx⟩ := h1.head
    have hx' : s[1]? = some x := by rwa [List.getElem?_drop] at hx
    rw [if_neg (not_not_intro h0), hx']
    simp only [Option.bind_some]
    by_cases hnx : x ≠ char 'x' ∧ x ≠ char 'X'
    · exact ⟨s, if_pos hnx, h⟩
    · have hx0 : x ≠ 0 := by
        rintro rfl
        exact hnx (by decide)
      have h2 : Terminated (s.drop 2) := by
        have hdrop := h1.drop_one hx hx0
        rwa [List.drop_drop] at hdrop
      obtain ⟨d, hd⟩ := h2.head
      have hd' : s[2]? = some d := by rwa [List.getElem?_drop] at hd
      rw [if_neg hnx, hd']
      simp only [Option.bind_some]
      split_ifs
      · exact ⟨_, rfl, h2⟩
      · exact ⟨_, rfl, h⟩
  · exact ⟨s, if_pos h0, h⟩

theorem scanDigits_terminated (base : ℕ) (h : Terminated s) (n : ℕ) :
    ∃ m q, scanDigits base n s = some (m, q) ∧ Terminated q := by
  induction s generalizing n with
  | nil =>
    obtain ⟨q, -, heq⟩ := h
    exact absurd heq.symm (List.append_ne_nil_of_right_ne_nil _ (List.cons_ne_nil _ _))
  | cons c s ih =>
    rw [scanDigits]
    cases hc : digit base c with
    | none => exact ⟨n, _, rfl, h⟩
    | some d =>
      have hne : c ≠ 0 := by
        rintro rfl
        have hnone : digit base 0 = none := by
          have hvalue : digitValue 0 = none := by decide
          rw [digit, hvalue]
          rfl
        rw [hnone] at hc
        cases hc
      exact ih (h.tail hne) _

/-- **`strtoull` converts every string**, and stops in it. -/
theorem strtoull_terminated (base : ℕ) (h : Terminated s) :
    ∃ r, strtoull s base = some r ∧ Terminated r.endptr := by
  obtain ⟨p, hskip, hp⟩ := skipSpace_terminated h
  obtain ⟨sign, hsign⟩ := hp.head
  have hp' : Terminated (if sign = char '+' ∨ sign = char '-' then p.drop 1 else p) := by
    split_ifs with hs
    · refine hp.drop_one hsign ?_
      rcases hs with rfl | rfl <;> decide
    · exact hp
  generalize hp'' : (if sign = char '+' ∨ sign = char '-' then p.drop 1 else p) = p' at hp'
  -- behind the prefix of the base
  have hbehind : ∀ p₂, Terminated p₂ → ∃ r, (do
      let (n, q) ← scanDigits base 0 p₂
      if q = p₂ then return ⟨0, s, false⟩
      if ULLONG_MAX < n then return ⟨.ofNat 64 ULLONG_MAX, q, true⟩
      return ⟨if sign = char '-' then -.ofNat 64 n else .ofNat 64 n, q, false⟩ :
        Option Converted) = some r ∧
        Terminated r.endptr := by
    intro p₂ hp₂
    obtain ⟨n, q, hscan, hq⟩ := scanDigits_terminated base hp₂ 0
    simp only [hscan, Option.bind_eq_bind, Option.bind_some]
    split_ifs
    · exact ⟨_, rfl, h⟩
    all_goals exact ⟨_, rfl, hq⟩
  rw [strtoull, hskip]
  simp only [Option.bind_eq_bind, Option.bind_some, hsign, hp'']
  by_cases hbase : base = 16
  · obtain ⟨p₂, h0x, hp₂⟩ := skip0x_terminated hp'
    simp only [if_pos hbase, h0x, Option.bind_some]
    exact hbehind p₂ hp₂
  · simp only [if_neg hbase]
    exact hbehind p' hp'

end Hayahash.Lib.Libc
