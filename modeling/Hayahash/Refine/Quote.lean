import Hayahash.Cli.Args

/-! # What `hayasum_quote` writes

`echo cap s` is what a string is shown as with room for `cap` characters, and is printable
(`printable_echo`). `quote_eq`: the quoter writes it, and a NUL, and leaves what is behind. -/

namespace Hayahash.Refine.Quote

open Hayahash.Lib.Bytes (Byte)
open Hayahash.Lib.Libc Hayahash.Cli.Args

variable {s r dst : List Byte} {cap : ℕ}

/-! ### Printable text -/

/-- Printable ASCII. -/
def Printable (s : List Byte) : Prop := ∀ c ∈ s, 0x20 ≤ c ∧ c ≤ 0x7e

instance (s : List Byte) : Decidable (Printable s) :=
  decidable_of_iff (s.all fun c => Nat.ble 0x20 c.toNat && Nat.ble c.toNat 0x7e)
    (by simp [Printable, BitVec.le_def])

theorem Printable.append {t : List Byte} (hs : Printable s) (ht : Printable t) :
    Printable (s ++ t) := by
  intro c hc
  rcases List.mem_append.mp hc with hc | hc
  · exact hs c hc
  · exact ht c hc

theorem Printable.take (hs : Printable s) (n : ℕ) : Printable (s.take n) :=
  fun c hc => hs c (List.mem_of_mem_take hc)

theorem Printable.noNul (hs : Printable s) : 0 ∉ s := fun h => absurd (hs 0 h).1 (by decide)

/-- A character as it is shown. -/
def shown (c : Byte) : Byte := if 0x20 ≤ c ∧ c < 0x7f then c else char '?'

theorem shown_printable : ∀ c : Byte, 0x20 ≤ shown c ∧ shown c ≤ 0x7e := by decide +kernel

theorem printable_shown (s : List Byte) : Printable (s.map shown) := by
  intro c hc
  obtain ⟨d, -, rfl⟩ := List.mem_map.mp hc
  exact shown_printable d

/-- **A string as it is shown**, with room for `cap` characters: all of it, or as much as there is
room for, of which the last three are dots if there is room for three. -/
def echo (cap : ℕ) (s : List Byte) : List Byte :=
  if s.length ≤ cap then s.map shown
  else if 3 ≤ cap then (s.take (cap - 3)).map shown ++ text "..."
  else (s.take cap).map shown

theorem printable_echo (cap : ℕ) (s : List Byte) : Printable (echo cap s) := by
  unfold echo
  split_ifs
  · exact printable_shown s
  · exact (printable_shown _).append (by decide)
  · exact printable_shown _

theorem length_echo_le (cap : ℕ) (s : List Byte) : (echo cap s).length ≤ cap := by
  unfold echo
  split_ifs with hfits hdots
  · rwa [List.length_map]
  · have hlen : (text "...").length = 3 := rfl
    rw [List.length_append, List.length_map, List.length_take, hlen]
    omega
  · rw [List.length_map, List.length_take]
    omega

/-! ### The loop -/

/-- The loop, at `b`, with `n` characters to go: `p` is written so far, and `q` is behind. -/
theorem quoteLoop_eq (n : ℕ) : ∀ {a b p q : List Byte}, 0 ∉ b → p.length = a.length →
    n ≤ q.length → quoteLoop (a ++ b ++ 0 :: r) n a.length (p ++ q) =
      some (a.length + (b.take n).length, p ++ (b.take n).map shown ++
        q.drop (b.take n).length) := by
  induction n with
  | zero =>
    intro a b p q _ _ _
    simp [quoteLoop]
  | succ n ih =>
    intro a b p q hb hp hq
    cases b with
    | nil =>
      have hread : (a ++ [] ++ 0 :: r)[a.length]? = some 0 := by simp
      rw [quoteLoop, hread]
      simp
    | cons c b =>
      obtain ⟨hc, hb⟩ := not_mem_cons hb
      have hread : (a ++ c :: b ++ 0 :: r)[a.length]? = some c := by simp
      have hstore : store (p ++ q) a.length (shown c) = some (p ++ [shown c] ++ q.drop 1) := by
        rw [store, ← hp]
        exact memcpy_append _ (by rw [List.length_singleton]; omega)
      have hnext := @ih (a ++ [c]) b (p ++ [shown c]) (q.drop 1) hb
        (by rw [List.length_append, List.length_append, hp, List.length_singleton,
        List.length_singleton]) (by rw [List.length_drop]; omega)
      rw [List.length_append, List.length_singleton, List.append_assoc a,
        List.singleton_append] at hnext
      rw [quoteLoop, hread]
      simp only [Option.bind_eq_bind, Option.bind_some, if_neg hc]
      change (store (p ++ q) a.length (shown c)).bind _ = _
      rw [hstore, Option.bind_some, hnext, List.take_succ_cons, List.length_cons, List.map_cons,
        List.drop_drop]
      simp only [Option.some.injEq, Prod.mk.injEq, List.append_assoc, List.cons_append,
        List.nil_append]
      exact ⟨by omega, by rw [Nat.add_comm 1]⟩

/-- The room for a quoted token. -/
def room (dstsz : ℕ) : ℕ := min (dstsz - 1) TOKMAX

theorem quoteLoop_store (hs : 0 ∉ s) (hcap : cap < dst.length) :
    (do let (i, dst) ← quoteLoop (s ++ 0 :: r) cap 0 dst
        return (i, ← store dst i 0)) = some ((s.take cap).length,
      (s.take cap).map shown ++ 0 :: dst.drop ((s.take cap).length + 1)) := by
  have hlen : (s.take cap).length ≤ cap := List.length_take_le _ _
  have hloop := quoteLoop_eq (r := r) (a := []) (p := []) (q := dst) cap hs rfl (by omega)
  rw [List.nil_append, List.nil_append, List.length_nil, Nat.zero_add, List.nil_append] at hloop
  generalize hw : s.take cap = w at hlen hloop ⊢
  have hstore : store (w.map shown ++ dst.drop w.length) w.length 0 =
      some (w.map shown ++ [0] ++ (dst.drop w.length).drop 1) := by
    have hcopy := memcpy_append (p := w.map shown) (q := dst.drop w.length) [0]
      (by rw [List.length_singleton, List.length_drop]; omega)
    rwa [List.length_map] at hcopy
  rw [List.drop_drop, List.append_assoc, List.singleton_append] at hstore
  simp only [Option.bind_eq_bind, hloop, Option.bind_some, hstore]
  rfl

/-- **The quoter** writes the string as it is shown, and a NUL. -/
theorem quote_eq {dstsz : ℕ} (hpos : 0 < dstsz) (hdst : dstsz ≤ dst.length) (hs : 0 ∉ s) :
    quote dst dstsz (s ++ 0 :: r) = some (echo (room dstsz) s ++
      0 :: dst.drop ((echo (room dstsz) s).length + 1)) := by
  have hcap : (if dstsz - 1 > TOKMAX then TOKMAX else dstsz - 1) = room dstsz := by
    unfold room
    split_ifs <;> omega
  have hroom : room dstsz < dst.length := by
    unfold room
    omega
  generalize room dstsz = cap at hcap hroom ⊢
  obtain ⟨⟨i, out⟩, hloop, hstore⟩ := Option.bind_eq_some_iff.mp (quoteLoop_store (r := r) hs hroom)
  obtain ⟨out', hout, hpair⟩ := Option.bind_eq_some_iff.mp hstore
  obtain ⟨rfl, rfl⟩ := Prod.mk.inj (Option.some.inj hpair)
  rw [quote, if_neg (by omega)]
  simp only [Option.bind_eq_bind, hcap, hloop, Option.bind_some, hout]
  by_cases hfits : s.length ≤ cap
  · have hread : (s ++ 0 :: r)[s.length]? = some 0 := by simp
    have hecho : echo cap s = s.map shown := if_pos hfits
    rw [List.take_of_length_le hfits, hread, Option.bind_some, if_neg fun h => h.1 rfl, hecho,
      List.length_map]
    rfl
  · have hread : (s ++ 0 :: r)[cap]? = some s[cap] := by
      rw [List.getElem?_append_left (by omega), List.getElem?_eq_getElem (by omega)]
    have hne : s[cap] ≠ 0 := fun h => hs (h ▸ List.getElem_mem _)
    have hlen : (s.take cap).length = cap := by
      rw [List.length_take]
      omega
    rw [hlen, hread, Option.bind_some]
    by_cases hdots : 3 ≤ cap
    · have hecho : echo cap s = (s.take (cap - 3)).map shown ++ text "..." := by
        rw [echo, if_neg hfits, if_pos hdots]
      -- the last three characters are written over
      have hsplit : (s.take cap).map shown ++ 0 :: dst.drop (cap + 1) =
        (s.take (cap - 3)).map shown ++
          (((s.drop (cap - 3)).take 3).map shown ++ 0 :: dst.drop (cap + 1)) := by
        rw [← List.append_assoc, ← List.map_append, ← List.take_add, Nat.sub_add_cancel hdots]
      have hthree : (((s.drop (cap - 3)).take 3).map shown).length = (text "...").length := by
        rw [List.length_map, List.length_take, List.length_drop]
        change min 3 _ = 3
        omega
      have hfront : ((s.take (cap - 3)).map shown).length = cap - 3 := by
        rw [List.length_map, List.length_take]
        omega
      have hcopy := memcpy_append (p := (s.take (cap - 3)).map shown)
        (q := ((s.drop (cap - 3)).take 3).map shown ++ 0 :: dst.drop (cap + 1)) (text "...")
        (by rw [List.length_append, hthree]; exact Nat.le_add_right _ _)
      rw [hfront, ← hthree, List.drop_left] at hcopy
      have hlength : (echo cap s).length = cap := by
        rw [hecho, List.length_append, hfront]
        exact Nat.sub_add_cancel hdots
      rw [if_pos ⟨hne, hdots⟩, hsplit, hcopy, hlength, hecho]
    · have hecho : echo cap s = (s.take cap).map shown := by
        rw [echo, if_neg hfits, if_neg hdots]
      rw [if_neg fun h => hdots h.2, hecho, List.length_map, hlen]
      rfl

end Hayahash.Refine.Quote
