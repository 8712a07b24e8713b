import Hayahash.Cli.Output

/-! # Entries of a checksum list

What a line of a checksum list says (`Entry`), how it is written (`render`), and a reader of lists
(`entries`). The reader takes the leading backslash off, reads 16 digits, and 16 more unless two
blanks follow, and undoes the escapes behind the blanks. It reads back what was written
(`readEntry_render`). -/

namespace Hayahash.Spec.Output

open Hayahash.Lib.Bytes (Byte)
open Hayahash.Lib.Codec Hayahash.Cli.Output
open Hayahash.C.Primitives (Word)

/-- The digest of a line. -/
inductive Digest where
  | d64 (lo : Word)
  | d128 (lo hi : Word)
deriving DecidableEq

/-- What a line says. -/
structure Entry where
  digest : Digest
  label : List Byte
deriving DecidableEq

/-- What a result says in its line: the high word is printed in the wide form only. -/
def entry (r : Result) : Entry where
  digest :=
    match r.bits with
    | .b64 => .d64 r.lo
    | .b128 => .d128 r.lo r.hi
  label := r.label.bytes

/-! ### Names -/

/-- The escapes of names. -/
def escapes : Escapes Byte where
  esc := backslash
  letter c :=
    if c = backslash then some backslash
    else if c = newline then some letterN
    else if c = carriageReturn then some letterR
    else none
  symbol d :=
    if d = backslash then some backslash
    else if d = letterN then some newline
    else if d = letterR then some carriageReturn
    else none
  symbol_letter {c d} h := by
    split_ifs at h with h1 h2 h3
    · rw [← Option.some.inj h, h1]
      rfl
    · rw [← Option.some.inj h, h2]
      rfl
    · rw [← Option.some.inj h, h3]
      rfl
  letter_esc := rfl

theorem letter_isSome {c : Byte} : (escapes.letter c).isSome ↔
    c = backslash ∨ c = newline ∨ c = carriageReturn := by
  simp only [escapes]
  split_ifs with h1 h2 h3
  · simp [h1]
  · simp [h2]
  · simp [h3]
  · simp [h1, h2, h3]

theorem newline_not_mem (s : List Byte) : newline ∉ escapes.escape s := by
  refine Escapes.not_mem_escape (by decide) (by decide) (fun c => ?_) s
  simp only [escapes]
  split_ifs <;> decide

theorem carriageReturn_not_mem (s : List Byte) : carriageReturn ∉ escapes.escape s := by
  refine Escapes.not_mem_escape (by decide) (by decide) (fun c => ?_) s
  simp only [escapes]
  split_ifs <;> decide

/-! ### Digests -/

/-- The value of a hexadecimal digit. -/
def hexValue (c : Byte) : Option ℕ :=
  if 0x30 ≤ c ∧ c ≤ 0x39 then some (c.toNat - 0x30)
  else if 0x61 ≤ c ∧ c ≤ 0x66 then some (c.toNat - 0x61 + 10)
  else none

theorem hexValue_hexDigit {d : ℕ} (hd : d < 16) : hexValue (hexDigit d) = some d := by
  have hall : ∀ e : Fin 16, hexValue (hexDigit e) = some e.val := by decide
  exact hall ⟨d, hd⟩

theorem hexDigit_ne {d : ℕ} (hd : d < 16) : hexDigit d ≠ space ∧ hexDigit d ≠ backslash ∧
    hexDigit d ≠ newline ∧ hexDigit d ≠ carriageReturn := by
  have hall : ∀ e : Fin 16, hexDigit e ≠ space ∧ hexDigit e ≠ backslash ∧ hexDigit e ≠ newline ∧
      hexDigit e ≠ carriageReturn := by decide
  exact hall ⟨d, hd⟩

theorem length_hex016 (x : Word) : (hex016 x).length = 16 := by
  rw [hex016, List.length_map, length_digits]

theorem mem_hex016 {x : Word} {c : Byte} (h : c ∈ hex016 x) :
    c ≠ space ∧ c ≠ backslash ∧ c ≠ newline ∧ c ≠ carriageReturn := by
  obtain ⟨d, hd, rfl⟩ := List.mem_map.mp h
  exact hexDigit_ne (digits_lt (by decide) 16 _ d hd)

/-- A word of 16 digits, and what is behind it. -/
def readWord (s : List Byte) : Option (Word × List Byte) := do
  let ds ← (s.take 16).mapM hexValue
  if ds.length = 16 then return (.ofNat 64 (ofDigits 16 ds), s.drop 16) else none

theorem mapM_hexValue : ∀ {ds : List ℕ}, (∀ d ∈ ds, d < 16) →
    (ds.map hexDigit).mapM hexValue = some ds
  | [], _ => rfl
  | d :: ds, h => by
    rw [List.map_cons, List.mapM_cons, hexValue_hexDigit (h d List.mem_cons_self),
      mapM_hexValue fun e he => h e (List.mem_cons_of_mem d he)]
    rfl

/-- **A word is read back.** -/
theorem readWord_hex016 (x : Word) (s : List Byte) : readWord (hex016 x ++ s) = some (x, s) := by
  have htake : (hex016 x ++ s).take 16 = hex016 x := List.take_left' (length_hex016 x)
  have hdrop : (hex016 x ++ s).drop 16 = s := List.drop_left' (length_hex016 x)
  have hlt : x.toNat < 16 ^ 16 := x.isLt
  rw [readWord, htake, hdrop, hex016, mapM_hexValue (digits_lt (by decide) 16 _)]
  simp [length_digits, ofDigits_digits hlt]

/-! ### Lines -/

/-- The field of a digest. -/
def field : Digest → List Byte
  | .d64 lo => hex016 lo
  | .d128 lo hi => hex016 hi ++ hex016 lo

/-- The flag of a line whose name is escaped. -/
def flag (s : List Byte) : List Byte := if escapes.escape s = s then [] else [backslash]

/-- The line of an entry. -/
def render (e : Entry) : List Byte :=
  flag e.label ++ (field e.digest ++ ([space, space] ++ escapes.escape e.label))

/-- The calls that write a line: the flag, if there is one, the field, the name byte by byte, and
the end of the line. -/
def lineCalls (e : Entry) : List (List Byte) :=
  (if escapes.escape e.label = e.label then [] else [[backslash]]) ++
    ([field e.digest ++ [space, space]] ++ (e.label.map escapes.write ++ [[newline]]))

theorem flatten_lineCalls (e : Entry) : (lineCalls e).flatten = render e ++ [newline] := by
  have hname : (e.label.map escapes.write).flatten = escapes.escape e.label := List.flatMap_def.symm
  simp only [lineCalls, List.flatten_append, List.flatten_singleton, hname, render, flag,
    List.append_assoc]
  split_ifs <;> rfl

/-- What is behind the flag of a line. -/
def unflag (s : List Byte) : List Byte := if s.head? = some backslash then s.tail else s

/-- **What a line says**, if anything. -/
def readEntry (s : List Byte) : Option Entry := do
  let (x, s) ← readWord (unflag s)
  if s.take 2 = [space, space] then
    return ⟨.d64 x, ← escapes.unescape (s.drop 2)⟩
  else
    let (lo, s) ← readWord s
    if s.take 2 = [space, space] then return ⟨.d128 lo x, ← escapes.unescape (s.drop 2)⟩ else none

/-- **What a list says.** -/
def entries (text : List Byte) : Option (List Entry) := (lines newline text).mapM readEntry

theorem head_field (d : Digest) (s : List Byte) : (field d ++ s).head? ≠ some backslash := by
  have hhead : ∀ (x : Word) (s : List Byte), (hex016 x ++ s).head? ≠ some backslash := by
    intro x s h
    have hne : hex016 x ≠ [] := List.ne_nil_of_length_pos (by rw [length_hex016]; decide)
    rw [List.head?_append_of_ne_nil _ hne] at h
    exact (mem_hex016 (List.mem_of_mem_head? h)).2.1 rfl
  cases d with
  | d64 lo => exact hhead lo s
  | d128 lo hi =>
    rw [field, List.append_assoc]
    exact hhead hi _

theorem unflag_render (e : Entry) :
    unflag (render e) = field e.digest ++ ([space, space] ++ escapes.escape e.label) := by
  unfold unflag render flag
  by_cases h : escapes.escape e.label = e.label
  · rw [if_pos h, List.nil_append, if_neg (head_field _ _)]
  · rw [if_neg h, List.singleton_append, List.head?_cons, if_pos rfl, List.tail_cons]

/-- **A line is read back.** -/
theorem readEntry_render (e : Entry) : readEntry (render e) = some e := by
  obtain ⟨d, label⟩ := e
  have hname := escapes.unescape_escape label
  rw [readEntry, unflag_render]
  cases d with
  | d64 lo =>
    dsimp only [field]
    rw [readWord_hex016]
    simp [hname]
  | d128 lo hi =>
    have hblank : ∀ s : List Byte, (hex016 lo ++ s).take 2 ≠ [space, space] := by
      intro s h
      have hmem : space ∈ hex016 lo := by
        have htake : (hex016 lo ++ s).take 2 = (hex016 lo).take 2 :=
          List.take_append_of_le_length (by rw [length_hex016]; decide)
        rw [htake] at h
        exact List.mem_of_mem_take (h ▸ List.mem_cons_self)
      exact (mem_hex016 hmem).1 rfl
    dsimp only [field]
    rw [List.append_assoc, readWord_hex016]
    simp [hblank, readWord_hex016, hname]

theorem not_mem_render {c : Byte} (hc : c = newline ∨ c = carriageReturn) (e : Entry) :
    c ∉ render e := by
  have hfield : c ∉ field e.digest := by
    intro h
    have hword : ∀ {x : Word}, c ∉ hex016 x := by
      intro x hx
      obtain ⟨-, -, hn, hr⟩ := mem_hex016 hx
      exact hc.elim hn hr
    cases he : e.digest with
    | d64 lo =>
      rw [he, field] at h
      exact hword h
    | d128 lo hi =>
      rw [he, field, List.mem_append] at h
      exact h.elim hword hword
  have hname : c ∉ escapes.escape e.label := by
    rcases hc with rfl | rfl
    · exact newline_not_mem _
    · exact carriageReturn_not_mem _
  have hflag : c ∉ flag e.label := by
    unfold flag
    split_ifs
    · exact List.not_mem_nil
    · rcases hc with rfl | rfl <;> decide
  have hblank : c ∉ [space, space] := by rcases hc with rfl | rfl <;> decide
  simp only [render, List.mem_append, hflag, hfield, hblank, hname, or_self, not_false_eq_true]

/-- **A list is read back**: its lines, and what they say. -/
theorem entries_render (es : List Entry) :
    entries ((es.map render).flatMap (· ++ [newline])) = some es := by
  have hlines : ∀ l ∈ es.map render, newline ∉ l := by
    intro l hl
    obtain ⟨e, -, rfl⟩ := List.mem_map.mp hl
    exact not_mem_render (.inl rfl) e
  rw [entries, lines_flatMap hlines]
  induction es with
  | nil => rfl
  | cons e es ih =>
    rw [List.map_cons, List.mapM_cons, readEntry_render,
      ih fun l hl => hlines l (List.mem_cons_of_mem _ hl)]
    rfl

end Hayahash.Spec.Output
