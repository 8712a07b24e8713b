import Hayahash.Lib.Bytes

/-! # Formats

A format says how values are written, such that nothing else has to be known to read them: what is
written of a value is never the beginning of what is written of another (`Format.unique`). What is
written at the front of a text is therefore known, and so is what follows (`Format.Begins.unique`).

* Formats are put together: `chunk`, `coded` (in a `Coding`, such as that of words), `dep` (what
  follows depends on what was written), `times`, `such` (only some of the values), `through` (values
  that are packed first).
* `Follows`: a computation that moves a position through a text reads a format, that is, it finds
  the value that is written there, and fails if there is none. There is one rule for each way to put
  formats together.
* `Follows.whole`: a computation that reads a format and arrives at the end of the text. -/

namespace Hayahash.Lib.Wire

variable {σ α β γ δ ε : Type*}

/-! ### Formats -/

/-- **A format.** -/
structure Format (σ α : Type*) where
  Valid : α → Prop
  write : α → List σ
  unique : ∀ {a b : α} {x y : List σ}, Valid a → Valid b → write a ++ x = write b ++ y → a = b

namespace Format

/-- The value that is written at the front of `l`, and what follows. -/
def Begins (F : Format σ α) (l : List σ) (a : α) (rest : List σ) : Prop :=
  F.Valid a ∧ l = F.write a ++ rest

variable {F : Format σ α} {l rest rest' : List σ} {a b : α}

/-- **What is written at the front is known**, and so is what follows. -/
theorem Begins.unique (h : F.Begins l a rest) (h' : F.Begins l b rest') : a = b ∧ rest = rest' := by
  obtain ⟨ha, rfl⟩ := h
  obtain ⟨hb, heq⟩ := h'
  obtain rfl := F.unique ha hb heq
  exact ⟨rfl, List.append_cancel_left heq⟩

end Format

/-- **A code** with as many symbols for each value, that uses all there are. -/
structure Coding (σ α : Type*) where
  size : ℕ
  code : α → List σ
  decode : List σ → α
  length : ∀ a, (code a).length = size
  decode_code : ∀ a, decode (code a) = a
  code_decode : ∀ {l}, l.length = size → code (decode l) = l

namespace Format

/-! ### How formats are put together -/

/-- `n` symbols. -/
def chunk (n : ℕ) : Format σ (List σ) where
  Valid l := l.length = n
  write l := l
  unique ha hb h := List.append_inj_left h (ha.trans hb.symm)

/-- A value, in a code. -/
def coded (C : Coding σ α) : Format σ α where
  Valid _ := True
  write := C.code
  unique {a b _ _} _ _ h := by
    have hcode := List.append_inj_left h ((C.length a).trans (C.length b).symm)
    rw [← C.decode_code a, hcode, C.decode_code]

/-- One value, and then another one, in a format that depends on the first. -/
def dep (F : Format σ α) (G : α → Format σ β) : Format σ (α × β) where
  Valid p := F.Valid p.1 ∧ (G p.1).Valid p.2
  write p := F.write p.1 ++ (G p.1).write p.2
  unique {p q x y} hp hq h := by
    obtain ⟨a, b⟩ := p
    obtain ⟨a', b'⟩ := q
    rw [List.append_assoc, List.append_assoc] at h
    obtain rfl : a = a' := F.unique hp.1 hq.1 h
    exact congrArg _ ((G a).unique hp.2 hq.2 (List.append_cancel_left h))

/-- One value, and then another one. -/
def seq (F : Format σ α) (G : Format σ β) : Format σ (α × β) := F.dep fun _ => G

/-- Only the values with a property. -/
def such (F : Format σ α) (p : α → Prop) : Format σ α where
  Valid a := F.Valid a ∧ p a
  write := F.write
  unique ha hb h := F.unique ha.1 hb.1 h

/-- Values that are packed, and then written. -/
def through (F : Format σ α) (pack : β → α) (hinj : Function.Injective pack) : Format σ β where
  Valid b := F.Valid (pack b)
  write b := F.write (pack b)
  unique ha hb h := hinj (F.unique ha hb h)

theorem flatMap_unique (F : Format σ α) : ∀ {as bs : List α} {x y : List σ}, (∀ a ∈ as, F.Valid a) →
    (∀ b ∈ bs, F.Valid b) → as.length = bs.length → as.flatMap F.write ++ x =
    bs.flatMap F.write ++ y → as = bs := by
  intro as
  induction as with
  | nil =>
    intro bs x y _ _ hlen _
    exact (List.eq_nil_of_length_eq_zero hlen.symm).symm
  | cons a as ih =>
    intro bs x y has hbs hlen h
    cases bs with
    | nil => cases hlen
    | cons b bs =>
      rw [List.flatMap_cons, List.flatMap_cons, List.append_assoc, List.append_assoc] at h
      obtain rfl : a = b := F.unique (has a List.mem_cons_self) (hbs b List.mem_cons_self) h
      have htail : as = bs := ih (fun a ha => has a (List.mem_cons_of_mem _ ha))
        (fun b hb => hbs b (List.mem_cons_of_mem _ hb)) (Nat.succ.inj hlen)
        (List.append_cancel_left h)
      rw [htail]

/-- `n` values, one behind the other. -/
def times (n : ℕ) (F : Format σ α) : Format σ (List α) where
  Valid as := as.length = n ∧ ∀ a ∈ as, F.Valid a
  write as := as.flatMap F.write
  unique ha hb h := F.flatMap_unique ha.2 hb.2 (ha.1.trans hb.1.symm) h

end Format

/-! ### Words -/

section Words
open Hayahash.Lib.Bytes

theorem word64_take {l : List Byte} (h : l.length = 8) :
    (List.range 8).map (byteOf (word64 (ofList l) 0)) = l := by
  refine List.ext_getElem (by rw [length_bytes, h]) fun i hi hi' => ?_
  have hbytes := congrFun (le64_inj (le64_bytes (word64 (ofList l) 0))) ⟨i, by omega⟩
  rw [List.getElem_map, List.getElem_range]
  dsimp only at hbytes
  rw [hbytes, zero_add, ofList_nat, List.getD_eq_getElem _ _ hi']

/-- The bytes of a half word, least significant first. -/
def bytes32 (x : BitVec 32) : List Byte := (List.range 4).map fun i => x.extractLsb' (8 * i) 8

theorem length_bytes32 (x : BitVec 32) : (bytes32 x).length = 4 := by
  rw [bytes32, List.length_map, List.length_range]

theorem le32_bytes (x : BitVec 32) : (le32 fun i : Fin 4 => x.extractLsb' (8 * i) 8) = x := by
  refine eq_of_bytes 4 fun j r hr => ?_
  rw [getLsbD_le32 _ j hr, BitVec.getLsbD_extractLsb']
  simp [hr]

theorem word32_bytes (x : BitVec 32) : word32 (ofList (bytes32 x)) 0 = x := by
  rw [word32]
  have hbyte : (fun i : Fin 4 => ofList (bytes32 x) (0 + i)) =
      fun i : Fin 4 => x.extractLsb' (8 * (i : ℕ)) 8 := by
    funext i
    have hi : (i : ℕ) < (bytes32 x).length := by rw [length_bytes32]; exact i.isLt
    rw [zero_add, ofList_nat, List.getD_eq_getElem _ _ hi]
    simp only [bytes32, List.getElem_map, List.getElem_range]
  rw [hbyte, le32_bytes]

theorem word32_take {l : List Byte} (h : l.length = 4) : bytes32 (word32 (ofList l) 0) = l := by
  refine List.ext_getElem (by rw [length_bytes32, h]) fun i hi hi' => ?_
  have hbytes := congrFun (le32_inj (le32_bytes (word32 (ofList l) 0))) ⟨i, by omega⟩
  simp only [bytes32, List.getElem_map, List.getElem_range]
  dsimp only at hbytes
  rw [hbytes, zero_add, ofList_nat, List.getD_eq_getElem _ _ hi']

/-- Half words of four bytes. -/
def Coding.word32 : Coding Byte (BitVec 32) where
  size := 4
  code := bytes32
  decode l := Bytes.word32 (ofList l) 0
  length := length_bytes32
  decode_code := word32_bytes
  code_decode := word32_take

/-- Words of eight bytes. -/
def Coding.word64 : Coding Byte (BitVec 64) where
  size := 8
  code x := (List.range 8).map (byteOf x)
  decode l := Bytes.word64 (ofList l) 0
  length := length_bytes
  decode_code x := by
    have h := word64_bytes x []
    rwa [List.append_nil] at h
  code_decode := word64_take

end Words

/-! ### Computations with a position -/

/-- A computation that moves a position, or fails. -/
abbrev Cursor (ε α : Type) := StateT ℤ (Except ε) α

/-- Do this `k` times, and count from `i` on. -/
def repeatFrom {ε : Type} (f : ℕ → Cursor ε Unit) : ℕ → ℕ → Cursor ε Unit
  | 0, _ => pure ()
  | k + 1, i => do
    f i
    repeatFrom f k (i + 1)

/-- What is made of what stands at `n`: a value that goes with the one that is written there, and
the position behind it; or a failure, if none is written there. -/
inductive Finds {σ α β ε : Type} (l : List σ) (F : Format σ α) (R : β → α → Prop) (n : ℕ) :
    Except ε (β × ℤ) → Prop
  | value {a : α} {b : β} {k : ℕ} (hk : k ≤ l.length) (h : F.Begins (l.drop n) a (l.drop k))
      (hR : R b a) :
    Finds l F R n (.ok (b, (k : ℤ)))
  | nothing {e : ε} (h : ∀ a rest, ¬F.Begins (l.drop n) a rest) : Finds l F R n (.error e)

/-- **The computation reads the format**, at any position in the text. -/
def Follows {σ α β ε : Type} (l : List σ) (c : Cursor ε β) (F : Format σ α) (R : β → α → Prop) :
    Prop :=
  ∀ n : ℕ, n ≤ l.length → Finds l F R n (c n)

section Follows
variable {σ α β γ δ ε : Type} {l : List σ} {c : Cursor ε β} {F : Format σ α} {R : β → α → Prop}

theorem Follows.chunk {k : ℕ} {R : β → List σ → Prop}
    (h : ∀ n : ℕ, n + k ≤ l.length → ∃ b, c n = .ok (b, ((n + k : ℕ) : ℤ)) ∧
    R b ((l.drop n).take k)) (h' : ∀ n : ℕ, n ≤ l.length → l.length < n + k → ∃ e, c n = .error e) :
    Follows l c (Format.chunk k) R := by
  intro n hn
  by_cases hk : n + k ≤ l.length
  · obtain ⟨b, hb, hR⟩ := h n hk
    rw [hb]
    refine .value hk ⟨?_, ?_⟩ hR
    · show ((l.drop n).take k).length = k
      rw [List.length_take, List.length_drop]
      omega
    · show l.drop n = (l.drop n).take k ++ l.drop (n + k)
      rw [← List.drop_drop, List.take_append_drop]
  · obtain ⟨e, he⟩ := h' n hn (by omega)
    rw [he]
    refine .nothing fun s rest hs => hk ?_
    have hlen := congrArg List.length hs.2
    have hsize : s.length = k := hs.1
    rw [List.length_drop, List.length_append, show (Format.chunk k).write s = s from rfl] at hlen
    omega

theorem Follows.decode {C : Coding σ α} {Q : β → α → Prop}
    (hc : Follows l c (Format.chunk C.size) fun b s => Q b (C.decode s)) :
    Follows l c (Format.coded C) Q := by
  intro n hn
  have hfirst := hc n hn
  generalize c n = x at hfirst
  cases hfirst with
  | @value s b k hk h hQ =>
    refine .value hk ⟨trivial, ?_⟩ hQ
    show l.drop n = C.code (C.decode s) ++ l.drop k
    rw [C.code_decode h.1]
    exact h.2
  | nothing h => exact .nothing fun a rest h' => h (C.code a) rest ⟨C.length a, h'.2⟩

/-- **One behind the other.** -/
theorem Follows.bind {G : α → Format σ γ} {f : β → Cursor ε δ} {Q : δ → α × γ → Prop}
    (hc : Follows l c F R)
    (hf : ∀ b a, F.Valid a → R b a → Follows l (f b) (G a) fun d y => Q d (a, y)) :
    Follows l (c >>= f) (F.dep G) Q := by
  intro n hn
  show Finds l (F.dep G) Q n (c n >>= fun p => f p.1 p.2)
  have hfirst := hc n hn
  generalize c n = x at hfirst
  cases hfirst with
  | @value a b k hk h hR =>
    show Finds l (F.dep G) Q n (f b k)
    have hsecond := hf b a h.1 hR k hk
    generalize f b k = y at hsecond
    cases hsecond with
    | @value y d k' hk' h' hQ =>
      refine .value (a := (a, y)) hk' ⟨⟨h.1, h'.1⟩, ?_⟩ hQ
      rw [h.2, h'.2]
      exact (List.append_assoc _ _ _).symm
    | nothing h' =>
      refine .nothing fun p rest hp => ?_
      obtain ⟨a', y⟩ := p
      have hfront : F.Begins (l.drop n) a' ((G a').write y ++ rest) :=
        ⟨hp.1.1, hp.2.trans (List.append_assoc _ _ _)⟩
      obtain ⟨rfl, hrest⟩ := h.unique hfront
      exact h' y rest ⟨hp.1.2, hrest⟩
  | nothing h =>
    refine .nothing fun p rest hp => ?_
    exact h p.1 _ ⟨hp.1.1, hp.2.trans (List.append_assoc _ _ _)⟩

/-- **A test of what was read.** -/
theorem Follows.such {p : α → Prop} {f : β → Cursor ε δ} {Q : δ → α → Prop} (hc : Follows l c F R)
    (hyes : ∀ b a, F.Valid a → R b a → p a → ∃ d, f b = pure d ∧ Q d a)
    (hno : ∀ b a, F.Valid a → R b a → ¬p a → ∃ e, f b = throw e) :
    Follows l (c >>= f) (F.such p) Q := by
  intro n hn
  show Finds l (F.such p) Q n (c n >>= fun q => f q.1 q.2)
  have hfirst := hc n hn
  generalize c n = x at hfirst
  cases hfirst with
  | @value a b k hk h hR =>
    show Finds l (F.such p) Q n (f b k)
    by_cases hp : p a
    · obtain ⟨d, hd, hQ⟩ := hyes b a h.1 hR hp
      rw [hd]
      exact .value hk ⟨⟨h.1, hp⟩, h.2⟩ hQ
    · obtain ⟨e, he⟩ := hno b a h.1 hR hp
      rw [he]
      refine .nothing fun a' rest h' => hp ?_
      obtain ⟨rfl, -⟩ := h.unique ⟨h'.1.1, h'.2⟩
      exact h'.1.2
  | nothing h => exact .nothing fun a rest h' => h a rest ⟨h'.1.1, h'.2⟩

theorem Follows.map {f : β → Cursor ε δ} {Q : δ → α → Prop} (hc : Follows l c F R)
    (hf : ∀ b a, F.Valid a → R b a → ∃ d, f b = pure d ∧ Q d a) : Follows l (c >>= f) F Q := by
  intro n hn
  show Finds l F Q n (c n >>= fun q => f q.1 q.2)
  have hfirst := hc n hn
  generalize c n = x at hfirst
  cases hfirst with
  | @value a b k hk h hR =>
    show Finds l F Q n (f b k)
    obtain ⟨d, hd, hQ⟩ := hf b a h.1 hR
    rw [hd]
    exact .value hk h hQ
  | nothing h => exact .nothing h

theorem Follows.through {pack : γ → α} {hinj : Function.Injective pack} {Q : β → γ → Prop}
    (hc : Follows l c F R) (hpack : ∀ a, F.Valid a → ∃ y, pack y = a)
    (hQ : ∀ b y, R b (pack y) → Q b y) :
    Follows l c (F.through pack hinj) Q := by
  intro n hn
  have hfirst := hc n hn
  generalize c n = x at hfirst
  cases hfirst with
  | @value a b k hk h hR =>
    obtain ⟨y, rfl⟩ := hpack a h.1
    exact .value hk h (hQ b y hR)
  | nothing h => exact .nothing fun y rest h' => h (pack y) rest h'

/-- **An early test that there is enough left** makes no difference. -/
theorem Follows.early {k : ℕ} {r : Cursor ε Unit} (hc : Follows l c F R)
    (hlong : ∀ a, F.Valid a → k ≤ (F.write a).length)
    (hr : ∀ n : ℕ, n ≤ l.length → r n = .ok ((), (n : ℤ)) ∨
      (l.length < n + k ∧ ∃ e, r n = .error e)) :
    Follows l (r >>= fun _ => c) F R := by
  intro n hn
  show Finds l F R n (r n >>= fun p => c p.2)
  rcases hr n hn with hr | ⟨hlt, e, hr⟩
  · rw [hr]
    exact hc n hn
  · rw [hr]
    refine .nothing fun a rest h => ?_
    have hlen := congrArg List.length h.2
    rw [List.length_drop, List.length_append] at hlen
    have hle := hlong a h.1
    omega

/-- **A loop**, by what it does once. -/
theorem Follows.times {f : ℕ → Cursor ε Unit} (hf : ∀ i, Follows l (f i) F fun _ _ =>
    True) (k : ℕ) : ∀ i, Follows l (repeatFrom f k i) (F.times k) fun _ _ => True := by
  induction k with
  | zero =>
    intro i n hn
    exact .value (a := []) hn ⟨⟨rfl, fun a ha => absurd ha List.not_mem_nil⟩, rfl⟩ trivial
  | succ k ih =>
    intro i
    -- a list of `k + 1` values is a value and a list
    have hcons : Follows l (repeatFrom f (k + 1) i) (F.seq (F.times k)) fun _ _ => True :=
      (hf i).bind fun _ _ _ _ => ih (i + 1)
    intro n hn
    have hfirst := hcons n hn
    generalize repeatFrom f (k + 1) i n = x at hfirst
    cases hfirst with
    | @value p b j hj h _ =>
      obtain ⟨a, as⟩ := p
      obtain ⟨⟨ha, hlen, has⟩, heq⟩ := h
      exact .value hj ⟨⟨congrArg (· + 1) hlen, List.forall_mem_cons.mpr ⟨ha, has⟩⟩, heq⟩ trivial
    | nothing h =>
      refine .nothing fun as rest h' => ?_
      obtain ⟨⟨hlen, has⟩, heq⟩ := h'
      cases as with
      | nil => cases hlen
      | cons a as =>
        obtain ⟨ha, has⟩ := List.forall_mem_cons.mp has
        exact h (a, as) rest ⟨⟨ha, Nat.succ.inj hlen, has⟩, heq⟩

/-- **It reads the whole text**, and then a test of where it is passes, exactly if the text is in
the format. -/
theorem Follows.whole {r : Cursor ε Unit} (hc : Follows l c F R)
    (hr : r l.length = .ok ((), (l.length : ℤ)))
    (hr' : ∀ n : ℕ, n < l.length → ∃ e, r n = .error e) :
    ((c >>= fun _ => r).run 0).isOk = true ↔ ∃ a, F.Valid a ∧ l = F.write a := by
  show (c 0 >>= fun p => r p.2).isOk = true ↔ _
  have hfirst : Finds l F R 0 (c 0) := hc 0 (Nat.zero_le _)
  generalize c 0 = x at hfirst
  cases hfirst with
  | @value a b k hk h hR =>
    have hend : k = l.length ↔ l.drop k = [] := by
      rw [List.drop_eq_nil_iff]
      omega
    show (r k).isOk = true ↔ _
    constructor
    · intro hok
      have hk' : k = l.length := by
        by_contra hne
        obtain ⟨e, he⟩ := hr' k (by omega)
        rw [he] at hok
        cases hok
      refine ⟨a, h.1, ?_⟩
      rw [← List.append_nil (F.write a), ← hend.mp hk']
      exact h.2
    · rintro ⟨a', ha', heq⟩
      obtain ⟨-, hrest⟩ := h.unique ⟨ha', heq.trans (List.append_nil _).symm⟩
      rw [hend.mpr hrest, hr]
      rfl
  | nothing h =>
    constructor
    · intro hok
      cases hok
    · rintro ⟨a, ha, heq⟩
      exact absurd ⟨ha, heq.trans (List.append_nil _).symm⟩ (h a [])

end Follows

end Hayahash.Lib.Wire
