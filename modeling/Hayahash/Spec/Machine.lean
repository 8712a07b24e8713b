import Hayahash.C.Stream
import Hayahash.Spec.Shift
import Hayahash.Spec.Stripes

/-! # The streaming machine

What every streaming state of the repository does, on byte strings: whole blocks go into the lanes,
what follows them is held back. A machine is undecided until it has seen 448 bytes; from then on it
holds at least 128 bytes and less than 448. How much it holds is part of its behaviour: an update
takes whole blocks straight from the chunk where it can, and through what it holds where it cannot.

`Holds seed xs a`: the machine `a` has been fed `xs` since it was set up with `seed`. An update
keeps it (`update_holds`), and the digests are the one-shot values of `xs` (`digest64_eq`,
`digest128_eq`). -/

namespace Hayahash.Spec.Machine

open Hayahash.Lib.ReadProg Hayahash.Lib.Bytes Hayahash.C.Primitives Hayahash.C.Walk
open Hayahash.C.Oneshot Hayahash.C.Stream Hayahash.Spec.Reference Hayahash.Spec.Shift
open Hayahash.Spec.Stripes

/-! ### Whole blocks -/

/-- The lanes after the blocks of `xs`. -/
def absorb (xs : List Byte) (s : Lanes8 × Word) : Lanes8 × Word :=
  blocks (ofList xs) (xs.length / 64) 0 s

@[simp] theorem absorb_nil (s : Lanes8 × Word) : absorb [] s = s := rfl

theorem same_left (xs ys : List Byte) {l : ℤ} (hl : l ≤ xs.length) :
    Same (ofList xs) 0 (ofList (xs ++ ys)) 0 l := fun i _ hi => by
  rw [zero_add, ofList_append_left (by omega)]

theorem same_right (xs ys : List Byte) (l : ℤ) :
    Same (ofList ys) 0 (ofList (xs ++ ys)) xs.length l := fun i h0 _ => by
  rw [zero_add, ofList_append_right h0]

theorem absorb_append {xs : List Byte} (h : 64 ∣ xs.length) (ys : List Byte)
    (s : Lanes8 × Word) : absorb (xs ++ ys) s = absorb ys (absorb xs s) := by
  obtain ⟨k, hk⟩ := h
  have hdiv : (xs ++ ys).length / 64 = k + ys.length / 64 := by
    rw [List.length_append]
    omega
  have hstart : (0 : ℤ) + 64 * (k : ℕ) = xs.length := by omega
  have hxs : xs.length / 64 = k := by omega
  unfold absorb
  rw [hdiv, blocks_add, hstart, hxs, ← blocks_same (same_left xs ys (by omega)),
    ← blocks_same (same_right xs ys _)]

/-! ### The machine -/

/-- **A streaming machine.** -/
structure Absorber where
  lanes : Lanes8 × Word
  seed : Word
  total : Word
  bulk : Bool
  held : List Byte
deriving DecidableEq

namespace Absorber

/-- A machine that was fed nothing. -/
def init (seed : Word) : Absorber := ⟨(iv8 (seed ^^^ K), 0), seed, 0, false, []⟩

/-- What is held goes into the lanes, and whole blocks of the chunk, all but 128 bytes of it. -/
def direct (a : Absorber) (c : List Byte) : Absorber × List Byte :=
  if a.held.length = keep ∧ bufcap < c.length then
    let d := 64 * ((c.length - keep) / 64)
    ({ a with lanes := absorb (c.take d) (absorb a.held a.lanes), held := [] }, c.drop d)
  else (a, c)

/-- As much of the chunk as may be held. -/
def refill (a : Absorber) (c : List Byte) : Absorber × List Byte :=
  let take := min (bufcap - a.held.length) c.length
  ({ a with held := a.held ++ c.take take }, c.drop take)

/-- All that is held, but 128 bytes, goes into the lanes. -/
def drain (a : Absorber) : Absorber :=
  let consume := 64 * ((a.held.length - keep) / 64)
  { a with lanes := absorb (a.held.take consume) a.lanes, held := a.held.drop consume }

/-- The chunk, in so many turns at most. -/
def feed : ℕ → Absorber → List Byte → Absorber
  | 0, a, _ => a
  | fuel + 1, a, c =>
    let r := (a.direct c).1.refill (a.direct c).2
    if r.1.held.length < bufcap then r.1 else feed fuel r.1.drain r.2

/-- **An update.** -/
def update (a : Absorber) (c : List Byte) : Absorber :=
  if c.length = 0 then a
  else
    let b := { a with total := a.total + .ofNat 64 c.length }
    if a.bulk = false then
      if a.held.length + c.length < bufcap then { b with held := a.held ++ c }
      else feed (c.length + 1) { b with bulk := true } c
    else feed (c.length + 1) b c

/-- The lanes where the folds begin, for a walk that ends with the `n` bytes at the start of `m` and
was at the lanes `s` before them. -/
def restLanes (m : Mem Byte) (n : ℕ) (s : Lanes8 × Word) : Lanes4 :=
  tailStep m (32 * (n / 32) : ℕ) (n % 32 : ℕ) (wallStep
    (rounds m (n % 64 / 32) (64 * (n / 64) : ℕ)
      (foldUpper (blocks m (n / 64) 0 s).1, (blocks m (n / 64) 0 s).2)))

/-- **The 128-bit digest.** -/
def digest128 (a : Absorber) : Hash128 :=
  if a.bulk = false then compact128 (ofList a.held) a.held.length a.seed
  else
    let h := restLanes (ofList a.held) a.held.length a.lanes
    longmix128 (a.seed ^^^ K) (foldT0 h (a.total * K)) (foldT1 h) K

/-- **The 64-bit digest.** -/
def digest64 (a : Absorber) : Word := a.digest128.lo

/-! ### What a machine has been fed -/

/-- Of the string `xs`, whole blocks are in the lanes, the rest is held, and `c` is still to
come. -/
def Feeding (seed : Word) (xs : List Byte) (a : Absorber) (c : List Byte) : Prop :=
  ∃ done, xs = done ++ (a.held ++ c) ∧ 64 ∣ done.length ∧
    a.lanes = absorb done (iv8 (seed ^^^ K), 0)

/-- **The machine has been fed `xs`**, under `seed`. -/
structure Holds (seed : Word) (xs : List Byte) (a : Absorber) : Prop where
  fed : Feeding seed xs a []
  seed : a.seed = seed
  total : a.total = .ofNat 64 xs.length
  lt : a.held.length < bufcap
  undecided : a.bulk = false → a.held = xs
  bulk : a.bulk = true → bufcap ≤ xs.length ∧ keep ≤ a.held.length

theorem init_holds (seed : Word) : Holds seed [] (init seed) where
  seed := rfl
  total := rfl
  fed := ⟨[], rfl, by simp, rfl⟩
  lt := by simp [init, bufcap]
  undecided _ := rfl
  bulk h := by simp [init] at h

variable {seed : Word} {xs c : List Byte} {a : Absorber}

/-- The fields that feeding leaves alone. -/
structure Kept (a b : Absorber) : Prop where
  seed : b.seed = a.seed
  total : b.total = a.total
  bulk : b.bulk = a.bulk

theorem Kept.trans {b d : Absorber} (h : Kept a b) (h' : Kept b d) : Kept a d :=
  ⟨h'.seed.trans h.seed, h'.total.trans h.total, h'.bulk.trans h.bulk⟩

theorem direct_feeding (h : Feeding seed xs a c) (hlt : a.held.length < bufcap)
    (hfloor : keep ≤ a.held.length + c.length) :
    Feeding seed xs (a.direct c).1 (a.direct c).2 ∧ Kept a (a.direct c).1 ∧
      (a.direct c).1.held.length < bufcap ∧
      keep ≤ (a.direct c).1.held.length + (a.direct c).2.length ∧
      (a.direct c).2.length ≤ c.length := by
  unfold direct
  by_cases hfast : a.held.length = keep ∧ bufcap < c.length
  · obtain ⟨hkeep, hcap⟩ := hfast
    rw [if_pos ⟨hkeep, hcap⟩]
    unfold keep at hkeep
    unfold bufcap at hcap
    obtain ⟨done, hxs, hdone, hlanes⟩ := h
    have htake : (c.take (64 * ((c.length - keep) / 64))).length =
      64 * ((c.length - keep) / 64) := by
      rw [List.length_take]
      omega
    have hheld : 64 ∣ (done ++ a.held).length := by
      rw [List.length_append]
      omega
    refine ⟨⟨done ++ a.held ++ c.take (64 * ((c.length - keep) / 64)), ?_, ?_, ?_⟩,
      ⟨rfl, rfl, rfl⟩, by simp [bufcap], ?_, ?_⟩
    · simp only [List.nil_append, List.append_assoc, List.take_append_drop, hxs]
    · rw [List.length_append, htake]
      omega
    · rw [absorb_append hheld, absorb_append hdone, ← hlanes]
    · simp only [List.length_nil, List.length_drop, keep]
      omega
    · simp only [List.length_drop]
      omega
  · rw [if_neg hfast]
    exact ⟨h, ⟨rfl, rfl, rfl⟩, hlt, hfloor, le_rfl⟩

theorem refill_feeding (h : Feeding seed xs a c) (hlt : a.held.length < bufcap)
    (hfloor : keep ≤ a.held.length + c.length) :
    Feeding seed xs (a.refill c).1 (a.refill c).2 ∧ Kept a (a.refill c).1 ∧
      keep ≤ (a.refill c).1.held.length + (a.refill c).2.length ∧
      ((a.refill c).1.held.length < bufcap ∧ (a.refill c).2 = [] ∨
        (a.refill c).1.held.length = bufcap ∧ (a.refill c).2.length < c.length) := by
  obtain ⟨done, hxs, hdone, hlanes⟩ := h
  have hheld : (a.refill c).1.held.length =
      a.held.length + min (bufcap - a.held.length) c.length := by
    simp only [refill, List.length_append, List.length_take]
    omega
  have hrest : (a.refill c).2.length = c.length - min (bufcap - a.held.length) c.length := by
    simp only [refill, List.length_drop]
  refine ⟨⟨done, ?_, hdone, hlanes⟩, ⟨rfl, rfl, rfl⟩, by omega, ?_⟩
  · simp only [refill, List.append_assoc, List.take_append_drop, hxs]
  · rw [← List.length_eq_zero_iff]
    omega

theorem drain_feeding (h : Feeding seed xs a c) (hfull : a.held.length = bufcap) :
    Feeding seed xs a.drain c ∧ Kept a a.drain ∧ a.drain.held.length = keep := by
  obtain ⟨done, hxs, hdone, hlanes⟩ := h
  have hconsume : 64 * ((a.held.length - keep) / 64) = 320 := by rw [hfull]; rfl
  have htake : (a.held.take 320).length = 320 := by
    rw [List.length_take, hfull]
    rfl
  unfold drain
  dsimp only
  rw [hconsume]
  refine ⟨⟨done ++ a.held.take 320, ?_, ?_, ?_⟩, ⟨rfl, rfl, rfl⟩, ?_⟩
  · simp only [List.append_assoc]
    rw [← List.append_assoc (a.held.take 320), List.take_append_drop]
    exact hxs
  · rw [List.length_append, htake]
    omega
  · rw [absorb_append hdone, ← hlanes]
  · simp [hfull, keep, bufcap]

theorem feed_lt (hlt : a.held.length < bufcap)
    (hfull : ((a.direct c).1.refill (a.direct c).2).1.held.length = bufcap) :
    ((a.direct c).1.refill (a.direct c).2).2.length < c.length := by
  have hstep : (a.direct c).2.length ≤ c.length ∧ (a.direct c).1.held.length < bufcap := by
    unfold direct
    split_ifs
    · simp [bufcap]
    · exact ⟨le_rfl, hlt⟩
  simp only [refill, List.length_append, List.length_take, List.length_drop] at hfull ⊢
  omega

/-- **Feeding ends**, with the chunk taken. -/
theorem feed_feeding : ∀ (fuel : ℕ) {a : Absorber} {c : List Byte}, c.length < fuel →
    Feeding seed xs a c → a.held.length < bufcap → keep ≤ a.held.length + c.length →
    Feeding seed xs (feed fuel a c) [] ∧ Kept a (feed fuel a c) ∧
      (feed fuel a c).held.length < bufcap ∧ keep ≤ (feed fuel a c).held.length := by
  intro fuel
  induction fuel with
  | zero => intro a c hc; omega
  | succ fuel ih =>
    intro a c hc h hlt hfloor
    obtain ⟨h1, k1, hlt1, hf1, hle1⟩ := direct_feeding h hlt hfloor
    obtain ⟨h2, k2, hf2, hnext⟩ := refill_feeding h1 hlt1 hf1
    unfold feed
    dsimp only
    rcases hnext with ⟨hlt2, hnil⟩ | ⟨hfull, hlen⟩
    · rw [if_pos hlt2]
      rw [hnil] at h2 hf2
      exact ⟨h2, k1.trans k2, hlt2, by simpa using hf2⟩
    · rw [if_neg (by omega)]
      obtain ⟨h3, k3, hheld⟩ := drain_feeding h2 hfull
      obtain ⟨h4, k4, hlt4, hf4⟩ := ih (by omega) h3 (by rw [hheld]; decide) (by omega)
      exact ⟨h4, ((k1.trans k2).trans k3).trans k4, hlt4, hf4⟩

/-- **An update keeps what the machine has been fed.** -/
theorem update_holds (h : Holds seed xs a) (c : List Byte) : Holds seed (xs ++ c) (a.update c) := by
  have htotal : a.total + .ofNat 64 c.length = .ofNat 64 (xs ++ c).length := by
    rw [h.total, List.length_append, BitVec.ofNat_add]
  obtain ⟨done, hxs, hdone, hlanes⟩ := h.fed
  rw [List.append_nil] at hxs
  have hxsc : xs ++ c = done ++ (a.held ++ c) := by rw [← List.append_assoc, ← hxs]
  have hlen : (xs ++ c).length = done.length + (a.held.length + c.length) := by
    rw [hxsc, List.length_append, List.length_append]
  unfold update
  dsimp only
  by_cases h0 : c.length = 0
  · rw [if_pos h0, List.eq_nil_of_length_eq_zero h0, List.append_nil]
    exact h
  rw [if_neg h0]
  cases hb : a.bulk with
  | false =>
    have hheld : a.held = xs := h.undecided hb
    rw [if_pos rfl]
    by_cases hfit : a.held.length + c.length < bufcap
    · rw [if_pos hfit]
      have hfed : Feeding seed (xs ++ c)
          { a with total := a.total + .ofNat 64 c.length, held := a.held ++ c } [] :=
        ⟨done, by rw [List.append_nil, hxsc], hdone, hlanes⟩
      exact ⟨hfed, h.seed, htotal, by simpa using hfit, fun _ => by simp [hheld],
        fun h => by simp at h⟩
    · rw [if_neg hfit]
      obtain ⟨hf, hk, hlt, hfloor⟩ := feed_feeding (c.length + 1) (by omega)
        (a := { a with total := a.total + .ofNat 64 c.length, bulk := true })
        ⟨done, hxsc, hdone, hlanes⟩ h.lt (by unfold keep bufcap at *; dsimp only; omega)
      exact ⟨hf, hk.seed.trans h.seed, hk.total.trans htotal, hlt,
        fun h => by simp [hk.bulk] at h, fun _ => ⟨by omega, hfloor⟩⟩
  | true =>
    obtain ⟨hge, hkeep⟩ := h.bulk hb
    rw [if_neg (by simp)]
    obtain ⟨hf, hk, hlt, hfloor⟩ := feed_feeding (c.length + 1) (by omega)
      (a := { a with total := a.total + .ofNat 64 c.length, bulk := true })
      ⟨done, hxsc, hdone, hlanes⟩ h.lt (by dsimp only; omega)
    exact ⟨hf, hk.seed.trans h.seed, hk.total.trans htotal, hlt,
      fun h => by simp [hk.bulk] at h,
      fun _ => ⟨by rw [List.length_append]; omega, hfloor⟩⟩

theorem Holds.bulk_iff (h : Holds seed xs a) : a.bulk = true ↔ bufcap ≤ xs.length := by
  have hlt := h.lt
  constructor
  · intro hb
    exact (h.bulk hb).1
  · intro hge
    cases hb : a.bulk with
    | false =>
      rw [h.undecided hb] at hlt
      omega
    | true => rfl

/-! ### How much is held -/

/-- What `direct` leaves held of `b` bytes, and of a chunk of `n`. -/
def directFill (b n : ℕ) : ℕ × ℕ :=
  if b = keep ∧ bufcap < n then (0, n - 64 * ((n - keep) / 64)) else (b, n)

/-- What feeding a chunk of `n` bytes leaves held. -/
def fill : ℕ → ℕ → ℕ → ℕ
  | 0, b, _ => b
  | fuel + 1, b, n =>
    let r := directFill b n
    let take := min (bufcap - r.1) r.2
    if r.1 + take < bufcap then r.1 + take
    else fill fuel (r.1 + take - 64 * ((r.1 + take - keep) / 64)) (r.2 - take)

/-- What an update with a chunk of `n` bytes leaves held. -/
def heldAfter (bulk : Bool) (b n : ℕ) : ℕ :=
  if n = 0 then b
  else if bulk = false ∧ b + n < bufcap then b + n
  else fill (n + 1) b n

theorem direct_fill (a : Absorber) (c : List Byte) :
    ((a.direct c).1.held.length, (a.direct c).2.length) =
      directFill a.held.length c.length := by
  unfold direct directFill
  split_ifs <;> simp

theorem feed_fill : ∀ (fuel : ℕ) (a : Absorber) (c : List Byte),
    (feed fuel a c).held.length = fill fuel a.held.length c.length := by
  intro fuel
  induction fuel with
  | zero => intro a c; rfl
  | succ fuel ih =>
    intro a c
    have hd := direct_fill a c
    have htake : ((a.direct c).1.refill (a.direct c).2).1.held.length =
        (a.direct c).1.held.length +
          min (bufcap - (a.direct c).1.held.length) (a.direct c).2.length := by
      simp only [refill, List.length_append, List.length_take]
      omega
    unfold feed fill
    simp only [← hd, htake]
    split_ifs
    · exact htake
    · rw [ih]
      simp only [drain, List.length_drop, htake]
      simp only [refill, List.length_drop]

theorem update_fill (a : Absorber) (c : List Byte) :
    (a.update c).held.length = heldAfter a.bulk a.held.length c.length := by
  unfold update heldAfter
  by_cases h0 : c.length = 0
  · rw [if_pos h0, if_pos h0]
  rw [if_neg h0, if_neg h0]
  dsimp only
  by_cases hb : a.bulk = false
  · rw [if_pos hb]
    by_cases hfit : a.held.length + c.length < bufcap
    · rw [if_pos hfit, if_pos ⟨hb, hfit⟩, List.length_append]
    · rw [if_neg hfit, if_neg (fun h => hfit h.2)]
      exact feed_fill _ _ _
  · rw [if_neg hb, if_neg (fun h => hb h.1)]
    exact feed_fill _ _ _

/-! ### Digests -/

/-- **The walk of a long string ends with the walk of what follows its first blocks.** -/
theorem foldLanes_append {done held : List Byte} (hdone : 64 ∣ done.length)
    (hheld : 32 ≤ held.length) (hlong : 320 ≤ (done ++ held).length) (s : Word) :
    foldLanes (ofList (done ++ held)) (done ++ held).length s =
      restLanes (ofList held) held.length (absorb done (iv8 s, 0)) := by
  obtain ⟨k, hk⟩ := hdone
  have hlen : (done ++ held).length = 64 * k + held.length := by rw [List.length_append, hk]
  have hright : ∀ p q l : ℤ, 0 ≤ p → q = 64 * k + p →
      Same (ofList (done ++ held)) q (ofList held) p l := by
    intro p q l hp hq i h0 hi
    have hpos : q + i = (done.length : ℤ) + (p + i) := by omega
    rw [hpos, ofList_append_right (by omega)]
  have hblocks : bulkState (ofList (done ++ held)) (done ++ held).length s =
      blocks (ofList held) (held.length / 64) 0 (absorb done (iv8 s, 0)) := by
    have hdiv : done.length / 64 = k := by omega
    have hsplit : (done ++ held).length / 64 = k + held.length / 64 := by omega
    rw [bulkState, hsplit, blocks_add, absorb, hdiv,
      blocks_same (hright 0 _ _ le_rfl (by ring)), ← blocks_same (same_left done held (by omega))]
  have hmod : (done ++ held).length % 64 = held.length % 64 := by omega
  have hmod' : (done ++ held).length % 32 = held.length % 32 := by omega
  unfold foldLanes walkState restLanes
  dsimp only
  rw [if_neg (by omega), hblocks, hmod, hmod',
    rounds_same (hright (64 * (held.length / 64) : ℕ) _ _ (by omega) (by omega)),
    tailStep_same (hright ((32 * (held.length / 32) : ℕ) + (held.length % 32 : ℕ) - 32) _ _
      (by omega) (by omega)) (by omega)]

/-- **The digests of a machine are the one-shot values of what it has been fed.** -/
theorem digest128_eq (h : Holds seed xs a) :
    a.digest128 = compact128 (ofList xs) xs.length seed := by
  unfold digest128
  cases hb : a.bulk with
  | false => rw [if_pos rfl, h.undecided hb, h.seed]
  | true =>
    obtain ⟨hge, hkeep⟩ := h.bulk hb
    obtain ⟨done, hxs, hdone, hlanes⟩ := h.fed
    rw [List.append_nil] at hxs
    unfold keep at hkeep
    unfold bufcap at hge
    have hlong : 320 ≤ (done ++ a.held).length := by rw [← hxs]; omega
    have hmix : a.total * K = lenmix (done ++ a.held).length := by
      rw [h.total, lenmix, BitVec.ofInt_natCast, hxs]
    rw [if_neg (by simp), hxs, compact128, compact64, compactHi, if_neg (by omega),
      if_neg (by omega), foldLanes_append hdone (by omega) hlong, ← hlanes, hmix, h.seed]
    rfl

theorem digest64_eq (h : Holds seed xs a) : a.digest64 = compact64 (ofList xs) xs.length seed := by
  rw [digest64, digest128_eq h]
  rfl

end Absorber

end Hayahash.Spec.Machine
