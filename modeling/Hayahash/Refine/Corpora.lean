import Hayahash.Refine.CSharp
import Hayahash.Refine.Go
import Hayahash.Refine.Java
import Hayahash.Refine.Python
import Hayahash.Refine.Rust
import Hayahash.Refine.Zig
import Hayahash.Spec.Corpora

/-! # The readers read the format

`Reads H corpus hi`: what the parts of a reader have to do. **`Reads.passes_iff`**: its test then
passes exactly on the right corpora. Each reader has such parts: `reads_slices` for those that take
slices, `reads_ahead` for those that look ahead. -/

namespace Hayahash.Refine.Corpora

open Hayahash.Lib.Bytes Hayahash.Lib.Checked Hayahash.Lib.Arrays Hayahash.Lib.Wire
open Hayahash.Lib.Wire.Format Hayahash.Spec.Reference Hayahash.Spec.Corpora
open Hayahash.Ports.Session Hayahash.Ports.Differential Hayahash.Refine.PortStream
  Hayahash.Lib.Effects
open Hayahash.Refine.PortWalk (compact128_lo)
open Hayahash.C.Primitives (Word Target)
open Hayahash.C.Walk (Hash128)

variable {H : Harness} {corpus : List Byte} {hi : ℕ}

/-! ### From the parts to the test -/

/-- The bytes in view, in the file. -/
structure ShowsIn (corpus : List Byte) (hi : ℕ) (v : View) (bs : List Byte) :
    Prop extends Shows hi v bs where
  data : v.data = corpus

/-- What a reader makes of a case. -/
structure Compares (corpus : List Byte) (hi : ℕ)
    (compare : ℕ → View → Word → Word → Word → Test Unit) : Prop where
  agree : ∀ {i v bs seed lo hi'}, ShowsIn corpus hi v bs →
    compact128 (ofList bs) bs.length seed = ⟨lo, hi'⟩ → compare i v seed lo hi' = pure ()
  differ : ∀ {i v bs seed lo hi'}, ShowsIn corpus hi v bs →
    compact128 (ofList bs) bs.length seed ≠ ⟨lo, hi'⟩ → ∃ e, compare i v seed lo hi' = throw e

/-- **What the parts of a reader do.** -/
structure Reads (H : Harness) (corpus : List Byte) (hi : ℕ) : Prop where
  ahead : ∀ k n : ℕ, n ≤ corpus.length → H.requireRemaining k n = .ok ((), (n : ℤ)) ∨
    (corpus.length < n + k ∧ ∃ e, H.requireRemaining k n = .error e)
  u32 : Follows corpus H.readU32 (coded .word32) Eq
  u64 : Follows corpus H.readU64 (coded .word64) Eq
  front : Follows corpus H.readMagic ((chunk 8).such (· = magic)) fun _ _ => True
  input : ∀ length, Follows corpus (H.readInput length) (chunk length.toNat) (ShowsIn corpus hi)
  compare : Compares corpus hi H.compare

/-- **A case is read** exactly if it is a right one. -/
theorem Reads.case (h : Reads H corpus hi) (i : ℕ) :
    Follows corpus (H.readCase i) Case.format fun _ _ => True := by
  refine Follows.through (R := fun _ _ => True) ?_ ?_ fun _ _ _ => trivial
  · refine Follows.early (k := 28) ?_ ?_ (h.ahead 28)
    · refine h.u32.bind fun length _ _ hlength => h.u64.bind fun seed _ _ hseed => ?_
      refine h.u64.bind fun lo _ _ hlo => h.u64.bind fun hi' _ _ hhi => ?_
      subst hlength hseed hlo hhi
      refine (h.input length).such (fun v bs _ hv hright => ?_) fun v bs _ hv hwrong => ?_
      · exact ⟨(), h.compare.agree hv hright, trivial⟩
      · exact h.compare.differ hv hwrong
    · rintro ⟨length, seed, lo, hi', data⟩ -
      show 28 ≤ (bytes32 length ++ (bytes64 seed ++ (bytes64 lo ++ (bytes64 hi' ++ data)))).length
      simp only [List.length_append, length_bytes32, bytes64, length_bytes]
      omega
  · rintro ⟨length, seed, lo, hi', data⟩ hvalid
    have hlen : data.length = length.toNat := hvalid.2.2.2.2.1
    refine ⟨⟨data, seed, lo, hi'⟩, ?_⟩
    simp only [Case.fields, Case.length, hlen, BitVec.ofNat_toNat, BitVec.setWidth_eq]

theorem Reads.cases (h : Reads H corpus hi) :
    Follows corpus (H.readMagic >>= fun _ => H.readCases) Corpus.format fun _ _ => True := by
  refine Follows.through (R := fun _ _ => True) ?_ ?_ fun _ _ _ => trivial
  · refine h.front.bind fun _ _ _ _ => Follows.early (k := 12) ?_ ?_ (h.ahead 12)
    · refine h.u32.bind fun count _ _ hcount => h.u64.bind fun seed _ _ _ => ?_
      subst hcount
      exact Follows.times h.case count.toNat 0
    · rintro ⟨count, seed, cases⟩ -
      show 12 ≤ (bytes32 count ++ (bytes64 seed ++ cases.flatMap _)).length
      simp only [List.length_append, length_bytes32, bytes64, length_bytes]
      omega
  · rintro ⟨front, count, seed, cases⟩ hvalid
    have hfront : front = magic := hvalid.1.2
    have hcount : cases.length = count.toNat := hvalid.2.2.2.1
    refine ⟨⟨seed, cases⟩, ?_⟩
    simp only [Corpus.fields, hfront, hcount, BitVec.ofNat_toNat, BitVec.setWidth_eq]

/-- **The test passes exactly on right corpora.** -/
theorem Reads.passes_iff (h : Reads H corpus hi) :
    H.passes corpus = true ↔ ∃ c : Corpus, c.Fits ∧ c.Right ∧ corpus = c.bytes := by
  have hvalid : H.passes corpus = true ↔ ∃ c, Corpus.format.Valid c ∧ corpus =
    Corpus.format.write c := by
    have htest : H.test corpus.length = ((H.readMagic >>= fun _ => H.readCases) >>= fun _ => do
        let offset ← get
        ensure (offset = corpus.length) (.trailing (corpus.length - offset))) := by
      rw [bind_assoc]
      rfl
    rw [Harness.passes, htest]
    refine h.cases.whole ?_ fun n hn => ⟨.trailing (corpus.length - n), ?_⟩
    · show (ensure _ _ : Test Unit) _ = _
      rw [ensure, if_pos rfl]
      rfl
    · show (ensure _ _ : Test Unit) _ = _
      rw [ensure, if_neg (by omega)]
      rfl
  rw [hvalid]
  simp only [Corpus.format_valid, Corpus.format_write, and_assoc]

/-! ### Steps of a reader -/

section Steps
variable {α β : Type} {p : Prop} [Decidable p] {e : Failure}

theorem ensure_pos (h : p) : ensure p e = pure () := if_pos h

theorem ensure_neg (h : ¬p) : ensure p e = throw e := if_neg h

theorem checked_pure (a : α) : checked (pure a) = pure a := rfl

theorem throw_bind (e : Failure) (f : α → Test β) : (throw e >>= f : Test β) = throw e := rfl

end Steps

/-- **The comparison**, of a port whose hashes are those of the bytes in view. -/
theorem compares_compareWith {h128 : View → Word → Chk Hash128} {h64 : View → Word → Chk Word}
    (hwide : ∀ {v bs} (seed), ShowsIn corpus hi v bs →
      h128 v seed = pure (compact128 (ofList bs) bs.length seed))
    (hlow : ∀ {v bs} (seed), ShowsIn corpus hi v bs →
      h64 v seed = pure (compact64 (ofList bs) bs.length seed)) :
    Compares corpus hi (compareWith h128 h64) where
  agree {i v bs seed lo hi'} hv h := by
    have hlo : compact64 (ofList bs) bs.length seed = lo := by rw [← compact128_lo, h]
    rw [compareWith, hwide seed hv, hlow seed hv, h, hlo, checked_pure, checked_pure, pure_bind,
      pure_bind, ensure_pos ⟨rfl, rfl⟩, pure_bind, ensure_pos rfl]
  differ {i v bs seed lo hi'} hv h := by
    refine ⟨.digest i, ?_⟩
    rw [compareWith, hwide seed hv, checked_pure, pure_bind, ensure_neg, throw_bind]
    rintro ⟨rfl, rfl⟩
    exact h rfl

section Parts
variable {I : Ints} (hI : I.Upto hi) (hle : corpus.length ≤ hi)
include hI hle

theorem slice_eq {n k : ℕ} (h : n + k ≤ corpus.length) : ∃ v,
    slice I corpus k n = .ok (v, ((n + k : ℕ) : ℤ)) ∧
      ShowsIn corpus hi v ((corpus.drop n).take k) := by
  obtain ⟨v, hpart, hv⟩ := (shows_all hle).part (Nat.le_add_right n k) h
  have hdata : v.data = corpus := by
    unfold View.part at hpart
    split_ifs at hpart
    · rw [← Except.ok.inj hpart]
      rfl
    · cases hpart
  have hadd : I.add n k = pure ((n + k : ℕ) : ℤ) := by
    rw [hI.add (by omega) (by omega)]
    push_cast
    rfl
  rw [Nat.add_sub_cancel_left] at hv
  refine ⟨v, ?_, hv, hdata⟩
  have hunfold : slice I corpus k n = (checked (I.add n k) >>= fun fin =>
      checked ((View.all corpus).part n fin) >>= fun value => set fin >>= fun _ => pure value :
      Test View) n :=
    rfl
  rw [hunfold, hadd, checked_pure, pure_bind, hpart]
  rfl

theorem requireRemaining_eq {n : ℕ} (hn : n ≤ corpus.length) (k : ℤ) :
    requireRemaining I corpus k n =
      if 0 ≤ k ∧ n + k ≤ corpus.length then .ok ((), (n : ℤ)) else .error (.truncated n) := by
  have hunfold : requireRemaining I corpus k n = (ensure (0 ≤ k) (.truncated n) >>= fun _ =>
      checked (I.sub corpus.length n) >>= fun remaining =>
      ensure (k ≤ remaining) (.truncated n)) n := rfl
  rw [hunfold, hI.sub (by omega) (by omega), checked_pure, pure_bind]
  by_cases hk : 0 ≤ k
  · rw [ensure_pos hk, pure_bind]
    by_cases hfit : n + k ≤ corpus.length
    · rw [ensure_pos (by omega), if_pos ⟨hk, hfit⟩]
      rfl
    · rw [ensure_neg (by omega), if_neg fun h => hfit h.2]
      rfl
  · rw [ensure_neg hk, if_neg fun h => hk h.1]
    rfl

end Parts

/-! ### Numbers -/

theorem word64_front {bs : List Byte} (h : 8 ≤ bs.length) :
    word64 (ofList bs) 0 = word64 (ofList (bs.take 8)) 0 := by
  refine word64_shift fun i hi hi' => ?_
  nth_rewrite 1 [← List.take_append_drop 8 bs]
  exact ofList_append_left (by rw [List.length_take]; omega)

theorem word32_front {bs : List Byte} (h : 4 ≤ bs.length) :
    word32 (ofList bs) 0 = word32 (ofList (bs.take 4)) 0 := by
  refine congrArg le32 (funext fun i => ?_)
  nth_rewrite 1 [← List.take_append_drop 4 bs]
  refine ofList_append_left ?_
  rw [List.length_take]
  omega

/-- **A read of a coded number** from the front of a view. -/
structure ReadsCode {α : Type} (C : Coding Byte α) (read : View → ℤ → Chk α) : Prop where
  reads : ∀ {v : View}, v.Valid → C.size ≤ v.len → read v 0 = pure (C.decode (v.bytes.take C.size))
  fails : ∀ {v : View}, v.len < C.size → ∃ e, read v 0 = throw e

theorem readsCode_read64 : ReadsCode .word64 View.read64 where
  reads {v} hv hlen := by
    have h8 : (8 : ℤ) ≤ v.len := hlen
    have hbytes := hv.length_bytes
    rw [hv.read64 le_rfl (by omega), word64_front (by omega)]
    rfl
  fails {v} hlen := by
    have h8 : v.len < (8 : ℤ) := hlen
    exact ⟨.bounds, if_neg (by omega)⟩

theorem readsCode_read32 : ReadsCode .word32 View.read32 where
  reads {v} hv hlen := by
    have h4 : (4 : ℤ) ≤ v.len := hlen
    have hbytes := hv.length_bytes
    rw [hv.read32 le_rfl (by omega), word32_front (by omega)]
    rfl
  fails {v} hlen := by
    have h4 : v.len < (4 : ℤ) := hlen
    exact ⟨.bounds, if_neg (by omega)⟩

section Numbers
variable {α : Type} {C : Coding Byte α} {read : View → ℤ → Chk α} (hread : ReadsCode C read)
include hread

theorem field_follows {I : Ints} (hI : I.Upto hi) (hle : corpus.length ≤ hi) :
    Follows corpus (field I corpus C.size read) (coded C) Eq := by
  refine Follows.decode (Follows.chunk (fun n hn => ?_) fun n hn hlt => ?_)
  · have hshows : Shows hi ((View.all corpus).dropped n) (corpus.drop n) :=
      (shows_all hle).dropped (by omega)
    have hlen := hshows.len
    rw [List.length_drop] at hlen
    refine ⟨C.decode ((corpus.drop n).take C.size), ?_, rfl⟩
    have hunfold :
      field I corpus C.size read n = (checked ((View.all corpus).suffix n) >>= fun left =>
        checked (read left 0) >>= fun x => checked (I.add n C.size) >>= fun next =>
        set next >>= fun _ =>
          pure x : Test α) n := rfl
    rw [hunfold, View.suffix_eq (by omega) (by simp only [View.all]; omega), checked_pure,
      pure_bind, hread.reads hshows.valid (by omega), checked_pure, pure_bind, hI.add (by omega)
      (by omega), checked_pure, pure_bind, hshows.bytes]
    push_cast
    rfl
  · obtain ⟨e, he⟩ :=
      hread.fails (v := (View.all corpus).dropped n) (by simp only [View.dropped, View.all]; omega)
    refine ⟨.fault e, ?_⟩
    have hunfold :
      field I corpus C.size read n = (checked ((View.all corpus).suffix n) >>= fun left =>
        checked (read left 0) >>= fun x => checked (I.add n C.size) >>= fun next =>
        set next >>= fun _ =>
          pure x : Test α) n := rfl
    rw [hunfold, View.suffix_eq (by omega) (by simp only [View.all]; omega), checked_pure,
      pure_bind, he]
    rfl

theorem fromSlice_follows {take : ℤ → Test View}
    (htake : Follows corpus (take C.size) (chunk C.size) (ShowsIn corpus hi)) :
    Follows corpus (fromSlice take C.size read) (coded C) Eq := by
  refine Follows.decode (Follows.map htake fun v bs hbs hv => ⟨C.decode bs, ?_, rfl⟩)
  have hlen : bs.length = C.size := hbs
  have hvlen := hv.len
  rw [hread.reads hv.valid (by omega), hv.bytes, ← hlen, List.take_length]
  rfl

end Numbers

/-! ### The two kinds of readers -/

/-- What a reader makes of the front. -/
def IsFront (isMagic : List Byte → Bool) : Prop := ∀ bs, isMagic bs = true ↔ bs = magic

/-- What a reader makes of a length: the number, or something negative for what is more than the
file has. -/
def IsIndex (corpus : List Byte) (index : BitVec 32 → ℤ) : Prop :=
  ∀ x : BitVec 32, index x = x.toNat ∨ (index x < 0 ∧ corpus.length < x.toNat)

theorem front_follows {H : Harness} (hmagic : IsFront H.isMagic)
    (htake : Follows corpus (H.requireRemaining 8 >>= fun _ => H.take 8) (chunk 8)
      (ShowsIn corpus hi)) :
    Follows corpus H.readMagic ((chunk 8).such (· = magic)) fun _ _ => True := by
  have hassoc : H.readMagic = ((H.requireRemaining 8 >>= fun _ => H.take 8) >>= fun front =>
      ensure (H.isMagic front.bytes) .magic) := by
    rw [bind_assoc]
    rfl
  rw [hassoc]
  refine htake.such (fun v bs _ hv hyes => ⟨(), ?_, trivial⟩) fun v bs _ hv hno => ⟨.magic, ?_⟩
  · rw [hv.bytes]
    exact ensure_pos ((hmagic bs).mpr hyes)
  · rw [hv.bytes]
    exact ensure_neg fun h => hno ((hmagic bs).mp h)

section Kinds
variable {isMagic : List Byte → Bool} {index : BitVec 32 → ℤ}
variable {compare : ℕ → View → Word → Word → Word → Test Unit} {take : ℤ → Test View}
variable (hmagic : IsFront isMagic) (hcompare : Compares corpus hi compare)
include hmagic hcompare

/-- **Readers that take slices.** -/
theorem reads_slices (htake : ∀ m : ℕ, Follows corpus (take m) (chunk m) (ShowsIn corpus hi))
    (hinput : ∀ x : BitVec 32, Follows corpus (take (index x)) (chunk x.toNat)
    (ShowsIn corpus hi)) : Reads ⟨fun _ =>
    pure (), fromSlice take 4 View.read32, fromSlice take 8 View.read64, take, isMagic, index,
      compare⟩ corpus hi where
  ahead _ _ _ := .inl rfl
  u32 := fromSlice_follows readsCode_read32 (htake 4)
  u64 := fromSlice_follows readsCode_read64 (htake 8)
  front := front_follows hmagic (htake 8)
  input := hinput
  compare := hcompare

/-- **Readers that look ahead.** -/
theorem reads_ahead (hindex : IsIndex corpus index) {I : Ints} (hI : I.Upto hi)
    (hle : corpus.length ≤ hi) (htake : ∀ {n k : ℕ}, n + k ≤ corpus.length → ∃ v, take k n =
      .ok (v, ((n + k : ℕ) : ℤ)) ∧
      ShowsIn corpus hi v ((corpus.drop n).take k)) :
    Reads ⟨requireRemaining I corpus, field I corpus 4 View.read32, field I corpus 8 View.read64,
    take, isMagic, index, compare⟩ corpus hi := by
  have hinput : ∀ (k : ℤ) (m : ℕ), k = m ∨ (k < 0 ∧ corpus.length < m) →
      Follows corpus (requireRemaining I corpus k >>= fun _ => take k) (chunk m)
        (ShowsIn corpus hi) := by
    intro k m hk
    refine Follows.chunk (fun n hn => ?_) fun n hn hlt => ⟨.truncated n, ?_⟩
    · obtain rfl : k = m := by omega
      obtain ⟨v, hv, hshows⟩ := htake hn
      refine ⟨v, ?_, hshows⟩
      show (requireRemaining I corpus m n >>= fun p => take m p.2) = _
      rw [requireRemaining_eq hI hle (by omega), if_pos (by omega)]
      exact hv
    · show (requireRemaining I corpus k n >>= fun p => take k p.2) = _
      rw [requireRemaining_eq hI hle hn, if_neg (by omega)]
      rfl
  exact {
    ahead := fun k n hn => by
      show requireRemaining I corpus k n = _ ∨ _ ∧ ∃ e, requireRemaining I corpus k n = _
      rw [requireRemaining_eq hI hle hn]
      split_ifs with h
      · exact .inl rfl
      · exact .inr ⟨by omega, _, rfl⟩
    u32 := field_follows readsCode_read32 hI hle
    u64 := field_follows readsCode_read64 hI hle
    front := front_follows hmagic (hinput _ _ (.inl rfl))
    input := fun length => hinput _ _ (hindex length)
    compare := hcompare }

end Kinds

/-! ### Slices -/

theorem inRange_exact {lo hi x y : ℤ} (h : inRange lo hi x = .ok y) : y = x := by
  unfold inRange at h
  split_ifs at h
  exact (Except.ok.inj h).symm

theorem goTake_follows (w : Index) (hle : corpus.length ≤ w.val.maxInt) (k : ℤ) (m : ℕ)
    (hk : k = m ∨ (k < 0 ∧ corpus.length < m)) :
    Follows corpus (goTake w corpus k) (chunk m) (ShowsIn corpus w.val.maxInt) := by
  have hunfold : ∀ n : ℕ, goTake w corpus k n = (ensure (0 ≤ k) (.truncated n) >>= fun _ =>
      checked (w.val.signed.sub corpus.length k) >>= fun room =>
      ensure ((n : ℤ) ≤ room) (.truncated n) >>=
        fun _ => slice w.val.signed corpus k : Test View) n := fun _ => rfl
  refine Follows.chunk (fun n hn => ?_) fun n hn hlt => ?_
  · obtain rfl : k = m := by omega
    obtain ⟨v, hv, hshows⟩ := slice_eq w.val.signed_upto hle hn
    refine ⟨v, ?_, hshows⟩
    rw [hunfold, ensure_pos (by omega), pure_bind, w.val.signed_upto.sub (by omega) (by omega),
      checked_pure, pure_bind, ensure_pos (by omega), pure_bind]
    exact hv
  · rw [hunfold]
    by_cases hneg : 0 ≤ k
    · rw [ensure_pos hneg, pure_bind]
      cases hsub : w.val.signed.sub corpus.length k with
      | error f => exact ⟨.fault f, rfl⟩
      | ok room =>
        have hroom : room = corpus.length - k := inRange_exact hsub
        refine ⟨.truncated n, ?_⟩
        show (checked (pure room) >>= fun room => _ : Test View) _ = _
        rw [checked_pure, pure_bind, ensure_neg (by omega)]
        rfl
    · rw [ensure_neg hneg]
      exact ⟨.truncated n, rfl⟩

theorem takeChecked_follows (w : Width) (hle : corpus.length ≤ 2 * w.maxInt + 1) (m : ℕ) :
    Follows corpus (takeChecked w.unsigned corpus m) (chunk m)
      (ShowsIn corpus (2 * w.maxInt + 1)) := by
  have hupto : w.unsigned.Upto ((2 * w.maxInt + 1 : ℕ) : ℤ) := by
    push_cast
    exact w.unsigned_upto
  refine Follows.chunk (fun n hn => ?_) fun n hn hlt => ⟨.truncated n, ?_⟩
  · obtain ⟨v, hv, hshows⟩ := slice_eq hupto hle hn
    refine ⟨v, ?_, hshows⟩
    rw [takeChecked_at, hupto.add (by omega) (by omega)]
    show (ensure _ _ >>= fun _ => slice w.unsigned corpus m : Test View) n = _
    rw [ensure_pos (by omega), pure_bind]
    exact hv
  · rw [takeChecked_at]
    cases hadd : w.unsigned.add n m with
    | error f => rfl
    | ok fin =>
      have hfin : fin = n + m := inRange_exact hadd
      show (ensure _ _ >>= fun _ => slice w.unsigned corpus m : Test View) n = _
      rw [ensure_neg (by omega)]
      rfl

/-! ### The readers -/

theorem isFront_decide : IsFront fun front => front = magic := fun _ => decide_eq_true_iff

/-- No character of the front is a `?`. -/
theorem isFront_ascii : IsFront fun front => front.map ascii = magic := by
  intro front
  rw [decide_eq_true_iff]
  have hplain : ∀ c ∈ magic, ascii c = c := by decide
  constructor
  · intro h
    have hsame : front.map ascii = front.map id := by
      refine List.map_congr_left fun c hc => ?_
      have hmem : ascii c ∈ magic := h ▸ List.mem_map_of_mem hc
      unfold ascii at hmem ⊢
      split_ifs at hmem ⊢ with hlt
      · rfl
      · exact absurd hmem (by decide)
    rw [← h, hsame, List.map_id]
  · rintro rfl
    exact (List.map_congr_left hplain).trans (List.map_id _)

/-- An index of 32 bits at least has room for any length. -/
theorem two_pow_le (w : Index) : 2 ^ 32 ≤ 2 ^ w.val.bits :=
  Nat.pow_le_pow_right (by decide) w.property

/-- A signed length that a file cannot have is negative. -/
theorem isIndex_toInt (hle : corpus.length ≤ 2 ^ 31 - 1) : IsIndex corpus BitVec.toInt := by
  intro x
  have hx := x.isLt
  rw [BitVec.toInt_eq_toNat_cond]
  split_ifs with h
  · exact .inl rfl
  · exact .inr ⟨by omega, by omega⟩

theorem range_of_showsIn {w : Width} {v : View} {bs : List Byte}
    (h : ShowsIn corpus w.maxInt v bs) :
    (⟨corpus, v.off, v.len⟩ : Range).IsInt w ∧ (⟨corpus, v.off, v.len⟩ : Range).bytes =
      some bs := by
  have hoff := h.valid.off
  have hlen := h.valid.len
  have hfin := h.valid.fin
  have hfits := h.fits
  have hbytes := h.bytes
  rw [h.data] at hfin hfits
  rw [View.bytes, h.data] at hbytes
  refine ⟨⟨hfits, ?_⟩, ?_⟩
  · dsimp only
    omega
  · rw [Range.bytes, if_pos ⟨hoff, hlen, hfin⟩]
    exact congrArg some hbytes

theorem go_reads (w : Index) (hle : corpus.length ≤ w.val.maxInt) :
    Reads (go w corpus) corpus w.val.maxInt := by
  refine reads_slices isFront_decide ?_ (fun m => goTake_follows w hle m m (.inl rfl)) fun x =>
    goTake_follows w hle _ _ ?_
  · exact compares_compareWith (fun seed hv => Go.hash128_eq w.val hv.toShows le_rfl seed)
      fun seed hv => Go.hash64_eq w.val hv.toShows le_rfl seed
  · have hx := x.isLt
    have hbits := two_pow_le w
    have hmax := w.val.two_pow_bits
    have hmod : ((x.toNat : ℤ)) % ((2 ^ w.val.bits : ℕ) : ℤ) = x.toNat :=
      Int.emod_eq_of_lt (by omega) (by omega)
    rw [Int.bmod_def, hmod]
    split_ifs with h
    · exact .inl rfl
    · exact .inr ⟨by omega, by omega⟩

theorem rust_reads (w : Index) (hle : corpus.length ≤ 2 * w.val.maxInt + 1) :
    Reads (rust w corpus) corpus (2 * w.val.maxInt + 1) := by
  refine reads_slices isFront_decide ?_ (takeChecked_follows w.val hle) fun x => ?_
  · exact compares_compareWith (fun seed hv => Rust.hayahash128_eq w.val hv.toShows le_rfl seed)
      fun seed hv => Rust.hayahash64_eq w.val hv.toShows le_rfl seed
  · have hx := x.isLt
    have hbits := two_pow_le w
    rw [Nat.mod_eq_of_lt (by omega)]
    exact takeChecked_follows w.val hle _

theorem zig_reads (w : Index) (hle : corpus.length ≤ 2 * w.val.maxInt + 1) :
    Reads (zig w corpus) corpus (2 * w.val.maxInt + 1) := by
  refine reads_slices isFront_decide ?_ (takeChecked_follows w.val hle) fun x =>
    takeChecked_follows w.val hle _
  exact compares_compareWith (fun seed hv => Zig.hayahash128_eq w.val hv.toShows le_rfl seed)
    fun seed hv => Zig.hayahash64_eq w.val hv.toShows le_rfl seed

theorem java_reads (hle : corpus.length ≤ Ports.Java.int.maxInt) :
    Reads (java corpus) corpus Ports.Java.int.maxInt := by
  refine reads_ahead isFront_decide ?_ (isIndex_toInt hle) Ports.Java.int.signed_upto hle
    (slice_eq Ports.Java.int.signed_upto hle)
  refine compares_compareWith (fun seed hv => ?_) fun seed hv => ?_
  · exact Java.hash128Range_eq (range_of_showsIn hv).1 (range_of_showsIn hv).2 seed
  · exact Java.hash64Range_eq (range_of_showsIn hv).1 (range_of_showsIn hv).2 seed

theorem csharp_reads (hle : corpus.length ≤ Ports.CSharp.int.maxInt) :
    Reads (csharp corpus) corpus Ports.CSharp.int.maxInt := by
  refine reads_ahead isFront_ascii ?_ (isIndex_toInt hle) Ports.CSharp.int.signed_upto hle
    (slice_eq Ports.CSharp.int.signed_upto hle)
  refine compares_compareWith (fun seed hv => ?_) fun seed hv => ?_
  · exact CSharp.hash128Range_eq (range_of_showsIn hv).1 (range_of_showsIn hv).2 seed
  · exact CSharp.hash64Range_eq (range_of_showsIn hv).1 (range_of_showsIn hv).2 seed

section Python
variable {t : Target} {v : View} {bs : List Byte}

theorem pythonSlice_eq (hle : corpus.length ≤ t.ptrdiffMax) {n k : ℕ} (h : n + k ≤ corpus.length) :
    ∃ v, pythonSlice corpus k n = .ok (v, ((n + k : ℕ) : ℤ)) ∧
      ShowsIn corpus t.ptrdiffMax v ((corpus.drop n).take k) := by
  have hmin : min (n : ℤ) corpus.length = n := by omega
  have hmin' : min ((n : ℤ) + k) corpus.length = n + k := by omega
  have hlen : (n : ℤ) + k - n = k := by omega
  refine ⟨⟨corpus, n, k⟩, ?_,
    ⟨⟨⟨by dsimp only; omega, by dsimp only; omega, by dsimp only; omega⟩, hle, rfl⟩, rfl⟩⟩
  have hunfold : pythonSlice corpus k n = .ok (⟨corpus, min (n : ℤ) corpus.length,
      min ((n : ℤ) + k) corpus.length - min (n : ℤ) corpus.length⟩, (n : ℤ) + k) := rfl
  rw [hunfold, hmin, hmin', hlen]
  push_cast
  rfl

theorem parseSeed_int (seed : Word) :
    (Ports.Python.parseSeed (some (pythonInt t seed)) : Ports.Python.Py Word) = pure seed := by
  have hrange : (0 : ℤ) ≤ seed.toNat ∧ (seed.toNat : ℤ) < 2 ^ 64 :=
    ⟨by omega, by exact_mod_cast seed.isLt⟩
  have hvalue : Ports.Python.asUnsignedLongLong (pythonInt t seed) = (seed, none) := by
    unfold Ports.Python.asUnsignedLongLong pythonInt
    dsimp only
    rw [if_pos hrange, BitVec.ofInt_natCast, BitVec.ofNat_toNat, BitVec.setWidth_eq]
  unfold Ports.Python.parseSeed
  dsimp only
  rw [hvalue]
  rfl

theorem getBuffer_input (hv : ShowsIn corpus t.ptrdiffMax v bs) (message : String) :
    (Ports.Python.getBuffer (inputData t v) message : Ports.Python.Py (List Byte)) = pure bs := by
  have hfits : v.bytes.length ≤ t.ptrdiffMax := by rw [hv.bytes]; exact hv.le
  unfold Ports.Python.getBuffer inputData
  dsimp only
  rw [dif_pos hfits]
  show (pure v.bytes : Ports.Python.Py (List Byte)) = _
  rw [hv.bytes]

/-- **The functions of the extension**, called with what is in view. -/
theorem called_eq (hv : ShowsIn corpus t.ptrdiffMax v bs) (seed : Word) :
    called (Ports.Python.hayahash128 true (arguments t v seed)) =
        pure (.tuple (compact128 (ofList bs) bs.length seed).lo.toNat
          (compact128 (ofList bs) bs.length seed).hi.toNat) ∧
      called (Ports.Python.hayahash64 true (arguments t v seed)) =
        pure (.int (compact64 (ofList bs) bs.length seed).toNat) := by
  have hparse : (Ports.Python.parseDataArgs (arguments t v seed) : Ports.Python.Py _) =
      pure (inputData t v, some (pythonInt t seed)) := rfl
  have hbind : ∀ {α β : Type} (a : α) (f : α → Ports.Python.Py β),
    (pure a >>= f : Ports.Python.Py β) = f a :=
    fun _ _ => rfl
  constructor
  · rw [Ports.Python.hayahash128, hparse, hbind]
    dsimp only
    rw [parseSeed_int, hbind, getBuffer_input hv, hbind,
      Python.defined_some (Oneshot.runs_hayahash128 t _ _ _).value_eq, hbind]
    rfl
  · rw [Ports.Python.hayahash64, hparse, hbind]
    dsimp only
    rw [parseSeed_int, hbind, getBuffer_input hv, hbind,
      Python.defined_some (Oneshot.runs_hayahash64 t _ _ _).value_eq, hbind]
    rfl

theorem python_compares : Compares corpus t.ptrdiffMax (pythonCompare t) where
  agree {i v bs seed lo hi'} hv h := by
    obtain ⟨hwide, hlow⟩ := called_eq hv seed
    have hlo : compact64 (ofList bs) bs.length seed = lo := by rw [← compact128_lo, h]
    rw [h] at hwide
    rw [hlo] at hlow
    rw [pythonCompare, hwide, hlow, pure_bind, ensure_pos rfl, pure_bind, pure_bind, ensure_pos rfl]
  differ {i v bs seed lo hi'} hv h := by
    refine ⟨.digest i, ?_⟩
    rw [pythonCompare, (called_eq hv seed).1, pure_bind, ensure_neg, throw_bind]
    intro heq
    injection heq with hlo hhi
    have hdigest : compact128 (ofList bs) bs.length seed = ⟨lo, hi'⟩ := by
      rw [← BitVec.eq_of_toNat_eq hlo, ← BitVec.eq_of_toNat_eq hhi]
    exact h hdigest

theorem python_reads (hle : corpus.length ≤ t.ptrdiffMax) :
    Reads (python t corpus) corpus t.ptrdiffMax :=
  reads_ahead isFront_decide python_compares (fun _ => .inl rfl) (Ints.exact_upto _) hle
    (pythonSlice_eq hle)

end Python

end Hayahash.Refine.Corpora
