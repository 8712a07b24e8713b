import Hayahash.Lib.Libc
import Hayahash.Refine.Reader

/-! # The reader publishes whole streams only

**`reader`**: `hayasum_hash_stream` returns 1 exactly on a stream that is read to its end of file
without an error, and then gives the digest of all that was delivered; otherwise it returns 0 and
gives none. -/

namespace Hayahash.Main.Reader

open Hayahash.Lib.ReadProg Hayahash.Lib.Bytes Hayahash.Lib.Libc Hayahash.C.Primitives
open Hayahash.C.Walk Hayahash.C.Oneshot Hayahash.C.Stream Hayahash.Cli.Stream
open Hayahash.Spec.Reader Hayahash.Spec.Reference
open Hayahash.Refine.Oneshot Hayahash.Refine.Reader

/-- The words of the digest of `data`: for 128 bits those of `hayahash128`, else `hayahash64` and
zero. -/
def Digests (t : Target) (seed : Word) (bits : ℤ) (data : List Byte) (lo hi : Word) : Prop :=
  if bits = 128 then value (ofList data) (hayahash128 t data.length seed) = some ⟨lo, hi⟩
  else value (ofList data) (hayahash64 t data.length seed) = some lo ∧ hi = 0

theorem digests_published (t : Target) {seed : Word} {bits : ℤ} {data : List Byte} {lo hi : Word}
    (h : ⟨lo, hi⟩ = published seed bits data) : Digests t seed bits data lo hi := by
  by_cases hbits : bits = 128
  · rw [published, if_pos hbits] at h
    rw [Digests, if_pos hbits, (runs_hayahash128 t _ _ _).value_eq, h]
  · rw [published, if_neg hbits] at h
    obtain ⟨rfl, rfl⟩ := Hash128.mk.inj h
    rw [Digests, if_neg hbits, (runs_hayahash64 t _ _ _).value_eq]
    exact ⟨rfl, rfl⟩

/-- **The reader**, on every stream and with every buffer, returns. It returns 1 exactly if the
stream is read to its end of file without an error, and then gives the digest of what was delivered;
otherwise it returns 0 and leaves `*lo` and `*hi` as they were. -/
theorem reader (t : Target) (B : Buffer t) (rs : List (Read B.size)) (st : State)
    (iobuf : List Byte) (errno : ℤ) (seed : Word) (bits : ℤ) (lo hi : Word) :
    ∃ o w, hashStream t st ⟨iobuf, .opened rs, errno⟩ seed bits lo hi = some (o, w) ∧
      (o.ret = 1 ↔ ∃ data, Reaches rs data) ∧
      (∀ data, Reaches rs data → Digests t seed bits data o.lo o.hi) ∧
      (o.ret ≠ 1 → o.ret = 0 ∧ o.lo = lo ∧ o.hi = hi) := by
  obtain ⟨seen, w, hrun, -, hsees⟩ := hashStream_content B rs st iobuf errno seed bits lo hi
  refine ⟨seen, w, hrun, ?_⟩
  have hreaches : ∀ data, Reaches rs data ↔ content errno rs = .ok data :=
    fun _ => reaches_iff errno
  simp only [hreaches]
  cases hc : content errno rs with
  | error e =>
    rw [hc] at hsees
    obtain rfl : seen = ⟨0, lo, hi, e⟩ := hsees
    refine ⟨⟨fun h => absurd h zero_ne_one, ?_⟩, ?_, fun _ => ⟨rfl, rfl, rfl⟩⟩
    · rintro ⟨data, h⟩
      cases h
    · intro data h
      cases h
  | ok data =>
    rw [hc] at hsees
    obtain ⟨hret, hwords⟩ : seen.ret = 1 ∧ ⟨seen.lo, seen.hi⟩ = published seed bits data := hsees
    refine ⟨⟨fun _ => ⟨data, rfl⟩, fun _ => hret⟩, fun data' h => ?_, fun h => absurd hret h⟩
    obtain rfl := Except.ok.inj h
    exact digests_published t hwords

/-! ### A small buffer -/

/-- A platform. -/
abbrev host : Target := ⟨.x86_64, .gcc, true, .little, .w64⟩

/-- A read that delivers `s`, and sets a flag or none. -/
def short (s : List Byte) (h : s.length < 4) (eof error : Bool) (errno : Option ℤ) : Read 4 :=
  ⟨s, eof, error, errno, h.le, fun _ => h⟩

/-- A read that fills the buffer. -/
def full (s : List Byte) (h : s.length = 4) : Read 4 :=
  ⟨s, false, false, none, h.le, fun hflag => absurd hflag (by simp)⟩

theorem four_le : 4 ≤ host.ptrdiffMax := by decide

/-- A buffer of four bytes. -/
def small : Buffer host := ⟨4, Nat.zero_lt_succ 3, four_le⟩

/-- A stream of 9 bytes: a full read, two short ones, and the end. -/
def pieces : List (Read small.size) :=
  [full (text "haya") rfl, short (text "sum") (Nat.lt_succ_self 3) false false none,
    short (text "of") (Nat.lt_add_of_pos_right Nat.two_pos) true false none]

/-- A stream that breaks behind 5 bytes. -/
def torn : List (Read small.size) :=
  [full (text "haya") rfl,
    short (text "s") (Nat.lt_add_of_pos_right (Nat.zero_lt_succ 2)) false true (some EIO)]

/-- The stream that is read to its end has a digest, the torn one has none. -/
theorem reader_pieces :
    (∃ o w, hashStream host .zeroed ⟨[1, 2, 3, 4], .opened pieces, 0⟩ 7 128 1 2 = some (o, w) ∧
    o.ret = 1 ∧ value (ofList (text "hayasumof")) (hayahash128 host 9 7) = some ⟨o.lo, o.hi⟩) ∧
    (∃ o w, hashStream host .zeroed ⟨[1, 2, 3, 4], .opened torn, 0⟩ 7 128 1 2 = some (o, w) ∧
    o.ret = 0 ∧ o.lo = 1 ∧ o.hi = 2) := by
  constructor
  · obtain ⟨o, w, hrun, hret, hdigest, -⟩ :=
      reader host small pieces .zeroed [1, 2, 3, 4] 0 7 128 1 2
    have hreach : Reaches pieces (text "hayasumof") :=
      .more ⟨rfl, rfl, List.cons_ne_nil _ _⟩
        (.more ⟨rfl, rfl, List.cons_ne_nil _ _⟩ (.last rfl rfl))
    have h := hdigest _ hreach
    rw [Digests, if_pos rfl] at h
    exact ⟨o, w, hrun, hret.mpr ⟨_, hreach⟩, h⟩
  · obtain ⟨o, w, hrun, hret, -, hfail⟩ := reader host small torn .zeroed [1, 2, 3, 4] 0 7 128 1 2
    have hnot : ¬∃ data, Reaches torn data := by
      rintro ⟨data, h⟩
      cases (reaches_iff 0).mp h
    exact ⟨o, w, hrun, hfail fun h => hnot (hret.mp h)⟩

end Hayahash.Main.Reader
