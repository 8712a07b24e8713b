import Hayahash.Spec.Reader
import Hayahash.Refine.Digest

/-! # The reader of `hayasum`

* `update_read`: what a read delivered is taken up, whatever is in the buffer behind it.
* `readLoop_content`: the loop reads the content of a stream, and leaves what is behind it.
* `hashStream_content`: what the caller sees is the digest of the content, or the error. -/

namespace Hayahash.Refine.Reader

open Hayahash.Lib.ReadProg Hayahash.Lib.Bytes Hayahash.Lib.Triple Hayahash.C.Primitives
open Hayahash.C.Walk Hayahash.C.Stream Hayahash.Cli.Stream
open Hayahash.Spec.Stream Hayahash.Spec.Reader Hayahash.Spec.Reference
open Hayahash.Refine.Update Hayahash.Refine.Digest

variable {t : Target} {size : ℕ} {seed : Word} {xs : List Byte} {st : State}

/-! ### One read -/

/-- An update reads the bytes delivered, whatever is in the buffer behind them. -/
theorem update_iobuf (h : Represents seed xs st) {c : List Byte} (hc : c.length ≤ t.ptrdiffMax)
    (behind : List Byte) : ∃ st',
      value (ofList (c ++ behind)) (hayahash64Update t st c.length) = some st' ∧
      Represents seed (xs ++ c) st' := by
  obtain ⟨o, ho, hloads, -, hrep⟩ := update_safe t h hc
  have hbuf : exec (ofList (c ++ behind)) (hayahash64Update t st c.length) = some o := by
    refine exec_congr ho fun r hr i hi => ofList_append_left ?_
    have hwithin := (hloads r hr).2
    have hlt := hi.2
    omega
  exact ⟨o.val, by rw [value, hbuf, Option.map_some], hrep⟩

/-- **The update after a read.** -/
theorem update_read (h : Represents seed xs st) (hsize : size ≤ t.ptrdiffMax) (r : Read size)
    (iobuf : List Byte) : ∃ st',
      (if r.bytes.length > 0 then value (ofList (r.bytes ++ iobuf.drop r.bytes.length))
        (hayahash64Update t st r.bytes.length) else some st) = some st' ∧
      Represents seed (xs ++ r.bytes) st' := by
  by_cases hpos : r.bytes.length > 0
  · rw [if_pos hpos]
    exact update_iobuf h (r.le.trans hsize) _
  · have hempty : r.bytes = [] := List.eq_nil_of_length_eq_zero (by omega)
    rw [if_neg hpos, hempty, List.append_nil]
    exact ⟨st, rfl, h⟩

/-! ### The loop -/

/-- How the loop is left, by what is in the stream. -/
def LeftBy (seed : Word) (xs : List Byte) : Except ℤ (List Byte) → Left → Prop
  | .error e, .failed e' => e' = e
  | .ok data, .ended st _ => Represents seed (xs ++ data) st
  | _, _ => False

theorem LeftBy.map {bytes : List Byte} {c : Except ℤ (List Byte)} {l : Left}
    (h : LeftBy seed (xs ++ bytes) c l) : LeftBy seed xs (c.map (bytes ++ ·)) l := by
  cases c with
  | error e =>
    cases l with
    | failed e' => exact h
    | ended st e' => exact h
  | ok data =>
    cases l with
    | failed e => exact h
    | ended st e =>
      have hrep : Represents seed (xs ++ bytes ++ data) st := h
      rw [List.append_assoc] at hrep
      exact hrep

/-- **The loop reads the content of a stream**, and leaves what is behind it. -/
theorem readLoop_content (hpos : 0 < size) (hsize : size ≤ t.ptrdiffMax) (rs : List (Read size)) :
    ∀ {xs : List Byte} {st : State} (iobuf : List Byte) (errno : ℤ), Represents seed xs st →
      ∃ l w, readLoop t (rs.length + 1) st ⟨iobuf, .opened rs, errno⟩ = some (l, w) ∧
        w.file.reads = unread rs ∧ LeftBy seed xs (content errno rs) l := by
  induction rs with
  | nil =>
    intro xs st iobuf errno _
    have hne : ¬0 = size := by omega
    refine ⟨.failed EIO, ⟨iobuf, .opened [], errno⟩, ?_, rfl, rfl⟩
    simp [readLoop, fread, File.opened, hne]
  | cons r rs ih =>
    intro xs st iobuf errno h
    obtain ⟨st', hupdate, hrep⟩ := update_read h hsize r iobuf
    let w : World size :=
      ⟨r.bytes ++ iobuf.drop r.bytes.length, ⟨rs, r.eof, r.error⟩, r.errno.getD errno⟩
    have hstep : ∀ l, (if r.bytes.length = size then readLoop t (rs.length + 1) st' w
        else if r.error then some (.failed (r.errno.getD errno), w)
        else if r.eof then some (.ended st' (r.errno.getD errno), w)
        else if r.bytes.length = 0 then some (.failed EIO, w)
        else readLoop t (rs.length + 1) st' w) = some l →
        readLoop t ((r :: rs).length + 1) st ⟨iobuf, .opened (r :: rs), errno⟩ = some l := by
      intro l hl
      rw [List.length_cons, readLoop]
      by_cases hpos : r.bytes.length > 0
      · rw [if_pos hpos] at hupdate
        simp only [fread, File.opened, Bool.false_or, if_pos hpos, hupdate, Option.bind_eq_bind,
          Option.bind_some]
        exact hl
      · rw [if_neg hpos] at hupdate
        obtain rfl := Option.some.inj hupdate
        simp only [fread, File.opened, Bool.false_or, if_neg hpos]
        exact hl
    -- after a plain read the loop goes on
    have hnext : Plain r → ∃ l w', readLoop t (rs.length + 1) st' w = some (l, w') ∧
        w'.file.reads = unread (r :: rs) ∧ LeftBy seed xs (content errno (r :: rs)) l := by
      intro hr
      obtain ⟨l, w', hrun, hleft, hl⟩ :=
        ih (r.bytes ++ iobuf.drop r.bytes.length) (r.errno.getD errno) hrep
      have hw : w =
          ⟨r.bytes ++ iobuf.drop r.bytes.length, .opened rs, r.errno.getD errno⟩ := by
        simp only [w, File.opened, hr.1, hr.2.1]
      refine ⟨l, w', by rw [hw, hrun], ?_, ?_⟩
      · rw [hleft, unread_plain hr]
      · rw [content_plain hr]
        exact hl.map
    by_cases hfull : r.bytes.length = size
    · have hflags : ¬(r.eof = true ∨ r.error = true) := fun hflag => by
        have hlt := r.short hflag
        omega
      obtain ⟨heof, herror⟩ := not_or.mp hflags
      obtain ⟨l, w', hrun, hrest⟩ :=
        hnext ⟨Bool.eq_false_iff.mpr heof, Bool.eq_false_iff.mpr herror,
        List.ne_nil_of_length_pos (by omega)⟩
      exact ⟨l, w', hstep _ (by rw [if_pos hfull, hrun]), hrest⟩
    by_cases herror : r.error = true
    · refine ⟨_, w, hstep _ (by rw [if_neg hfull, if_pos herror]), ?_, ?_⟩
      · rw [unread, if_pos (.inl herror)]
      · rw [content, if_pos herror]
        rfl
    by_cases heof : r.eof = true
    · refine ⟨_, w, hstep _ (by rw [if_neg hfull, if_neg herror, if_pos heof]), ?_, ?_⟩
      · rw [unread, if_pos (.inr (.inl heof))]
      · rw [content, if_neg herror, if_pos heof]
        exact hrep
    by_cases hempty : r.bytes = []
    · have hzero : r.bytes.length = 0 := by rw [hempty, List.length_nil]
      refine ⟨_, w, hstep _ (by rw [if_neg hfull, if_neg herror, if_neg heof, if_pos hzero]), ?_,
        ?_⟩
      · rw [unread, if_pos (.inr (.inr hempty))]
      · rw [content, if_neg herror, if_neg heof, if_pos hempty]
        rfl
    · obtain ⟨l, w', hrun, hrest⟩ :=
        hnext ⟨Bool.eq_false_iff.mpr heof, Bool.eq_false_iff.mpr herror, hempty⟩
      have hlen : ¬r.bytes.length = 0 := fun hlen => hempty (List.eq_nil_of_length_eq_zero hlen)
      refine ⟨l, w', hstep _ ?_, hrest⟩
      rw [if_neg hfull, if_neg herror, if_neg heof, if_neg hlen, hrun]

/-! ### The caller -/

/-- The words that are published of some data: for 128 bits those of the wide digest, else the
narrow one and zero. -/
def published (seed : Word) (bits : ℤ) (data : List Byte) : Hash128 :=
  if bits = 128 then compact128 (ofList data) data.length seed
  else ⟨compact64 (ofList data) data.length seed, 0⟩

/-- **What the caller sees of a stream**, with what is in `*lo` and `*hi` before. -/
def Sees (seed : Word) (bits : ℤ) (lo hi : Word) : Except ℤ (List Byte) → Seen → Prop
  | .error e, seen => seen = ⟨0, lo, hi, e⟩
  | .ok data, seen => seen.ret = 1 ∧ ⟨seen.lo, seen.hi⟩ = published seed bits data

/-- **The reader gives the digest of the content**, or the error, and leaves what is behind. -/
theorem hashStream_content (B : Buffer t) (rs : List (Read B.size)) (st : State) (iobuf : List Byte)
    (errno : ℤ) (seed : Word) (bits : ℤ) (lo hi : Word) : ∃ seen w,
      hashStream t st ⟨iobuf, .opened rs, errno⟩ seed bits lo hi = some (seen, w) ∧
      w.file.reads = unread rs ∧ Sees seed bits lo hi (content errno rs) seen := by
  obtain ⟨l, w, hrun, hleft, hl⟩ :=
    readLoop_content B.pos B.le rs iobuf errno (represents_init st seed)
  have hreads : (File.opened rs).reads.length = rs.length := rfl
  cases hc : content errno rs with
  | error e =>
    rw [hc] at hl
    cases l with
    | failed e' =>
      obtain rfl : e' = e := hl
      refine ⟨⟨0, lo, hi, e'⟩, w, ?_, hleft, rfl⟩
      simp [hashStream, hreads, hrun]
    | ended st' e' => exact hl.elim
  | ok data =>
    rw [hc] at hl
    cases l with
    | failed e' => exact hl.elim
    | ended st' e =>
      have hrep : Represents seed data st' := hl
      refine ⟨⟨1, (published seed bits data).lo, (published seed bits data).hi, e⟩, w, ?_,
        hleft, rfl, rfl⟩
      by_cases hbits : bits = 128
      · simp [hashStream, hreads, hrun, hbits, published, value_digest128 t hrep]
      · simp [hashStream, hreads, hrun, hbits, published, value_digest64 t hrep]

end Hayahash.Refine.Reader
