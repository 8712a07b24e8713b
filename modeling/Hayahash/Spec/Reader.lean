import Hayahash.Cli.Stream

/-! # What is in a stream

A stream has a content, or there is an error (`content`); what is behind its end, or the error, is
left to read (`unread`). A stream has a content exactly if it is read to its end of file, with no
error reported on the way (`reaches_iff`). -/

namespace Hayahash.Spec.Reader

open Hayahash.Lib.Bytes Hayahash.C.Primitives Hayahash.Cli.Stream

/-- A read buffer: an object of the platform, not empty. -/
structure Buffer (t : Target) where
  size : ℕ
  pos : 0 < size
  le : size ≤ t.ptrdiffMax

variable {size : ℕ}

/-- **What a stream has in it**, up to its end, or the error; `e` is what `errno` is before. -/
def content (e : ℤ) : List (Read size) → Except ℤ (List Byte)
  | [] => .error EIO
  | r :: rs =>
    if r.error then .error (r.errno.getD e)
    else if r.eof then .ok r.bytes
    else if r.bytes = [] then .error EIO
    else (content (r.errno.getD e) rs).map (r.bytes ++ ·)

/-- **What is left to read** behind that. -/
def unread : List (Read size) → List (Read size)
  | [] => []
  | r :: rs => if r.error ∨ r.eof ∨ r.bytes = [] then rs else unread rs

/-- The read delivers something, and no flag is set. -/
def Plain (r : Read size) : Prop := r.eof = false ∧ r.error = false ∧ r.bytes ≠ []

/-- **The stream is read to its end of file**, with no error reported on the way, and `data` is what
was delivered. -/
inductive Reaches : List (Read size) → List Byte → Prop
  | last {r : Read size} {rs : List (Read size)} (heof : r.eof = true) (herror : r.error = false) :
    Reaches (r :: rs) r.bytes
  | more {r : Read size} {rs : List (Read size)} {data : List Byte} (hr : Plain r)
    (h : Reaches rs data) : Reaches (r :: rs) (r.bytes ++ data)

variable {rs : List (Read size)} {data : List Byte}

theorem content_plain {r : Read size} (h : Plain r) (e : ℤ) (rs : List (Read size)) :
    content e (r :: rs) = (content (r.errno.getD e) rs).map (r.bytes ++ ·) := by
  simp [content, h.1, h.2.1, h.2.2]

theorem unread_plain {r : Read size} (h : Plain r) (rs : List (Read size)) :
    unread (r :: rs) = unread rs := by
  simp [unread, h.1, h.2.1, h.2.2]

theorem Reaches.content_eq (h : Reaches rs data) : ∀ e : ℤ, content e rs = .ok data := by
  induction h with
  | last heof herror =>
    intro e
    simp [content, heof, herror]
  | more hr _ ih =>
    intro e
    rw [content_plain hr, ih]
    rfl

/-- **A stream has a content exactly if it is read to its end.** -/
theorem reaches_iff (e : ℤ) : Reaches rs data ↔ content e rs = .ok data := by
  refine ⟨fun h => h.content_eq e, fun h => ?_⟩
  induction rs generalizing e data with
  | nil => cases h
  | cons r rs ih =>
    by_cases herror : r.error = true
    · rw [content, if_pos herror] at h
      cases h
    by_cases heof : r.eof = true
    · rw [content, if_neg herror, if_pos heof] at h
      obtain rfl := Except.ok.inj h
      exact .last heof (Bool.eq_false_iff.mpr herror)
    by_cases hempty : r.bytes = []
    · rw [content, if_neg herror, if_neg heof, if_pos hempty] at h
      cases h
    have hr : Plain r := ⟨Bool.eq_false_iff.mpr heof, Bool.eq_false_iff.mpr herror, hempty⟩
    rw [content_plain hr] at h
    cases hrest : content (r.errno.getD e) rs with
    | error e' =>
      rw [hrest] at h
      cases h
    | ok data' =>
      rw [hrest] at h
      obtain rfl := Except.ok.inj h
      exact .more hr (ih _ hrest)

end Hayahash.Spec.Reader
