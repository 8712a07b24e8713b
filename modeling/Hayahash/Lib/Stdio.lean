import Mathlib.Data.List.Basic
import Mathlib.Data.List.Infix

/-! # Streams that are written

A stream holds back some of what it is given, and any call that writes may fail. What becomes of
each call is up to the environment (`Fate`), and is read off the stream call by call; when none is
left, everything passes and is held back.

* The error indicator is sticky (`error_put`).
* As long as it is not set, what went out and what is held are what was given (`Out.whole`); a
  `flush` that succeeds then leaves everything out (`sent_flush`).
* Nothing goes out that was not given, and nothing out of turn (`Out.sublist`). -/

namespace Hayahash.Lib.Stdio

variable {α : Type*}

/-! ### Streams -/

/-- What becomes of a call that writes. -/
structure Fate where
  /-- How many of the symbols at hand go out. -/
  out : ℕ
  fails : Bool
  /-- A call that fails may hold what did not go out, or drop it. -/
  holds : Bool
  /-- What the call sets `errno` to, if it does. -/
  errno : Option ℤ
deriving DecidableEq

/-- The call succeeds, and holds everything back. -/
def Fate.pass : Fate := ⟨0, false, true, none⟩

/-- **A stream that is written**: what it was given, what went out, what it holds, and its error
indicator. -/
structure Out (α : Type*) where
  given : List α
  sent : List α
  held : List α
  error : Bool
  /-- What becomes of the calls to come. -/
  fates : List Fate
  whole : error = false → sent ++ held = given
  sublist : (sent ++ held).Sublist given

/-- A stream that was not written yet. -/
def Out.opened (fates : List Fate) : Out α := ⟨[], [], [], false, fates, fun _ => rfl, .refl []⟩

/-- What becomes of the next call. -/
def Out.next (o : Out α) : Fate := o.fates.headD .pass

/-! ### Calls -/

/-- What is held after a call with `xs` at hand. -/
def Fate.rest (f : Fate) (xs : List α) : List α := if f.fails && !f.holds then [] else xs.drop f.out

theorem Fate.rest_of_pass {f : Fate} (h : f.fails = false) (xs : List α) :
    f.rest xs = xs.drop f.out := by
  simp [rest, h]

theorem Fate.rest_sublist (f : Fate) (xs : List α) : (xs.take f.out ++ f.rest xs).Sublist xs := by
  unfold rest
  split_ifs
  · rw [List.append_nil]
    exact List.take_sublist _ _
  · rw [List.take_append_drop]

/-- **A call that writes `s`.** -/
def Out.put (s : List α) (o : Out α) : Out α where
  given := o.given ++ s
  sent := o.sent ++ (o.held ++ s).take o.next.out
  held := o.next.rest (o.held ++ s)
  error := o.error || o.next.fails
  fates := o.fates.tail
  whole h := by
    obtain ⟨herror, hpass⟩ := Bool.or_eq_false_iff.mp h
    rw [Fate.rest_of_pass hpass, List.append_assoc, List.take_append_drop, ← List.append_assoc,
      o.whole herror]
  sublist := by
    rw [List.append_assoc]
    have hrest := (o.next.rest_sublist (o.held ++ s)).append_left o.sent
    refine hrest.trans ?_
    rw [← List.append_assoc]
    exact o.sublist.append_right s

/-- **`fflush`**: whether it fails, and the stream then. -/
def Out.flush (o : Out α) : Bool × Out α :=
  if o.next.fails then (true, o.put [])
  else (false,
    { given := o.given
      sent := o.sent ++ o.held
      held := []
      error := o.error
      fates := o.fates.tail
      whole := fun h => by rw [List.append_nil, o.whole h]
      sublist := by
        rw [List.append_nil]
        exact o.sublist })

/-- Some calls, one behind the other. -/
def calls {O : Type*} (put : List α → O → O) (ss : List (List α)) (o : O) : O :=
  ss.foldl (fun o s => put s o) o

theorem calls_append {O : Type*} (put : List α → O → O) (ss ss' : List (List α)) (o : O) :
    calls put (ss ++ ss') o = calls put ss' (calls put ss o) := List.foldl_append

/-- Some calls that write to a stream. -/
def Out.puts (ss : List (List α)) (o : Out α) : Out α := calls Out.put ss o

/-! ### What is written -/

section Written
variable (s : List α) (ss : List (List α)) (o : Out α)

@[simp] theorem given_put : (o.put s).given = o.given ++ s := rfl

@[simp] theorem error_put : (o.put s).error = (o.error || o.next.fails) := rfl

@[simp] theorem given_puts : (o.puts ss).given = o.given ++ ss.flatten := by
  induction ss generalizing o with
  | nil => simp [Out.puts, calls]
  | cons s ss ih =>
    have hstep : o.puts (s :: ss) = (o.put s).puts ss := rfl
    rw [hstep, ih, given_put, List.flatten_cons, List.append_assoc]

theorem puts_append (ss ss' : List (List α)) : o.puts (ss ++ ss') = (o.puts ss).puts ss' :=
  calls_append Out.put ss ss' o

variable {o}

@[simp] theorem given_flush : o.flush.2.given = o.given := by
  unfold Out.flush
  split_ifs
  · exact List.append_nil _
  · rfl

theorem error_flush (h : o.error = true) : o.flush.2.error = true := by
  unfold Out.flush
  split_ifs
  · rw [error_put, h, Bool.true_or]
  · exact h

theorem error_of_flush_fails (h : o.flush.1 = true) : o.flush.2.error = true := by
  unfold Out.flush at h ⊢
  split_ifs at h ⊢ with hfails
  rw [error_put, hfails, Bool.or_true]

theorem flush_of_clean (h : o.flush.2.error = false) : o.flush.1 = false := by
  by_contra hfails
  rw [error_of_flush_fails (Bool.not_eq_false _ ▸ hfails)] at h
  cases h

theorem error_of_flush (h : o.flush.1 = false) : o.flush.2.error = o.error := by
  unfold Out.flush at h ⊢
  split_ifs at h ⊢
  rfl

/-- **What is flushed is out**: all that was given, if no call failed. -/
theorem sent_flush (hflush : o.flush.1 = false) (herror : o.flush.2.error = false) :
    o.flush.2.sent = o.given := by
  have hwhole := o.whole ((error_of_flush hflush).symm.trans herror)
  unfold Out.flush at hflush ⊢
  split_ifs at hflush ⊢
  exact hwhole

/-- Nothing goes out that was not given. -/
theorem sent_sublist (o : Out α) : o.sent.Sublist o.given :=
  (List.sublist_append_left _ _).trans o.sublist

end Written

end Hayahash.Lib.Stdio
