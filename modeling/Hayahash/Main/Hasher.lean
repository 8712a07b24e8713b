import Hayahash.Ports.Hasher
import Hayahash.Refine.Rust

/-! # The buffering hasher hashes all that was written

**`haya_hasher`**: every run of writes, digests and builds on a `HayaHasher` returns what it should,
as long as a vector may hold what was written, and panics for that reason only. -/

namespace Hayahash.Main.Hasher

open Hayahash.Lib.ReadProg Hayahash.Lib.Bytes Hayahash.Lib.Checked Hayahash.Lib.Arrays
open Hayahash.C.Primitives Hayahash.Ports.Session Hayahash.Ports.Hasher Hayahash.Refine.PortStream
open Hayahash.Spec.Reference Hayahash.Refine.Oneshot
open Hayahash.Ports.Rust (copyFromSlice)

variable {w : Width} {h : HayaHasher} {log : Log} {c : List Byte}

/-! ### The invariant -/

/-- **The hasher holds what was written** since it was built: in the array as long as there is room,
and then in the vector. -/
structure Holds (w : Width) (log : Log) (h : HayaHasher) : Prop where
  seed : h.seed = log.seed
  length : h.inline.length = 64
  le : log.bytes.length ≤ w.maxInt
  phase : (log.bytes.length ≤ 64 ∧ h.heap = [] ∧ h.len = log.bytes.length ∧
      h.inline.take log.bytes.length = log.bytes) ∨
    (64 < log.bytes.length ∧ h.heap = log.bytes)

theorem new_holds (w : Width) (seed : Word) : Holds w ⟨seed, []⟩ (new seed) where
  seed := rfl
  length := List.length_replicate
  le := Nat.zero_le _
  phase := .inl ⟨Nat.zero_le _, rfl, rfl, rfl⟩

theorem Holds.heap_iff (hh : Holds w log h) : h.heap ≠ [] ↔ 64 < log.bytes.length := by
  rcases hh.phase with ⟨hle, hheap, -⟩ | ⟨hlt, hheap⟩
  · rw [hheap]
    exact ⟨fun hne => absurd rfl hne, fun hlt => by omega⟩
  · rw [hheap]
    exact ⟨fun _ => hlt, fun _ => List.ne_nil_of_length_pos (by omega)⟩

/-- **What is hashed** is what was written. -/
theorem Holds.buffer (hh : Holds w log h) :
    Yields (Ports.Hasher.buffer h) (Shows w.maxInt · log.bytes) := by
  rcases hh.phase with ⟨hle, hheap, hlen, hinline⟩ | ⟨hlt, hheap⟩
  · have hall : Shows w.maxInt (.all h.inline) h.inline := by
      have hge := w.maxInt_ge
      have hlength := hh.length
      exact shows_all (by omega)
    have hpart :=
      hall.part (a := 0) (b := log.bytes.length) (Nat.zero_le _) (by rw [hh.length]; exact hle)
    rw [List.drop_zero, Nat.sub_zero, hinline] at hpart
    rw [Ports.Hasher.buffer, hheap, hlen]
    exact hpart
  · have hne : h.heap.isEmpty = false := by
      rw [List.isEmpty_eq_false_iff]
      exact hh.heap_iff.mpr hlt
    rw [Ports.Hasher.buffer, hne]
    have hall := shows_all hh.le
    rw [← hheap] at hall ⊢
    exact .pure hall

/-! ### Writes -/

theorem bytes_take (log : Log) (c : List Byte) : (log.take c).bytes = log.bytes ++ c := by
  simp [Log.take, Log.bytes]

theorem extendFromSlice_eq (xs c : List Byte) : extendFromSlice w xs (.all c) =
    if xs.length + c.length ≤ w.maxInt then pure (xs ++ c) else throw .overflow := by
  have hlen : (View.all c).len = c.length := rfl
  rw [extendFromSlice, reserve, hlen, View.all_bytes]
  split_ifs with hfits hfits' hfits'
  · rfl
  · omega
  · omega
  · rfl

theorem write_heap (hheap : h.heap ≠ []) (hc : c ≠ []) : Ports.Hasher.write w h (.all c) =
    if h.heap.length + c.length ≤ w.maxInt then pure { h with heap := h.heap ++ c }
    else throw .overflow := by
  have hlen : ¬(View.all c).len = 0 := by
    have hpos := List.length_pos_of_ne_nil hc
    simp only [View.all]
    omega
  have hused : (!h.heap.isEmpty) = true := by
    rw [List.isEmpty_eq_false_iff.mpr hheap]
    rfl
  rw [Ports.Hasher.write, if_neg hlen, if_pos hused, extendFromSlice_eq]
  split_ifs <;> rfl

theorem write_inline {xs : List Byte} (hheap : h.heap = []) (hlength : h.inline.length = 64)
    (hlen : h.len = xs.length) (hxs : xs.length ≤ 64) (hinline : h.inline.take xs.length = xs)
    (hc : c ≠ []) (hcw : c.length ≤ w.maxInt) : Ports.Hasher.write w h (.all c) =
      if xs.length + c.length ≤ 64 then
        pure { h with inline := spliced h.inline xs.length c, len := (xs.length + c.length : ℕ) }
      else if xs.length + c.length ≤ w.maxInt then pure { h with heap := xs ++ c }
      else throw .overflow := by
  have hge := w.maxInt_ge
  have hne : ¬(View.all c).len = 0 := by
    have hpos := List.length_pos_of_ne_nil hc
    simp only [View.all]
    omega
  have hunused : ¬(!h.heap.isEmpty) = true := by
    rw [hheap]
    decide
  have hadd : w.unsigned.add h.len (View.all c).len = pure ((xs.length + c.length : ℕ) : ℤ) := by
    rw [hlen, w.unsigned_upto.add (by simp only [View.all]; omega) (by simp only [View.all]; omega)]
    rfl
  rw [Ports.Hasher.write, if_neg hne, if_neg hunused, hadd, pure_bind]
  by_cases hroom : xs.length + c.length ≤ 64
  · have hcopy : Ports.Rust.copyFromSlice h.inline xs.length (xs.length + c.length : ℕ)
      (.all c) = _ :=
      Refine.Rust.copyFromSlice_eq (shows_all hcw) (by rw [hlength]; exact hroom)
    rw [if_pos (show ((xs.length + c.length : ℕ) : ℤ) ≤ INLINE_CAP by unfold INLINE_CAP; omega),
      hlen, hcopy, if_pos hroom]
    rfl
  · have hshows : Shows w.maxInt (.all h.inline) h.inline := shows_all (by omega)
    obtain ⟨v, hpart, hv⟩ := hshows.part (a := 0) (b := xs.length) (Nat.zero_le _) (by omega)
    rw [List.drop_zero, Nat.sub_zero, hinline] at hv
    rw [if_neg (show ¬((xs.length + c.length : ℕ) : ℤ) ≤ INLINE_CAP by unfold INLINE_CAP; omega),
      if_neg hroom, hheap, hlen]
    by_cases hfits : xs.length + c.length ≤ w.maxInt
    · have hreserve : reserve w [] ((xs.length + c.length : ℕ) : ℤ) = pure () :=
        if_pos (by rw [List.length_nil]; omega)
      have hfront : extendFromSlice w [] v = pure xs := by
        rw [extendFromSlice, reserve, hv.len, if_pos (by rw [List.length_nil]; omega), hv.bytes]
        rfl
      rw [hreserve, pure_bind]
      change (do
        let heap ← extendFromSlice w [] (← (View.all h.inline).part 0 xs.length)
        return { h with len := xs.length, heap := ← extendFromSlice w heap (.all c) }) = _
      rw [show (View.all h.inline).part 0 xs.length = pure v from hpart, pure_bind, hfront,
        pure_bind, extendFromSlice_eq, if_pos hfits, if_pos hfits]
      rfl
    · have hreserve : reserve w [] ((xs.length + c.length : ℕ) : ℤ) = throw .overflow :=
        if_neg (by rw [List.length_nil]; omega)
      rw [hreserve, if_neg hfits]
      rfl

/-- **A write** takes all of the bytes, or there is no room for them. -/
theorem Holds.write (hh : Holds w log h) (hcw : c.length ≤ w.maxInt) :
    Yields (Ports.Hasher.write w h (.all c)) (Holds w (log.take c)) ∨
      Ports.Hasher.write w h (.all c) = throw .overflow ∧ w.maxInt < (log.take c).bytes.length := by
  have hlog : (log.take c).bytes = log.bytes ++ c := bytes_take log c
  have hsum : (log.take c).bytes.length = log.bytes.length + c.length := by
    rw [hlog, List.length_append]
  by_cases hc : c = []
  · subst hc
    have hsame : (log.take []).bytes = log.bytes := by rw [hlog, List.append_nil]
    refine .inl (.pure ⟨hh.seed, hh.length, ?_, ?_⟩)
    · rw [hsame]
      exact hh.le
    · rw [hsame]
      exact hh.phase
  rcases hh.phase with ⟨hle, hheap, hlen, hinline⟩ | ⟨hlt, hheap⟩
  · rw [write_inline hheap hh.length hlen hle hinline hc hcw]
    split_ifs with hroom hfits
    · refine .inl (.pure ⟨hh.seed, ?_, ?_, .inl ⟨?_, hheap, ?_, ?_⟩⟩)
      · exact (length_spliced (by rw [hh.length]; exact hroom)).trans hh.length
      · have hge := w.maxInt_ge
        omega
      · omega
      · rw [hsum]
      · rw [hsum, hlog, take_spliced (by rw [hh.length]; exact hle), hinline]
    · exact .inl (.pure ⟨hh.seed, hh.length, by omega, .inr ⟨by omega, hlog.symm⟩⟩)
    · exact .inr ⟨rfl, by omega⟩
  · rw [write_heap (hh.heap_iff.mpr hlt) hc, hheap]
    split_ifs with hfits
    · exact .inl (.pure ⟨hh.seed, hh.length, by omega, .inr ⟨by omega, hlog.symm⟩⟩)
    · exact .inr ⟨rfl, by omega⟩

/-! ### Runs -/

/-- Bytes as they are, and the same seed for what is built. -/
def meaning : Meaning (List Byte) Word Unit Answer := .plain fun _ seed => seed

/-- Some of the calls write more than a vector may hold, with no build in between. -/
def Exceeds (w : Width) (t : Target) (log : Log) (calls : List (Call (List Byte) Unit)) : Prop :=
  ∃ front behind log' as, calls = front ++ behind ∧ expectAll meaning t log front =
  some (log', as) ∧ w.maxInt < log'.bytes.length

theorem Exceeds.cons {t : Target} {log' : Log} {call : Call (List Byte) Unit}
    {calls : List (Call (List Byte) Unit)} {as : List Answer}
    (hcall : expect meaning t log call = some (log', as)) (h : Exceeds w t log' calls) :
    Exceeds w t log (call :: calls) := by
  obtain ⟨front, behind, log'', as', rfl, hfront, hlt⟩ := h
  refine ⟨call :: front, behind, log'', as ++ as', rfl, ?_, hlt⟩
  simp [expectAll, hcall, hfront]

/-- **One call**: it returns what it should, and the hasher holds what was written, or there is no
room. -/
theorem call_holds (t : Target) (hh : Holds w log h) (call : Call (List Byte) Unit)
    (hok : ∀ p, call = .update p → p.length ≤ w.maxInt) :
    ∃ log' as, expect meaning t log call = some (log', as) ∧ log'.seed = log.seed ∧
      ((∃ h', Ports.Session.call (hasher w) h call = pure (h', as) ∧ Holds w log' h') ∨
        (Ports.Session.call (hasher w) h call = throw .overflow ∧ w.maxInt <
          log'.bytes.length)) := by
  have hge : w.maxInt ≤ 2 * w.maxInt + 1 := by omega
  cases call with
  | update c =>
    refine ⟨log.take c, [], rfl, rfl, ?_⟩
    rcases hh.write (hok c rfl) with ⟨h', hrun, hh'⟩ | ⟨hrun, hlt⟩
    · exact .inl ⟨h', by simp [Ports.Session.call, Ports.Hasher.hasher, hrun], hh'⟩
    · refine .inr ⟨?_, hlt⟩
      simp only [Ports.Session.call, Ports.Hasher.hasher, hrun]
      rfl
  | digest64 =>
    obtain ⟨v, hbuffer, hv⟩ := hh.buffer
    refine ⟨log, [.word (compact64 (ofList log.bytes) log.bytes.length log.seed)], ?_, rfl,
      .inl ⟨h, ?_, hh⟩⟩
    · rw [expect, (runs_hayahash64 t (ofList log.bytes) log.bytes.length log.seed).value_eq]
      rfl
    · simp only [Ports.Session.call, Ports.Hasher.hasher, finish, hbuffer, pure_bind, hh.seed,
        Refine.Rust.hayahash64_eq w hv hge]
  | digest128 =>
    obtain ⟨v, hbuffer, hv⟩ := hh.buffer
    refine ⟨log, [.pair (compact128 (ofList log.bytes) log.bytes.length log.seed)], ?_, rfl,
      .inl ⟨h, ?_, hh⟩⟩
    · rw [expect, (runs_hayahash128 t (ofList log.bytes) log.bytes.length log.seed).value_eq]
      rfl
    · simp only [Ports.Session.call, Ports.Hasher.hasher, finish128, hbuffer, pure_bind, hh.seed,
        Refine.Rust.hayahash128_eq w hv hge]
  | reset r =>
    have hnew := new_holds w log.seed
    rw [← hh.seed] at hnew
    exact ⟨⟨log.seed, []⟩, [], rfl, rfl, .inl ⟨_, rfl, hh.seed ▸ hnew⟩⟩

/-- **Every run.** -/
theorem run_holds (t : Target) (calls : List (Call (List Byte) Unit)) :
    ∀ {h : HayaHasher} {log : Log},
    Holds w log h → (∀ p, .update p ∈ calls → p.length ≤ w.maxInt) →
      (∃ h' log' as, run (hasher w) h calls = pure (h', as) ∧
        expectAll meaning t log calls = some (log', as) ∧ log'.seed = log.seed ∧ Holds w log' h') ∨
      (run (hasher w) h calls = throw .overflow ∧ Exceeds w t log calls) := by
  induction calls with
  | nil => exact fun hh _ => .inl ⟨_, _, [], rfl, rfl, rfl, hh⟩
  | cons call calls ih =>
    intro h log hh hok
    obtain ⟨log₁, as₁, hexpect, hseed, hcall⟩ :=
      call_holds t hh call fun p hp => hok p (hp ▸ List.mem_cons_self)
    rcases hcall with ⟨h₁, hcall, hh₁⟩ | ⟨hcall, hlt⟩
    · rcases ih hh₁ fun p hp => hok p (List.mem_cons_of_mem call hp) with
        ⟨h₂, log₂, as₂, hrun, hall, hseed₂, hh₂⟩ | ⟨hrun, hexceeds⟩
      · refine .inl ⟨h₂, log₂, as₁ ++ as₂, ?_, by simp [expectAll, hexpect, hall],
          hseed₂.trans hseed, hh₂⟩
        rw [Ports.Session.run, hcall, pure_bind]
        dsimp only
        rw [hrun, pure_bind]
      · refine .inr ⟨?_, hexceeds.cons hexpect⟩
        rw [Ports.Session.run, hcall, pure_bind]
        dsimp only
        rw [hrun]
        rfl
    · refine .inr ⟨?_, [call], calls, log₁, as₁, rfl, by simp [expectAll, hexpect], hlt⟩
      rw [Ports.Session.run, hcall]
      rfl

/-! ### Main result -/

/-- **The buffering hasher**, after any run of writes, digests and builds: every digest was that of
the header on the bytes written since the last build, under the seed at first; the vector is in use
exactly if these are more than 64 bytes; and what is built next is a new hasher with that seed. The
run panics only if a vector cannot hold what was written, never for a range of a slice. -/
theorem haya_hasher (w : Width) (seed : Word) (calls : List (Call (List Byte) Unit))
    (hok : ∀ p, .update p ∈ calls → p.length ≤ w.maxInt) (t : Target) :
    (∃ h log as, run (Ports.Hasher.hasher w) (new seed) calls = pure (h, as) ∧
      expectAll meaning t ⟨seed, []⟩ calls = some (log, as) ∧
      (h.heap ≠ [] ↔ 64 < log.bytes.length) ∧
      buildHasher h = new seed) ∨
    (run (Ports.Hasher.hasher w) (new seed) calls = throw .overflow ∧
      Exceeds w t ⟨seed, []⟩ calls) := by
  rcases run_holds t calls (new_holds w seed) hok with ⟨h, log, as, hrun, hall, hseed, hh⟩ | hpanic
  · refine .inl ⟨h, log, as, hrun, hall, hh.heap_iff, ?_⟩
    rw [buildHasher, hh.seed, hseed]
  · exact .inr hpanic

/-- Writes up to 64 bytes, across them, and of more; and a new hasher. -/
def writes : List (Call (List Byte) Unit) :=
  [.update (ramp 60), .update (ramp 4), .digest64, .update (ramp 300), .digest128, .reset (),
    .update (ramp 65), .digest64]

/-- What they return. -/
def written : List Answer :=
  [.word 0xd0328d30bfb81042, .pair ⟨0x3d4d84eebc1a32b3, 0x5a53c06a0a64d18e⟩,
  .word 0xc297f4d62095f512]

theorem length_writes {p : List Byte} (h : .update p ∈ writes) : p.length ≤ 300 := by
  have hcases : p = ramp 60 ∨ p = ramp 4 ∨ p = ramp 300 ∨ p = ramp 65 := by simpa [writes] using h
  rcases hcases with rfl | rfl | rfl | rfl
  · exact (length_ramp 60).le.trans (by omega)
  · exact (length_ramp 4).le.trans (by omega)
  · exact (length_ramp 300).le
  · exact (length_ramp 65).le.trans (by omega)

/-- The vector is in use behind 64 bytes, with a `usize` of 64 bits. -/
theorem haya_hasher_long : ∃ h log,
    run (Ports.Hasher.hasher ⟨64, by decide⟩) (new 7) writes = pure (h, written) ∧
    expectAll meaning ⟨.x86_64, .gcc, true, .little, .w64⟩ ⟨7, []⟩ writes = some (log, written) ∧
    h.heap ≠ [] ∧ 64 < log.bytes.length ∧ buildHasher h = new 7 := by
  have hanswers : (run (Ports.Hasher.hasher ⟨64, by decide⟩) (new 7) writes).map (fun r =>
    (r.2, decide (r.1.heap ≠ []))) = pure (written, true) := by decide +kernel
  rcases haya_hasher ⟨64, by decide⟩ 7 writes (fun p hp => (length_writes hp).trans (by decide))
    ⟨.x86_64, .gcc, true, .little, .w64⟩ with ⟨h, log, as, hrun, hall, hheap, hbuild⟩ | ⟨hrun, -⟩
  · rw [hrun] at hanswers
    obtain ⟨rfl, hused⟩ := Prod.mk.inj (Except.ok.inj hanswers)
    have hne := of_decide_eq_true hused
    exact ⟨h, log, hrun, hall, hne, hheap.mp hne, hbuild⟩
  · rw [hrun] at hanswers
    cases hanswers

end Hayahash.Main.Hasher
