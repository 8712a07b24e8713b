import Hayahash.Refine.CSharp
import Hayahash.Refine.Go
import Hayahash.Refine.Haskell
import Hayahash.Refine.Java

/-! # When an update stays in the buffer

A chunk stays in the buffer of an undecided state if and only if the buffer and the chunk are
shorter than 448 bytes together. The Go, Java and C# ports decide so in every reachable state
(`BuffersExactly`), however long the chunk. The Haskell port adds the lengths and compares the sum,
which wraps where it leaves `Int`, and so decides so if and only if it does not (`buffering`). Where
it wraps, the update is an error, as the buffer and the chunk are more than a string holds. -/

namespace Hayahash.Main.Buffering

open Hayahash.Lib.ReadProg Hayahash.Lib.Bytes Hayahash.Lib.Checked Hayahash.Lib.Arrays
open Hayahash.C.Primitives Hayahash.Ports.Session Hayahash.Ports.Stream Hayahash.Spec.Machine
open Hayahash.Refine.PortStream Hayahash.Refine.Session
open Hayahash.Ports.Haskell (Hasher append buffersOnly copyAppend newHasher Reachable)

variable {κ ς ρ σ : Type} {O : Object κ ς ρ Answer (State σ Word)} {M : Meaning κ ς ρ Answer}
  {ok : κ → Prop} {lanesOf : Lanes8 × Word → σ}

/-- **A port buffers exactly the chunks that leave less than 448 bytes**, in every state that calls
reach and that is not on the bulk path. An update that does not stay in the buffer goes on the bulk
path. -/
def BuffersExactly (O : Object κ ς ρ Answer (State σ Word)) (M : Meaning κ ς ρ Answer)
    (ok : κ → Prop) : Prop :=
  ∀ (s : ς) (calls : List (Call κ ρ)) (st : State σ Word) (as : List Answer),
    (∀ k, .update k ∈ calls → ok k) → run O (O.new s) calls = pure (st, as) → st.bulk = false →
    ∀ (c : κ) (bs : List Byte), ok c → M.bytes c = some bs → 1 ≤ bs.length →
      ∃ st', O.update st c = pure (st', []) ∧ (st'.bulk = false ↔ st.nbuf + bs.length < 448)

/-- A machine decides by the length of what it was fed. -/
theorem update_bulk_iff {seed : Word} {xs bs : List Byte} {a : Absorber}
    (h : Absorber.Holds seed xs a) (hb : a.bulk = false) :
    (a.update bs).bulk = false ↔ a.held.length + bs.length < 448 := by
  have hnext := (Absorber.update_holds h bs).bulk_iff
  have hheld := h.undecided hb
  rw [List.length_append, ← hheld] at hnext
  rw [← Bool.not_eq_true, hnext, not_le]
  rfl

theorem buffersExactly_of_faithful (h : Faithful O M ok (Stands lanesOf id)) :
    BuffersExactly O M ok := by
  intro s calls st as hok hrun hb c bs hc hbs _
  obtain ⟨st₁, log, as₁, hrun₁, -, hst⟩ := h.run ⟨.x86_64, .gcc, true, .little, .w64⟩ s calls hok
  obtain ⟨rfl, -⟩ : st = st₁ ∧ as = as₁ := by
    rw [hrun] at hrun₁
    exact Prod.mk.inj (Except.ok.inj hrun₁)
  have hold := machine_holds log
  have hbulk : (machine log).bulk = false := hst.bulk.symm.trans hb
  obtain ⟨⟨st', as'⟩, hup, hst', rfl⟩ := h.update hst hold.lt hc hbs
  refine ⟨st', hup, ?_⟩
  rw [hst'.bulk, update_bulk_iff hold hbulk, hst.nbuf]
  omega

/-! ### The Haskell port -/

/-- The decision of the Haskell port on one chunk, with an `Int` of `w.bits` bits: the guard is as
it should be, and the hasher that comes of it is on the bulk path or not. -/
def Decides (w : Width) (h : Hasher) (c : List Byte) : Prop :=
  buffersOnly (.wrap w.bits) h c = pure (decide (h.buffer.length + c.length < 448)) ∧
    ∃ h', Ports.Haskell.update (.wrap w.bits) h c = pure h' ∧
      (h'.bulk = false ↔ h.buffer.length + c.length < 448)

section Haskell
variable (w : Width) {h : Hasher} {c : List Byte} (hb : h.bulk = false)
  (hlt : h.buffer.length ≤ 447) (h1 : 1 ≤ c.length) (hc : c.length ≤ w.maxInt)
include hb hlt h1 hc

/-- Where the sum does not overflow. -/
theorem decides_of_le (hsum : h.buffer.length + c.length ≤ w.maxInt) : Decides w h c := by
  have hmin := w.maxInt_ge
  obtain ⟨h', hu, hup⟩ := Refine.Haskell.update_updated w.wrap_upto (h := h) (c := c) (by omega)
    (fun _ => by omega) (fun hb' => by rw [hb] at hb'; cases hb') (by omega) (fun _ => hsum) hc
  refine ⟨Refine.Haskell.buffersOnly_eq w.wrap_upto hb hsum, h', hu,
    fun hb' => (hup.undecided hb').2.1, fun hfit => ?_⟩
  cases hb' : h'.bulk with
  | false => rfl
  | true =>
    rcases (hup.bulk hb').1 with hbad | hlong
    · rw [hb] at hbad
      cases hbad
    · omega

omit h1 in
/-- Where it does, the sum is negative, and the chunk is to stay in the buffer. -/
theorem buffersOnly_of_lt (hsum : w.maxInt < h.buffer.length + c.length) :
    buffersOnly (.wrap w.bits) h c = pure true := by
  have hmin := w.maxInt_ge
  have hcap : bufCap = 448 := rfl
  rw [buffersOnly, if_pos hb, w.wrap_add_over (by omega) (by omega), pure_bind, hcap]
  exact congrArg pure (decide_eq_true (by omega))

/-- The buffer cannot take it: `copyAppend` has the same negative length. -/
theorem update_of_lt (hsum : w.maxInt < h.buffer.length + c.length) :
    Ports.Haskell.update (.wrap w.bits) h c = throw .overflow := by
  have hmin := w.maxInt_ge
  have happend : copyAppend (.wrap w.bits) h.buffer c = throw .overflow := by
    rw [copyAppend, append, if_neg (by omega), if_neg (by omega),
      w.wrap_add_over (by omega) (by omega), pure_bind, if_pos (by omega)]
  rw [Ports.Haskell.update, if_neg (by omega), buffersOnly_of_lt w hb hlt hc hsum, pure_bind,
    if_pos rfl, happend]
  rfl

/-- A decision that is as it should be has a sum that does not overflow. -/
theorem decides_iff : Decides w h c ↔ h.buffer.length + c.length ≤ w.maxInt := by
  refine ⟨fun ⟨_, h', hu, _⟩ => ?_, fun hsum => decides_of_le w hb hlt h1 hc hsum⟩
  by_contra hsum
  rw [update_of_lt w hb hlt h1 hc (by omega)] at hu
  cases hu

end Haskell

/-- A byte, and a chunk as long as a 32-bit `Int` can say: the sum is `2 ^ 31`, which wraps. The
chunk is to stay in the buffer, which cannot take it, and the hasher does not get on the bulk
path. -/
theorem haskell_buffers_all : ∃ h, Reachable (.wrap 32) 0 ([] ++ [0]) h ∧ h.bulk = false ∧
    h.buffer.length = 1 ∧
    buffersOnly (.wrap 32) h (List.replicate (2 ^ 31 - 1) 0) = pure true ∧
    Ports.Haskell.update (.wrap 32) h (List.replicate (2 ^ 31 - 1) 0) = throw .overflow ∧
    ¬ Decides ⟨32, by decide⟩ h (List.replicate (2 ^ 31 - 1) 0) := by
  have hone : Ports.Haskell.update (.wrap 32) (newHasher 0) [0] =
      pure ⟨(newHasher 0).lanes, [0], 0, 1, false⟩ := by decide
  have hlen : (List.replicate (2 ^ 31 - 1) (0 : Byte)).length = 2 ^ 31 - 1 := List.length_replicate
  have hmax : (⟨32, by decide⟩ : Width).maxInt = 2 ^ 31 - 1 := rfl
  refine ⟨_, .update .new hone, rfl, rfl,
    buffersOnly_of_lt ⟨32, by decide⟩ rfl (by decide) (by omega) ?_,
    update_of_lt ⟨32, by decide⟩ rfl (by decide) (by omega) (by omega) ?_, ?_⟩
  · rw [hlen, hmax]
    decide
  · rw [hlen, hmax]
    decide
  · rw [decides_iff ⟨32, by decide⟩ rfl (by decide) (by omega) (by omega), hlen, hmax]
    decide

/-- **When a chunk stays in the buffer**: the Go, Java and C# ports decide as they should, the
Haskell port if and only if the sum of the lengths does not leave `Int`. -/
theorem buffering (w : Width) :
    (∀ (h : Hasher) (c : List Byte), h.bulk = false → h.buffer.length ≤ 447 → 1 ≤ c.length →
      c.length ≤ w.maxInt → (Decides w h c ↔ h.buffer.length + c.length ≤ w.maxInt)) ∧
    BuffersExactly (Ports.Go.digest w) (.plain fun r s => r.getD s) (fun p => p.length ≤ w.maxInt) ∧
    BuffersExactly Ports.Java.hasher Ports.Java.meaning (Range.IsInt Ports.Java.int) ∧
    BuffersExactly Ports.CSharp.hasher Ports.CSharp.meaning Ports.CSharp.Input.IsInt := by
  exact ⟨fun h c hb hlt h1 hc => decides_iff w hb hlt h1 hc,
    buffersExactly_of_faithful (Refine.Go.faithful w),
    buffersExactly_of_faithful Refine.Java.faithful,
    buffersExactly_of_faithful Refine.CSharp.faithful⟩

end Hayahash.Main.Buffering
