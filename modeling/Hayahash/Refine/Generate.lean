import Hayahash.Refine.Oneshot
import Hayahash.Spec.Draws
import Hayahash.Spec.Spans
import Mathlib.Tactic.IntervalCases

/-! # The generator writes the corpus that is drawn

The state of the generator is a position in the stream of words. `caseLength_eq`, `fillRandom_eq`
and `writeAll_file` say what the parts of a turn do, **`turn_case`** what a turn does, and
`loop_cases` what the loop does: it writes the cases that are drawn, up to where something fails. -/

namespace Hayahash.Refine.Generate

open Hayahash.Lib.ReadProg Hayahash.Lib.Bytes Hayahash.Lib.Libc Hayahash.Lib.Stdio Hayahash.Lib.Weyl
open Hayahash.Lib.Wire (bytes32 length_bytes32)
open Hayahash.C.Primitives Hayahash.Cli.Output Hayahash.Cli.Generate
open Hayahash.Spec.Reference Hayahash.Spec.Spans Hayahash.Spec.Corpora Hayahash.Spec.Draws

/-! ### Words -/

/-- **The state is a position in the stream.** -/
theorem prngNext_eq (s : Word) (k : ℕ) :
    prngNext (splitMix.state s k) = (splitMix.word s k, splitMix.state s (k + 1)) := by
  show (scramble (splitMix.state s k + splitMix.step), splitMix.state s k + splitMix.step) = _
  rw [← Counter.state_succ]
  rfl

/-! ### Lengths -/

theorem setWidth_umod (x c : Word) :
    (x % c).setWidth 32 = .ofNat 32 (x.toNat % c.toNat) := by
  refine BitVec.eq_of_toNat_eq ?_
  rw [BitVec.toNat_setWidth, BitVec.toNat_umod, BitVec.toNat_ofNat]

theorem toNat_ofNat_of_lt {n : ℕ} (h : n < 2 ^ 32) : (BitVec.ofNat 32 n).toNat = n := by
  rw [BitVec.toNat_ofNat, Nat.mod_eq_of_lt h]

theorem delta_eq : ∀ m : Fin 15, ((BitVec.ofNat 32 m - 7).slt 0 = true ↔ (m : ℕ) < 7) ∧
    (BitVec.ofNat 32 m - 7).toInt = (m : ℤ) - 7 ∧
    ((m : ℕ) < 7 → (-(BitVec.ofNat 32 m - 7)).toNat = 7 - m) := by decide

/-- **Around a boundary**: nothing wraps. -/
theorem nearBoundary_eq {b : ℕ} (hb : b ≤ 131072) {m : ℕ} (hm : m < 15) :
    nearBoundary (.ofNat 32 b) (.ofNat 32 m - 7) = .ofNat 32 (min 131073 (b + m - 7)) := by
  obtain ⟨hslt, hint, hneg⟩ := delta_eq ⟨m, hm⟩
  dsimp only at hslt hint hneg
  have hbnat : (BitVec.ofNat 32 b).toNat = b := toNat_ofNat_of_lt (by omega)
  have hlow :
    ((BitVec.ofNat 32 m - 7).slt 0 = true ∧ BitVec.ofNat 32 b < -(BitVec.ofNat 32 m - 7)) ↔
      b + m < 7 := by
    rw [hslt, BitVec.lt_def, hbnat]
    constructor
    · rintro ⟨hlt, hbelow⟩
      rw [hneg hlt] at hbelow
      omega
    · intro h
      rw [hneg (by omega)]
      omega
  rw [nearBoundary, hint, hbnat]
  by_cases h : b + m < 7
  · have hzero : min 131073 (b + m - 7) = 0 := by omega
    rw [if_pos (hlow.mpr h), hzero]
    rfl
  · have hcast : (b : ℤ) + ((m : ℤ) - 7) = ((b + m - 7 : ℕ) : ℤ) := by omega
    have hcand : (BitVec.ofNat 32 (b + m - 7)).toNat = b + m - 7 := toNat_ofNat_of_lt (by omega)
    have hmax : (BitVec.ofNat 32 maxRandomLength).toNat = 131073 := toNat_ofNat_of_lt (by decide)
    rw [if_neg (fun h' => h (hlow.mp h')), hcast, BitVec.ofInt_natCast]
    by_cases hover : 131073 < b + m - 7
    · rw [if_pos (by rw [gt_iff_lt, BitVec.lt_def, hcand, hmax]; exact hover),
        Nat.min_eq_left hover.le, maxRandomLength]
    · rw [if_neg (by rw [gt_iff_lt, BitVec.lt_def, hcand, hmax]; exact hover),
        Nat.min_eq_right (Nat.not_lt.mp hover)]

theorem nearBoundary_drawn (x y : Word) :
    nearBoundary
        (.ofNat 32 (dispatchBoundaries.getD (x % .ofNat 64 dispatchBoundaries.length).toNat 0))
        ((y % 15).setWidth 32 - 7) =
      .ofNat 32 (min 131073 (dispatchBoundaries.getD (x.toNat % 28) 0 + y.toNat % 15 - 7)) := by
  have hle : ∀ b ∈ dispatchBoundaries, b ≤ 131072 := by decide
  have hx : x.toNat % 28 < dispatchBoundaries.length := Nat.mod_lt _ (by decide)
  have hindex : (x % .ofNat 64 dispatchBoundaries.length).toNat = x.toNat % 28 := BitVec.toNat_umod
  have hdelta : (y % 15).setWidth 32 = .ofNat 32 (y.toNat % 15) := setWidth_umod y 15
  rw [hindex, hdelta]
  refine nearBoundary_eq ?_ (Nat.mod_lt _ (by decide))
  rw [List.getD_eq_getElem _ _ hx]
  exact hle _ (List.getElem_mem hx)

/-- **`case_length`** is the length of the case, and moves on as far as that takes. -/
theorem caseLength_eq (s : Word) {i : ℕ} (hi : i < 2 ^ 32) (k : ℕ) :
    caseLength (.ofNat 32 i) (splitMix.state s k) = (.ofNat 32 (lengthAt (splitMix.word s) i k).1,
      splitMix.state s (k + (lengthAt (splitMix.word s) i k).2)) := by
  have hinat := toNat_ofNat_of_lt hi
  have hlast : (BitVec.ofNat 32 exhaustiveLastLength).toNat = 384 := toNat_ofNat_of_lt (by decide)
  have hnext : (BitVec.ofNat 32 (exhaustiveLastLength + 1)).toNat = 385 :=
    toNat_ofNat_of_lt (by decide)
  rw [caseLength, lengthAt]
  by_cases h384 : i ≤ 384
  · rw [if_pos (by rw [BitVec.le_def, hinat, hlast]; exact h384), if_pos h384, Nat.add_zero]
  · have hedge : (BitVec.ofNat 32 i - .ofNat 32 (exhaustiveLastLength + 1)).toNat = i - 385 := by
      rw [BitVec.toNat_sub_of_le (by rw [BitVec.le_def, hinat, hnext]; omega), hinat, hnext]
    rw [if_neg (by rw [BitVec.le_def, hinat, hlast]; exact h384), if_neg h384, hedge]
    cases largeEdges[i - 385]? with
    | some edge => simp only [Nat.add_zero]
    | none =>
      have hand : (splitMix.word s k &&& 15).toNat = (splitMix.word s k).toNat % 16 := by
        rw [BitVec.toNat_and]
        exact Nat.and_two_pow_sub_one_eq_mod (splitMix.word s k).toNat 4
      have hr : (splitMix.word s k).toNat % 16 < 16 := Nat.mod_lt _ (by decide)
      simp only [prngNext_eq, hand, drawnLength, nearBoundary_drawn]
      simp only [setWidth_umod]
      generalize splitMix.word s (k + 1) = x
      generalize (splitMix.word s k).toNat % 16 = r at hr ⊢
      -- the sixteen cases of the switch
      interval_cases r <;> rfl

/-! ### Bytes -/

theorem bytesAt_step (w : ℕ → Word) (k : ℕ) {len : ℕ} (h : 0 < len) :
    bytesAt w k len = (bytes64 (w k)).take len ++ bytesAt w (k + 1) (len - 8) := by
  have hwords : (len + 7) / 8 = (len - 8 + 7) / 8 + 1 := by omega
  have hshift : (fun j => bytes64 (w (k + (j + 1)))) = fun j => bytes64 (w (k + 1 + j)) := by
    funext j
    rw [Nat.add_right_comm, Nat.add_assoc]
  rw [bytesAt, bytesAt, hwords, List.range_succ_eq_map, List.flatMap_cons, List.flatMap_map,
    Nat.add_zero, hshift, List.take_append, bytes64, length_bytes]

theorem byte_shift (word : Word) (i : ℕ) : (word >>> (i * 8)).setWidth 8 = byteOf word i := by
  refine BitVec.eq_of_toNat_eq ?_
  rw [byteOf, BitVec.toNat_setWidth, BitVec.toNat_ushiftRight, BitVec.extractLsb'_toNat,
    Nat.mul_comm]

theorem store_append (pre : List Byte) (b : Byte) (post : List Byte) (c : Byte) :
    store (pre ++ b :: post) pre.length c = some ((pre ++ [c]) ++ post) := by
  have h := memcpy_append (p := pre) (q := b :: post) [c] (by simp)
  rw [store, h]
  rfl

/-- **The inner loop** stores the bytes of the word, as far as there is room for them. -/
theorem fillWord_eq (word : Word) {len : ℕ} : ∀ (k i : ℕ) (pre post : List Byte),
    len ≤ (pre ++ post).length → fillWord len word k i pre.length (pre ++ post) =
      some (pre.length + min k (len - pre.length),
        pre ++ ((List.range k).map fun j => byteOf word (i + j)).take (len - pre.length) ++
          post.drop (min k (len - pre.length))) := by
  intro k
  induction k with
  | zero =>
    intro i pre post _
    simp [fillWord]
  | succ k ih =>
    intro i pre post hlen
    rw [List.length_append] at hlen
    rw [fillWord]
    by_cases hlt : pre.length < len
    · obtain ⟨b, post, rfl⟩ : ∃ b post', post = b :: post' := by
        cases post with
        | nil => exact absurd hlen (by rw [List.length_nil]; omega)
        | cons b post => exact ⟨b, post, rfl⟩
      rw [List.length_cons] at hlen
      have hroom : len - pre.length = len - (pre ++ [byteOf word i]).length + 1 := by
        rw [List.length_append, List.length_singleton]
        omega
      have hfits : len ≤ (pre ++ [byteOf word i] ++ post).length := by
        simp only [List.length_append, List.length_singleton]
        omega
      have hnext := ih (i + 1) (pre ++ [byteOf word i]) post hfits
      have hbytes : ((List.range (k + 1)).map fun j => byteOf word (i + j)) =
          byteOf word i :: (List.range k).map fun j => byteOf word (i + 1 + j) := by
        rw [List.range_succ_eq_map, List.map_cons, List.map_map]
        refine congrArg₂ _ rfl (List.map_congr_left fun j _ => ?_)
        show byteOf word (i + (j + 1)) = _
        rw [Nat.add_right_comm, Nat.add_assoc]
      rw [List.length_append, List.length_singleton] at hnext
      rw [if_pos hlt, byte_shift, store_append, Option.bind_eq_bind, Option.bind_some, hnext,
        hbytes, hroom, List.length_append, List.length_singleton, List.take_succ_cons,
        Nat.add_min_add_right, List.drop_succ_cons]
      simp only [List.append_assoc, List.singleton_append, Option.some.injEq,
        Prod.mk.injEq, and_true]
      omega
    · have hzero : len - pre.length = 0 := by omega
      rw [if_neg hlt, hzero, Nat.min_zero, Nat.add_zero, List.take_zero, List.append_nil,
        List.drop_zero]

theorem fillLoop_eq (s : Word) {len : ℕ} : ∀ (fuel k : ℕ) (pre post : List Byte),
    len ≤ (pre ++ post).length → len < pre.length + fuel → pre.length ≤ len →
    fillLoop len fuel pre.length (pre ++ post) (splitMix.state s k) =
      some (pre ++ bytesAt (splitMix.word s) k (len - pre.length) ++ post.drop (len - pre.length),
        splitMix.state s (k + (len - pre.length + 7) / 8)) := by
  intro fuel
  induction fuel with
  | zero =>
    intro k pre post _ hfuel hle
    omega
  | succ fuel ih =>
    intro k pre post hlen hfuel hle
    rw [fillLoop]
    by_cases hlt : pre.length < len
    · have hword := fillWord_eq (splitMix.word s k) 8 0 pre post hlen
      have hbytes : (List.range 8).map (fun j => byteOf (splitMix.word s k) (0 + j)) =
          bytes64 (splitMix.word s k) := by simp only [Nat.zero_add, bytes64]
      rw [hbytes] at hword
      have htake : ((bytes64 (splitMix.word s k)).take (len - pre.length)).length =
        min 8 (len - pre.length) := by
        rw [List.length_take, bytes64, length_bytes, Nat.min_comm]
      have hlen' := List.length_append ▸ hlen
      have hnext := ih (k + 1) (pre ++ (bytes64 (splitMix.word s k)).take (len - pre.length))
        (post.drop (min 8 (len - pre.length)))
      rw [List.length_append, List.length_append, htake, List.length_drop] at hnext
      have hrest : len - (pre.length + min 8 (len - pre.length)) = len - pre.length - 8 := by omega
      have hdrop : min 8 (len - pre.length) + (len - pre.length - 8) = len - pre.length := by omega
      have hcount : k + 1 + (len - pre.length - 8 + 7) / 8 =
        k + (len - pre.length + 7) / 8 := by omega
      rw [hrest, hcount, List.drop_drop, hdrop] at hnext
      rw [if_pos hlt, prngNext_eq]
      simp only [hword, Option.bind_eq_bind, Option.bind_some]
      rw [hnext (by omega) (by omega) (by omega),
        bytesAt_step _ _ (Nat.sub_pos_of_lt hlt), ← List.append_assoc]
    · have hzero : len - pre.length = 0 := by omega
      have hnone : bytesAt (splitMix.word s) k 0 = [] := List.take_zero
      rw [if_neg hlt, hzero, hnone, List.append_nil, List.drop_zero]
      rfl

/-- **`fill_random`** stores the bytes that are drawn, and leaves what is behind them. -/
theorem fillRandom_eq (s : Word) (k : ℕ) {buf : List Byte} {len : ℕ} (h : len ≤ buf.length) :
    fillRandom buf len (splitMix.state s k) =
      some (bytesAt (splitMix.word s) k len ++ buf.drop len,
        splitMix.state s (k + (len + 7) / 8)) := by
  have hloop := fillLoop_eq s (len + 1) k [] buf h (by rw [List.length_nil]; omega) (Nat.zero_le _)
  rwa [List.length_nil, Nat.sub_zero, List.nil_append, List.nil_append] at hloop

/-- **The digest** is that of the bytes at the front of the buffer, whatever is behind them. -/
theorem digest_eq (t : Target) (data behind : List Byte) (seed : Word) :
    value (ofList (data ++ behind)) (C.Oneshot.hayahash128 t data.length seed) =
      some (compact128 (ofList data) data.length seed) := by
  refine ((Refine.Oneshot.runs_hayahash128 t (ofList data) data.length seed).congr fun r hr i hi =>
    ?_).value_eq
  have hwithin := spans_within hr
  have hrange := hi.2.trans_le hwithin.2
  exact ofList_append_left (by omega)

/-! ### Files -/

theorem u32le_eq (x : BitVec 32) : u32le x = bytes32 x := by
  have hbyte : ∀ k, (x >>> k).setWidth 8 = x.extractLsb' k 8 := fun k => by
    refine BitVec.eq_of_toNat_eq ?_
    rw [BitVec.toNat_setWidth, BitVec.toNat_ushiftRight, BitVec.extractLsb'_toNat]
  have hzero : x.setWidth 8 = x.extractLsb' 0 8 := by rw [← hbyte, BitVec.ushiftRight_zero]
  rw [u32le, hzero, hbyte, hbyte, hbyte]
  rfl

theorem u64le_eq (x : Word) : u64le x = bytes64 x := List.map_congr_left fun i _ => byte_shift x i

/-- What becomes of the file: all of it is written and nothing went wrong, or a beginning of it is
and something did. -/
inductive Wrote (o : Out Byte) (s : List Byte) : Bool → Out Byte → Prop
  | all {o' : Out Byte} (given : o'.given = o.given ++ s) (error : o'.error = false) :
      Wrote o s true o'
  | some {o' : Out Byte} (given : o'.given <+: o.given ++ s) (error : o'.error = true) :
      Wrote o s false o'

variable {o o' : Out Byte} {s s' : List Byte} {ok : Bool}

theorem writeBytes_file (h : o.error = false) (s : List Byte) :
    Wrote o s (writeBytes s o).1 (writeBytes s o).2 := by
  unfold writeBytes
  split_ifs with hs
  · exact .all (by rw [hs, List.append_nil]) h
  · cases hfails : o.next.fails with
    | false => exact .all (given_put s o) (by rw [error_put, h, hfails]; rfl)
    | true =>
        exact .some (given_put s o ▸ List.prefix_rfl) (by rw [error_put, hfails, Bool.or_true])

/-- **Writes that are joined** write what they are joined of. -/
theorem writeAll_file (h : o.error = false) (ss : List (List Byte)) :
    Wrote o ss.flatten (writeAll ss o).1 (writeAll ss o).2 := by
  induction ss generalizing o with
  | nil => exact .all (by rw [List.flatten_nil, List.append_nil]; rfl) h
  | cons s ss ih =>
    have hfirst := writeBytes_file h s
    rw [writeAll]
    generalize writeBytes s o = x at hfirst
    obtain ⟨ok, o₁⟩ := x
    rw [List.flatten_cons]
    cases hfirst with
    | all given error =>
      have hrest := ih error
      dsimp only
      generalize writeAll ss o₁ = y at hrest
      obtain ⟨ok, o₂⟩ := y
      cases hrest with
      | all given' error' => exact .all (by rw [given', given, List.append_assoc]) error'
      | some given' error' => exact .some (by rwa [given, List.append_assoc] at given') error'
    | some given error =>
      exact .some (given.trans (by rw [← List.append_assoc]; exact List.prefix_append _ _)) error

/-! ### Turns -/

variable {t : Target} {env : Env}

/-- **How far something got** that should write `s`: it went well, and wrote it; or it did not, and
wrote a beginning of it, because the file had an error or there was no memory (`null`). -/
structure Got (null : Prop) (o : Out Byte) (s : List Byte) (ok : Bool) (o' : Out Byte) : Prop where
  all : ok = true → o'.given = o.given ++ s ∧ o'.error = false
  part : ok = false → o'.given <+: o.given ++ s ∧ (o'.error = true ∨ null)

variable {null null' : Prop}

theorem Wrote.got (h : Wrote o s ok o') : Got null o s ok o' := by
  cases h with
  | all given error => exact ⟨fun _ => ⟨given, error⟩, nofun⟩
  | some given error => exact ⟨nofun, fun _ => ⟨given, .inl error⟩⟩

/-- Nothing more is written behind what went wrong. -/
theorem Got.stop (h : Got null o s false o') : Got null o (s ++ s') false o' where
  all := nofun
  part _ := by
    obtain ⟨hbegin, hwhy⟩ := h.part rfl
    exact ⟨hbegin.trans (by rw [← List.append_assoc]; exact List.prefix_append _ _), hwhy⟩

theorem Got.trans {o₁ : Out Byte} (h : Got null' o s true o₁) (h' : Got null o₁ s' ok o') :
    Got null o (s ++ s') ok o' := by
  obtain ⟨hgiven, -⟩ := h.all rfl
  refine ⟨fun hok => ?_, fun hok => ?_⟩
  · obtain ⟨hgiven', herror⟩ := h'.all hok
    exact ⟨by rw [hgiven', hgiven, List.append_assoc], herror⟩
  · obtain ⟨hbegin, hwhy⟩ := h'.part hok
    exact ⟨by rwa [hgiven, List.append_assoc] at hbegin, hwhy⟩

/-- **The last call that asked for memory** got none, and that is what was printed. -/
def Refused (env : Env) (grown : ℕ) (stderr : List Byte) : Prop :=
  ∃ n len, grown = n + 1 ∧ env.realloc n = none ∧ cannotAllocate len <:+: stderr

theorem grow_eq (env : Env) (len : ℕ) (g : Gen) : ∃ ok g', grow env len g = (ok, g') ∧ g'.output =
    g.output ∧ g'.random = g.random ∧ (ok = true → len ≤ g'.input.length) ∧
    (ok = false → Refused env g'.grown g'.stderr) := by
  unfold grow
  split_ifs with hlen
  · cases hrealloc : env.realloc g.grown with
    | none =>
      refine ⟨false, _, rfl, rfl, rfl, nofun, fun _ => ⟨_, len, rfl, hrealloc, ?_⟩⟩
      exact (List.suffix_append _ _).isInfix
    | some fresh =>
      refine ⟨true, _, rfl, rfl, rfl, fun _ => ?_, nofun⟩
      simp only [regrown, List.length_append, List.length_map, List.length_range]
      omega
  · exact ⟨true, g, rfl, rfl, rfl, fun _ => Nat.not_lt.mp hlen, nofun⟩

/-- **A turn writes a case**, the one that is drawn. -/
theorem turn_case (t : Target) (env : Env) (s : Word) {i k : ℕ} (hi : i < 2 ^ 32) {g : Gen}
    (hrandom : g.random = splitMix.state s k) (herror : g.output.error = false) :
    ∃ ok g', turn t env (.ofNat 32 i) g = some (ok, g') ∧
      Got (Refused env g'.grown g'.stderr) g.output
        (caseAt (splitMix.word s) i k).1.bytes ok g'.output ∧
      (ok = true → g'.random = splitMix.state s (caseAt (splitMix.word s) i k).2) := by
  have hlength := caseLength_eq s hi k
  have hle := (lengthAt_le (w := splitMix.word s) (i := i) (k := k)).1
  have hcase : (caseAt (splitMix.word s) i k).1 = drawnCase (splitMix.word s)
      (k + (lengthAt (splitMix.word s) i k).2) (lengthAt (splitMix.word s) i k).1 := rfl
  have hend : (caseAt (splitMix.word s) i k).2 =
      k + (lengthAt (splitMix.word s) i k).2 + 1 + ((lengthAt (splitMix.word s) i k).1 + 7) / 8 :=
        rfl
  rw [hcase, hend]
  generalize lengthAt (splitMix.word s) i k = ld at *
  obtain ⟨len, d⟩ := ld
  dsimp only at hlength hle ⊢
  have hnat : (BitVec.ofNat 32 len).toNat = len := toNat_ofNat_of_lt (by omega)
  rw [turn, hrandom, hlength]
  simp only [prngNext_eq, hnat]
  obtain ⟨room, g₁, hgrow, hout, hrnd, hroom, hnull⟩ :=
    grow_eq env len { g with random := splitMix.state s (k + d + 1) }
  rw [hgrow]
  cases room with
  | false =>
    refine ⟨false, g₁, rfl, ⟨nofun, fun _ => ⟨?_, .inr (hnull rfl)⟩⟩, nofun⟩
    rw [hout]
    exact List.prefix_append _ _
  | true =>
    have hfill := fillRandom_eq s (k + d + 1) (hroom rfl)
    have hdata := length_bytesAt (w := splitMix.word s) (k + d + 1) len
    rw [drawnCase]
    generalize bytesAt (splitMix.word s) (k + d + 1) len = data at *
    have hdigest := digest_eq t data (g₁.input.drop len) (splitMix.word s (k + d))
    have hfront : (data ++ g₁.input.drop len).take len = data := List.take_left' hdata
    rw [hdata] at hdigest ⊢
    generalize compact128 (ofList data) len (splitMix.word s (k + d)) = digest at *
    generalize splitMix.word s (k + d) = seed at *
    simp only [hrnd, hfill, hdigest, hfront, Option.bind_eq_bind, Option.bind_some]
    have hbytes : ([u32le (.ofNat 32 len), u64le seed, u64le digest.lo, u64le digest.hi, data] :
        List (List Byte)).flatten = Case.bytes ⟨data, seed, digest.lo, digest.hi⟩ := by
      simp only [Case.bytes, Case.length, u32le_eq, u64le_eq, hdata, List.flatten_cons,
        List.flatten_nil, List.append_nil]
    have hwrite := writeAll_file (hout ▸ herror)
      [u32le (.ofNat 32 len), u64le seed, u64le digest.lo, u64le digest.hi, data]
    generalize writeAll _ g₁.output = x at hwrite ⊢
    obtain ⟨ok, out⟩ := x
    rw [hbytes] at hwrite
    refine ⟨ok, _, rfl, ?_, fun _ => rfl⟩
    rw [← hout]
    exact hwrite.got

/-- **The loop writes the cases**, up to where something fails. -/
theorem loop_cases (t : Target) (env : Env) (s : Word) (n : ℕ) :
    ∀ (i k : ℕ) (g : Gen), i + n ≤ 2 ^ 32 →
    g.random = splitMix.state s k → g.output.error = false →
    ∃ ok g', loop t env n i g = some (ok, g') ∧
      Got (Refused env g'.grown g'.stderr) g.output
        ((casesAt (splitMix.word s) n i k).flatMap Case.bytes) ok g'.output := by
  induction n with
  | zero =>
    intro i k g _ _ herror
    refine ⟨true, g, rfl, fun _ => ⟨?_, herror⟩, nofun⟩
    rw [casesAt, List.flatMap_nil, List.append_nil]
  | succ n ih =>
    intro i k g hi hrandom herror
    obtain ⟨ok, g₁, hturn, hgot, hnext⟩ := turn_case t env s (i := i) (by omega) hrandom herror
    rw [loop, hturn, casesAt, List.flatMap_cons]
    cases ok with
    | false => exact ⟨false, g₁, rfl, hgot.stop⟩
    | true =>
      obtain ⟨ok, g₂, hloop, hrest⟩ := ih (i + 1) _ g₁ (by omega) (hnext rfl) (hgot.all rfl).2
      exact ⟨ok, g₂, hloop, hgot.trans hrest⟩

/-! ### The program -/

/-- What is left of the file when it is closed. -/
def closed (env : Env) (path : CString) (seed : Word) (count : BitVec 32) (ok : Bool) (g : Gen) :
    Done :=
  if ok && !g.output.flush.1 && env.closes then
    ⟨0, some g.output.flush.2, g.stderr ++ (text "generated " ++ decimal count.toNat ++
      text " differential cases: PRNG seed=0x" ++ hex016 seed ++ text ", largest input=" ++
      decimal g.largest ++ text " bytes\n"), g.grown⟩
  else ⟨1, some g.output.flush.2,
    g.stderr ++ (text "failed to write corpus " ++ path.bytes ++ [newline]),
    g.grown⟩

theorem run_got (t : Target) (env : Env) (path : CString) (seed : Word) (count : BitVec 32)
    (fates : List Fate) : ∃ ok g, run t env path seed count fates =
      some (closed env path seed count ok g) ∧
      Got (Refused env g.grown g.stderr) (.opened fates)
        (corpusOf seed count.toNat).bytes ok g.output := by
  have hbytes : (corpusOf seed count.toNat).bytes =
      ([text "HAYAFZ02", u32le count, u64le seed] : List (List Byte)).flatten ++
        (casesAt (splitMix.word seed) count.toNat 0 0).flatMap Case.bytes := by
    simp only [Corpus.bytes, corpusOf, length_casesAt, BitVec.ofNat_toNat, BitVec.setWidth_eq,
      u32le_eq, u64le_eq, List.flatten_cons, List.flatten_nil, List.append_nil, List.append_assoc]
    rfl
  have hfront := writeAll_file (o := .opened fates) rfl [text "HAYAFZ02", u32le count, u64le seed]
  rw [hbytes, run]
  generalize writeAll _ (Out.opened fates) = x at hfront ⊢
  obtain ⟨ok, out⟩ := x
  cases ok with
  | false => exact ⟨false, ⟨seed, [], 0, 0, out, []⟩, rfl, hfront.got.stop⟩
  | true =>
    have hgot : Got False _ _ true out := hfront.got
    have hlt := count.isLt
    obtain ⟨ok, g, hloop, hrest⟩ := loop_cases t env seed count.toNat 0 0 ⟨seed, [], 0, 0, out, []⟩
      (by omega) (Counter.state_zero _ _).symm (hgot.all rfl).2
    refine ⟨ok, g, ?_, hgot.trans hrest⟩
    simp only [if_true, hloop, Option.bind_eq_bind, Option.bind_some]
    rw [closed]
    split_ifs <;> rfl

/-- **What is left of a run**: with status 0 the corpus that is drawn; with status 1 a beginning of
it, and a reason. -/
theorem run_corpus (t : Target) (env : Env) (path : CString) (seed : Word) (count : BitVec 32)
    (fates : List Fate) : ∃ d out, run t env path seed count fates = some d ∧ d.output = some out ∧
      (d.status = 0 ∧ out.error = false ∧ out.sent = (corpusOf seed count.toNat).bytes ∨
        d.status = 1 ∧ out.given <+: (corpusOf seed count.toNat).bytes ∧
          (out.error = true ∨ Refused env d.grown d.stderr ∨ env.closes = false)) := by
  obtain ⟨ok, g, hrun, hgot⟩ := run_got t env path seed count fates
  by_cases hok : (ok && !g.output.flush.1 && env.closes) = true
  · refine ⟨_, g.output.flush.2, hrun.trans (by rw [closed, if_pos hok]), rfl, .inl ⟨rfl, ?_⟩⟩
    rw [Bool.and_eq_true, Bool.and_eq_true, Bool.not_eq_true'] at hok
    obtain ⟨⟨hall, hflush⟩, -⟩ := hok
    obtain ⟨hgiven, herror⟩ := hgot.all hall
    have hclean : g.output.flush.2.error = false := (error_of_flush hflush).trans herror
    exact ⟨hclean, (sent_flush hflush hclean).trans hgiven⟩
  · refine ⟨_, g.output.flush.2, hrun.trans (by rw [closed, if_neg hok]), rfl, .inr ⟨rfl, ?_⟩⟩
    rw [given_flush]
    cases ok with
    | true =>
      refine ⟨(hgot.all rfl).1 ▸ List.prefix_rfl, ?_⟩
      cases hflush : g.output.flush.1 with
      | true => exact .inl (error_of_flush_fails hflush)
      | false =>
        rw [hflush, Bool.not_false, Bool.and_self, Bool.true_and, Bool.not_eq_true] at hok
        exact .inr (.inr hok)
    | false =>
      obtain ⟨hbegin, herror | ⟨n, len, hgrown, hnull, hprinted⟩⟩ := hgot.part rfl
      · exact ⟨hbegin, .inl (error_flush herror)⟩
      · refine ⟨hbegin, .inr (.inl ⟨n, len, hgrown, hnull, hprinted.trans ?_⟩)⟩
        exact (List.prefix_append _ _).isInfix

/-! ### Arguments -/

theorem memory_terminated (s : CString) : Terminated s.memory := ⟨s.bytes, s.noNul, rfl⟩

theorem autoBase_some (h : Terminated s) : ∃ base, autoBase s = some base := by
  obtain ⟨p, hskip, hp⟩ := skipSpace_terminated h
  obtain ⟨sign, hsign⟩ := hp.head
  have hp' : Terminated (if sign = char '+' ∨ sign = char '-' then p.drop 1 else p) := by
    split_ifs with hs
    · refine hp.drop_one hsign ?_
      rcases hs with rfl | rfl <;> decide
    · exact hp
  obtain ⟨p₂, h0x, -⟩ := skip0x_terminated hp'
  rw [autoBase, hskip]
  simp only [Option.bind_eq_bind, Option.bind_some, hsign, h0x]
  split_ifs <;> exact ⟨_, rfl⟩

theorem parseU64_some (s : CString) (name : String) : ∃ r, parseU64 s name = some r := by
  obtain ⟨base, hbase⟩ := autoBase_some (memory_terminated s)
  obtain ⟨r, hr, hend⟩ := strtoull_terminated base (memory_terminated s)
  obtain ⟨c, hc⟩ := hend.head
  rw [parseU64, hbase]
  simp only [Option.bind_eq_bind, Option.bind_some, hr, hc]
  split_ifs <;> exact ⟨_, rfl⟩

theorem parseCount_some (s : CString) : ∃ r, parseCount s = some r ∧
    ∀ count, r = .ok count → minCases ≤ count.toNat ∧ count.toNat ≤ maxCases := by
  obtain ⟨r, hr⟩ := parseU64_some s "case count"
  rw [parseCount, hr]
  cases r with
  | error m => exact ⟨_, rfl, nofun⟩
  | ok v =>
    simp only [Option.bind_eq_bind, Option.bind_some]
    split_ifs with hrange
    · exact ⟨_, rfl, nofun⟩
    · refine ⟨_, rfl, fun count hcount => ?_⟩
      obtain rfl := Except.ok.inj hcount
      rw [not_or, Nat.not_lt, Nat.not_lt] at hrange
      have hmax : maxCases < 2 ^ 32 := by decide
      rw [BitVec.toNat_setWidth, Nat.mod_eq_of_lt (hrange.2.trans_lt hmax)]
      exact hrange

/-- **Arguments are taken or refused**; the number of cases is in range. -/
theorem parseArgs_some (argv : List CString) : ∃ r, parseArgs argv = some r ∧
    ∀ path seed count, r = .ok (path, seed, count) → minCases ≤ count.toNat ∧ count.toNat ≤
      maxCases := by
  unfold parseArgs
  split
  · rename_i seed
    obtain ⟨r, hr⟩ := parseU64_some seed "PRNG seed"
    rw [hr]
    cases r with
    | error m => exact ⟨_, rfl, nofun⟩
    | ok v =>
      refine ⟨_, rfl, fun path seed count h => ?_⟩
      cases h
      decide
  · rename_i seed count
    obtain ⟨r, hr⟩ := parseU64_some seed "PRNG seed"
    rw [hr]
    cases r with
    | error m => exact ⟨_, rfl, nofun⟩
    | ok v =>
      obtain ⟨r, hr, hcount⟩ := parseCount_some count
      simp only [Option.bind_eq_bind, Option.bind_some, hr]
      cases r with
      | error m => exact ⟨_, rfl, nofun⟩
      | ok n =>
        refine ⟨_, rfl, fun path seed count h => ?_⟩
        cases h
        exact hcount _ rfl
  · exact ⟨_, rfl, nofun⟩

end Hayahash.Refine.Generate
