import Hayahash.Spec.Steps
import Hayahash.Refine.PortWalk

/-! # The simulator does what the reference does

The functions of the simulator on integers that are words (`val`), then the two halves of its paths:
the values are the ones of the reference, and the steps show what they should (`Log`).

`Walked` is what holds between the stripes and the tail words of a long key. -/

namespace Hayahash.Refine.Sim

open Hayahash.Lib.ReadProg Hayahash.Lib.Bytes Hayahash.Lib.Checked Hayahash.Lib.Arrays
open Hayahash.Lib.Bigint Hayahash.Lib.Walk
open Hayahash.Spec.Reference Hayahash.Spec.Steps Hayahash.Ports.Sim Hayahash.Ports.Sim.Run
open Hayahash.Refine.PortWalk
  (lane setLane enter enters withLower blockStep_enters roundStep_enters)
open Hayahash.C.Primitives (Word Lanes4 Lanes8)
open Hayahash.C.Walk (foldT0 foldT1 foldUpper)
open Hayahash.C.Oneshot (lenmix)

/-! ### Arithmetic -/

theorem K_big : Ports.Sim.K = val C.Primitives.K := (rfl)
theorem M1_big : Ports.Sim.M1 = val C.Primitives.M1 := (rfl)
theorem M2_big : Ports.Sim.M2 = val C.Primitives.M2 := (rfl)
theorem N1_big : Ports.Sim.N1 = val C.Primitives.N1 := (rfl)
theorem N2_big : Ports.Sim.N2 = val C.Primitives.N2 := (rfl)

theorem mul_big (a b : Word) : mul (val a) (val b) = val (a * b) := mask_mul a b

theorem add_big (a b : Word) : add (val a) (val b) = val (a + b) := mask_add a b

theorem shl_big (x : Word) (n : ℕ) : shl (val x) n = val (x <<< n) := mask_shl x n

theorem rotl_big (x : Word) {n : ℕ} (h0 : 0 < n) (hn : n < 64) :
    Ports.Sim.rotl (val x) n = pure (val (C.Primitives.rotl x n)) := by
  rw [Ports.Sim.rotl, shr_val, pure_bind, maskedOr_val, C.Primitives.rotl,
    Nat.mod_eq_of_lt (a := 64 - n) (by omega)]

theorem xorshift_big (x : Word) (n : ℕ) : xorshift n (val x) = pure (val (x ^^^ (x >>> n))) := by
  rw [xorshift, shr_val, pure_bind, bxor_val]

theorem inj_big (w : Word) : Ports.Sim.inj (val w) = pure (val (C.Primitives.inj w)) := by
  rw [Ports.Sim.inj, rotl_big w (by decide) (by decide), rotl_big w (by decide) (by decide),
    pure_bind, bxor_val, pure_bind, pure_bind, bxor_val, C.Primitives.inj]

theorem inj2_big (w : Word) : Ports.Sim.inj2 (val w) = pure (val (C.Primitives.inj2 w)) := by
  rw [Ports.Sim.inj2, rotl_big w (by decide) (by decide), rotl_big w (by decide) (by decide),
    pure_bind, bxor_val, pure_bind, pure_bind, bxor_val, C.Primitives.inj2]

theorem lenmix_big (l : ℤ) : mul l Ports.Sim.K = val (lenmix l) := by
  rw [mul, K_big, mask_eq, BitVec.ofInt_mul, ofInt_val, lenmix]

/-! ### Loads -/

section Loads
variable {xs : List Byte} {i : ℤ}

theorem byte_big (h0 : 0 ≤ i) (hi : i < xs.length) :
    byte (.all xs) i = pure (val ((ofList xs i).setWidth 64)) := by
  rw [byte, View.get_eq h0 hi, pure_bind]
  simp only [View.all, zero_add]

theorem bor_first (b : Byte) : bor (0 * 2 ^ 8) (val (b.setWidth 64)) =
    pure (val (b.setWidth 64)) := by
  have hzero : (0 * 2 ^ 8 : ℤ) = val 0#64 := rfl
  rw [hzero, bor_val, BitVec.zero_or]

theorem load64_big (h0 : 0 ≤ i) (hi : i + 8 ≤ xs.length) :
    load64 (.all xs) i = pure (val (word64 (ofList xs) i)) := by
  have hbyte : ∀ j : ℕ, j < 8 → byte (.all xs) (i + j) =
    pure (val ((ofList xs (i + j)).setWidth 64)) :=
    fun j hj => byte_big (by omega) (by omega)
  unfold load64
  simp (disch := decide) only [loadLoop, hbyte, pure_bind, bor_first, bor_byte]
  rfl

theorem load32_big (h0 : 0 ≤ i) (hi : i + 4 ≤ xs.length) :
    load32 (.all xs) i = pure (val ((word32 (ofList xs) i).setWidth 64)) := by
  have hbyte : ∀ j : ℕ, j < 4 → byte (.all xs) (i + j) =
    pure (val ((ofList xs (i + j)).setWidth 64)) :=
    fun j hj => byte_big (by omega) (by omega)
  unfold load32
  simp (disch := decide) only [loadLoop, hbyte, pure_bind, bor_first, bor_byte]
  rfl

end Loads

/-! ### Finalizers -/

variable {n : ℤ} {σ : Run}

/-- What a function does to words. -/
abbrev OnWords (f : ℤ → Chk ℤ) (g : Word → Word) : Prop := ∀ x, f (val x) = pure (val (g x))

theorem mul_words {a : ℤ} {c : Word} (ha : a = val c) :
    OnWords (fun v => pure (mul v a)) (· * c) := by
  subst ha
  exact fun x => congrArg pure (mul_big x c)

theorem push_log {title : String} (h : Log n σ.steps σ.done) :
    Log n (push σ title []).steps (push σ title []).done := h.silent _ _ (by rintro r ⟨⟩)

theorem set_log {title : String} {f : St → St} (h : Log n σ.steps σ.done) :
    Log n (set σ title f).steps (set σ title f).done := h.silent _ _ (by rintro r ⟨⟩)

theorem set_st (title : String) (f : St → St) : (set σ title f).st = f σ.st := rfl

theorem finalize_yields (label : String) (get : St → ℤ) (put : St → ℤ → St)
    (hget : ∀ st v, get (put st v) = v) (hput : ∀ st v w, put (put st v) w = put st w)
    {fs : List (ℤ → Chk ℤ)} {gs : List (Word → Word)} (hfs : List.Forall₂ OnWords fs gs) :
    ∀ (i : ℕ) (σ : Run) (st : St) (x : Word), σ.st = put st (val x) → Log n σ.steps σ.done →
      Yields (finalize label get put fs i σ) fun τ =>
        τ.st = put st (val (gs.foldl (fun x g => g x) x)) ∧ τ.done = σ.done ∧
        Log n τ.steps τ.done := by
  induction hfs with
  | nil => exact fun i σ st x hst hlog => .pure ⟨hst, rfl, hlog⟩
  | cons hf _ ih =>
    intro i σ st x hst hlog
    unfold finalize
    rw [hst, hget, hf, pure_bind]
    exact ih (i + 1) _ st _ (by rw [set_st, hst, hput]) (set_log hlog)

theorem finishHigh_yields (x : Word) (h : Log n σ.steps σ.done) :
    Yields (finishHigh σ (val x)) fun τ => τ.st.m = σ.st.m ∧ τ.st.x = σ.st.x ∧
      τ.st.hi = val (C.Primitives.fmix128 x) ∧ τ.done = σ.done ∧ Log n τ.steps τ.done := by
  have hfs : List.Forall₂ OnWords
      [xorshift 30, fun v => pure (mul v N1), xorshift 31, fun v => pure (mul v N2), xorshift 33]
      [fun x => x ^^^ (x >>> 30), (· * C.Primitives.N1), fun x => x ^^^ (x >>> 31),
        (· * C.Primitives.N2), fun x => x ^^^ (x >>> 33)] :=
    .cons (xorshift_big · 30) (.cons (mul_words N1_big) (.cons (xorshift_big · 31)
      (.cons (mul_words N2_big) (.cons (xorshift_big · 33) .nil))))
  have hfinal := finalize_yields "finalize high" St.hi (fun st hi => { st with hi })
    (fun _ _ => rfl) (fun _ _ _ => rfl) hfs 1
    (set σ "128-bit high combine" ({ · with hi := val x })) σ.st x rfl (set_log h)
  simp only [List.foldl_cons, List.foldl_nil] at hfinal
  refine hfinal.mono ?_
  rintro τ ⟨hst, hdone, hlog⟩
  rw [hst]
  exact ⟨rfl, rfl, rfl, hdone, hlog⟩

theorem finalizeLow_yields {x : Word} (hm : σ.st.m = val x) (h : Log n σ.steps σ.done) :
    Yields (finalize "finalize" St.m (fun st m => { st with m }) [xorshift 27, fun m =>
    pure (mul m M1), xorshift 33, fun m => pure (mul m M2), xorshift 27] 1 σ) fun τ =>
        τ.st.m = val (C.Primitives.fmix x) ∧ τ.st.x = σ.st.x ∧ τ.done = σ.done ∧
          Log n τ.steps τ.done := by
  have hfs : List.Forall₂ OnWords
      [xorshift 27, fun m => pure (mul m M1), xorshift 33, fun m => pure (mul m M2), xorshift 27]
      [fun x => x ^^^ (x >>> 27), (· * C.Primitives.M1), fun x => x ^^^ (x >>> 33),
        (· * C.Primitives.M2), fun x => x ^^^ (x >>> 27)] :=
    .cons (xorshift_big · 27) (.cons (mul_words M1_big) (.cons (xorshift_big · 33)
      (.cons (mul_words M2_big) (.cons (xorshift_big · 27) .nil))))
  have hfinal := finalize_yields "finalize" St.m (fun st m => { st with m })
    (fun _ _ => rfl) (fun _ _ _ => rfl) hfs 1 σ σ.st x (by rw [← hm]) h
  simp only [List.foldl_cons, List.foldl_nil] at hfinal
  refine hfinal.mono ?_
  rintro τ ⟨hst, hdone, hlog⟩
  rw [hst]
  exact ⟨rfl, rfl, hdone, hlog⟩

/-! ### The short path -/

section Short
variable {xs : List Byte}

theorem twoLoads_log {k : ℤ} {t t' : String} {st st' : St} (h : Log n σ.steps 0) (hk : 0 < k)
    (hle : k ≤ n) (hover : n ≤ 2 * k) :
    Log n (σ.steps ++ [⟨t, [⟨0, k, .r⟩], k, st⟩] ++ [⟨t', ⟨n - k, k, .r⟩ ::
      (if 2 * k - n > 0 then [⟨n - k, 2 * k - n, .o⟩] else []), n, st'⟩]) n := by
  have hfirst := h.read t st le_rfl le_rfl hk (by omega) (marks_nil le_rfl)
  have hdone : max 0 (0 + k) = k := by omega
  rw [hdone] at hfirst
  have hend : max k (n - k + k) = n := by omega
  have hmarks : Marks n k (n - k) k (if 2 * k - n > 0 then [⟨n - k, 2 * k - n, .o⟩] else []) :=
    marks_again hk (by omega)
  have hlast := hfirst.read t' st' (by omega) (by omega) hk (by omega) hmarks
  rwa [hend] at hlast

theorem threeLoads_log {t t' : String} {st st' : St} (h : Log n σ.steps 0) (hpos : 0 < n)
    (h3 : n ≤ 3) : Log n (σ.steps ++ [⟨t, [⟨0, 1, .r⟩], 1, st⟩] ++
      [⟨t', [⟨n / 2, 1, .r⟩, ⟨n - 1, 1, .r⟩], n, st'⟩]) n := by
  have hfirst := h.read (k := 1) t st le_rfl le_rfl (by omega) (by omega) (marks_nil le_rfl)
  refine hfirst.push (x := ⟨t', [⟨n / 2, 1, .r⟩, ⟨n - 1, 1, .r⟩], n, st'⟩)
    (by dsimp only; omega) ?_ ?_ ?_ ?_
  · ext i
    simp only [reads, range, List.mem_cons, List.not_mem_nil, or_false, exists_eq_or_imp,
      exists_eq_left, true_and, Set.mem_union, mem_between, Set.mem_ofPred_eq]
    omega
  · intro r hr
    simp only [List.mem_cons, List.not_mem_nil, or_false] at hr
    rcases hr with rfl | rfl
    · exact ⟨by dsimp only; omega, Int.one_pos, by dsimp only; omega⟩
    · exact ⟨by dsimp only; omega, Int.one_pos, by dsimp only; omega⟩
  · intro r hr ho
    simp only [List.mem_cons, List.not_mem_nil, or_false] at hr
    rcases hr with rfl | rfl <;> cases ho
  · intro hone _
    refine Set.eq_empty_of_forall_notMem fun i hi => ?_
    simp only [reads, range, List.mem_cons, List.not_mem_nil, or_false, exists_eq_or_imp,
      exists_eq_left, true_and, Set.mem_inter_iff, mem_between, Set.mem_ofPred_eq] at hi
    omega

theorem shortLoads_yields (h : Log xs.length σ.steps σ.done) (hdone : σ.done = 0)
    (h16 : xs.length ≤ 16) : Yields (shortLoads (.all xs) xs.length σ) fun r =>
      r.1 = val (shortA (ofList xs) xs.length) ∧ r.2.1 = val (shortB (ofList xs) xs.length) ∧
        r.2.2.done = xs.length ∧ Log xs.length r.2.2.steps r.2.2.done := by
  have hstart : Log xs.length σ.steps 0 := hdone ▸ h
  unfold shortLoads shortA shortB
  by_cases h8 : 8 ≤ xs.length
  · have hov : max 0 (16 - (xs.length : ℤ)) = 2 * 8 - xs.length := by omega
    rw [if_pos (by omega), if_pos h8, if_pos h8, load64_big le_rfl (by omega), pure_bind,
      load64_big (by omega) (by omega), pure_bind]
    dsimp only
    rw [hov]
    exact .pure ⟨rfl, rfl, rfl, twoLoads_log hstart (by decide) (by omega) (by omega)⟩
  rw [if_neg (by omega), if_neg h8, if_neg h8]
  by_cases h4 : 4 ≤ xs.length
  · have hov : 8 - (xs.length : ℤ) = 2 * 4 - xs.length := by omega
    rw [if_pos (by omega), if_pos h4, if_pos h4, load32_big le_rfl (by omega), pure_bind,
      load32_big (by omega) (by omega), pure_bind]
    dsimp only
    rw [hov]
    exact .pure ⟨rfl, rfl, rfl, twoLoads_log hstart (by decide) (by omega) (by omega)⟩
  rw [if_neg (by omega), if_neg h4, if_neg h4]
  by_cases hpos : 0 < xs.length
  · rw [if_pos (by omega), if_pos hpos, if_pos hpos, byte_big le_rfl (by omega), pure_bind,
      byte_big (by omega) (by omega), pure_bind, byte_big (by omega) (by omega), pure_bind,
      val_shl_byte _ (by decide), val_shl_byte _ (by decide), bor_val, pure_bind]
    exact .pure ⟨rfl, rfl, rfl, threeLoads_log hstart (by omega) (by omega)⟩
  · have hzero : (xs.length : ℤ) = 0 := by omega
    rw [if_neg (by omega), if_neg hpos, if_neg hpos]
    exact .pure ⟨rfl, rfl, by rw [hzero]; exact hdone, set_log h⟩

theorem buildShort_yields (h : Log xs.length σ.steps σ.done) (hdone : σ.done = 0)
    (h16 : xs.length ≤ 16) (seed : Word) :
    Yields (buildShort (.all xs) xs.length (val (seed ^^^ C.Primitives.K))
      (val (lenmix xs.length)) σ)
      fun τ => τ.st.m = val (compact64 (ofList xs) xs.length seed) ∧
        τ.st.hi = val (compactHi (ofList xs) xs.length seed) ∧
        τ.done = xs.length ∧ Log xs.length τ.steps τ.done := by
  have h64 : compact64 (ofList xs) xs.length seed = C.Primitives.fmix _ := if_pos h16
  have hhi : compactHi (ofList xs) xs.length seed = C.Primitives.fmix128 _ := if_pos h16
  rw [h64, hhi]
  unfold buildShort
  refine (shortLoads_yields h hdone h16).bind ?_
  rintro ⟨_, _, σ'⟩ ⟨rfl, rfl, hlen, hlog⟩
  dsimp only at hlen hlog ⊢
  have hx : ∀ a s, (C.Primitives.inj a ^^^ s ^^^ C.Primitives.K) * C.Primitives.K = shortX a s :=
    fun _ _ => rfl
  have hy : ∀ b s, (C.Primitives.inj2 b ^^^ C.Primitives.rotl s 23 ^^^ C.Primitives.K >>> 19) *
    C.Primitives.M1 = shortY b s := fun _ _ => rfl
  have hu : ∀ x y, C.Primitives.rotl x 27 ^^^ y ^^^ lenmix xs.length = shortU x y xs.length :=
    fun _ _ => rfl
  simp (disch := decide) only [inj_big, inj2_big, rotl_big, bxor_val, shr_val, pure_bind,
    K_big, M1_big, mul_big, hx, hy, hu]
  generalize shortX (shortA (ofList xs) xs.length) (seed ^^^ C.Primitives.K) = x
  generalize shortY (shortB (ofList xs) xs.length) (seed ^^^ C.Primitives.K) = y
  refine (finalizeLow_yields rfl (set_log (set_log (set_log hlog)))).bind ?_
  rintro τ ⟨hm, hsame, hdone', hlog'⟩
  have hxx : τ.st.x = val x := hsame
  rw [hxx, add_big]
  refine (finishHigh_yields _ hlog').bind ?_
  rintro ρ ⟨hm', -, hhigh, hdone'', hlog''⟩
  refine .pure ⟨hm'.trans hm, hhigh, (hdone''.trans hdone').trans hlen, push_log hlog''⟩

end Short

/-! ### Lanes and stripes -/

/-- The lanes, as integers. -/
def bigLanes (h : Lanes8) (i : Fin 8) : ℤ := val (lane h i)

theorem lane_setLane (h : Lanes8) (x : Word) (i j : Fin 8) :
    lane (setLane h x i) j = if j = i then x else lane h j := by
  fin_cases i <;> fin_cases j <;> rfl

theorem update_big (h : Lanes8) (x : Word) (i : Fin 8) :
    Function.update (bigLanes h) i (val x) = bigLanes (setLane h x i) := by
  funext j
  rw [bigLanes, lane_setLane, Function.update_apply]
  split_ifs <;> rfl

/-- **Between the reads of a long key**: the bytes up to `d` are read, and the lanes are `h`. -/
structure Held (n p l d : ℤ) (h : Lanes8) (σ : Run) : Prop where
  lenmix : σ.st.lenmix = val (lenmix n)
  lanes : σ.st.h = bigLanes h
  p : σ.p = p
  l : σ.l = l
  done : σ.done = d
  log : Log n σ.steps σ.done

/-- **Between the stripes**: the last one is known too, and it lies in the input, if there is
one. -/
structure Walked (n p l d : ℤ) (x : Lanes8 × Word) (σ : Run) : Prop extends Held n p l d x.1 σ where
  wp : σ.wp = val x.2
  last : (σ.wpOff = -1 ∧ x.2 = 0 ∧ d = 0) ∨ (0 ≤ σ.wpOff ∧ σ.wpOff + 8 ≤ n)

section Long
variable {xs : List Byte} {p l d : ℤ} {x : Lanes8 × Word}

theorem Held.setLane {h : Lanes8} (hσ : Held n p l d h σ) (i : Fin 8) (y : Word) :
    Held n p l d (PortWalk.setLane h y i) (σ.setLane i (val y)) where
  lenmix := hσ.lenmix
  lanes := by rw [← update_big, ← hσ.lanes, Run.setLane]
  p := hσ.p
  l := hσ.l
  done := hσ.done
  log := hσ.log

theorem Walked.setLane (h : Walked n p l d x σ) (i : Fin 8) (y : Word) :
    Walked n p l d (PortWalk.setLane x.1 y i, x.2) (σ.setLane i (val y)) :=
  ⟨h.toHeld.setLane i y, h.wp, h.last⟩

theorem Walked.previous (h : Walked n p l d x σ) (hwp : 0 ≤ σ.wpOff) :
    Inside n ⟨σ.wpOff, 8, .p⟩ := by
  rcases h.last with ⟨hnone, -⟩ | ⟨h0, h1⟩
  · omega
  · exact ⟨h0, show (0 : ℤ) < 8 by decide, h1⟩

theorem stripe_walked (h : Walked xs.length p l d x σ) (h0 : 0 ≤ d) (h1 : d + 8 ≤ xs.length)
    (i : Fin 8) : Yields (stripe (.all xs) d i σ)
      (Walked xs.length p l (d + 8) (enter i (word64 (ofList xs) d) x)) := by
  have hlane : σ.st.h i = val (lane x.1 i) := by rw [h.lanes, bigLanes]
  have hmarks : Marks xs.length σ.done d 8 (if σ.wpOff ≥ 0 then [⟨σ.wpOff, 8, .p⟩] else []) := by
    split_ifs with hwp
    · refine ⟨fun r hr => .inl ?_, fun hlt => absurd hlt (by rw [h.done]; exact lt_irrefl _)⟩
      rw [List.mem_singleton.1 hr]
      exact ⟨rfl, h.previous hwp⟩
    · exact marks_nil h.done.le
  have hdone : max σ.done (d + 8) = d + 8 := by rw [h.done]; omega
  have hstep := h.setLane i (mix (lane x.1 i) (chain (word64 (ofList xs) d) x.2))
  unfold stripe
  rw [load64_big h0 h1, pure_bind, h.wp, rotl_big _ (by decide) (by decide), pure_bind, add_big]
  dsimp only
  rw [hlane, bxor_val, pure_bind, K_big, mul_big]
  refine .pure ⟨⟨hstep.lenmix, hstep.lanes, h.p, h.l, rfl, ?_⟩, rfl, .inr ⟨h0, h1⟩⟩
  rw [← hdone]
  exact h.log.read _ _ h0 h.done.ge (by decide) h1 hmarks

theorem stripes_from (h0 : 0 ≤ p) : ∀ (is : List (Fin 8)) (k : ℕ) {x : Lanes8 × Word} {σ : Run},
    is.map Fin.val = List.range' k is.length → p + 8 * (k + is.length : ℕ) ≤ xs.length →
    Walked xs.length p l (p + 8 * k) x σ →
    Yields (is.foldlM (fun τ i => stripe (.all xs) (p + 8 * i.val) i τ) σ)
      (Walked xs.length p l (p + 8 * (k + is.length : ℕ)) (enters (ofList xs) p is x)) := by
  intro is
  induction is with
  | nil => exact fun k x σ _ _ h => .pure h
  | cons i is ih =>
    intro k x σ hlanes hfit h
    rw [List.map_cons, List.length_cons, List.range'_succ, List.cons.injEq] at hlanes
    rw [List.length_cons] at hfit
    obtain ⟨rfl, hrest⟩ := hlanes
    have hnext : p + 8 * (i.val : ℤ) + 8 = p + 8 * ((i.val + 1 : ℕ) : ℤ) := by omega
    have hstripe := stripe_walked h (by omega) (by omega) i
    have hpos : i.val + (is.length + 1) = i.val + 1 + is.length := by omega
    rw [hnext] at hstripe
    rw [List.foldlM_cons, List.length_cons, hpos]
    refine hstripe.bind fun τ hτ => ?_
    have hall := ih (i.val + 1) hrest (by omega) hτ
    rw [mul_comm 8 (i.val : ℤ)] at hall
    exact hall

theorem stripes_walked (is : List (Fin 8)) (hlanes : is.map Fin.val = List.range' 0 is.length)
    (h : Walked xs.length p l p x σ) (h0 : 0 ≤ p) (hfit : p + 8 * is.length ≤ xs.length) :
    Yields (stripes (.all xs) is σ)
      (Walked xs.length p l (p + 8 * is.length) (enters (ofList xs) p is x)) := by
  have hstart : Walked xs.length p l (p + 8 * ((0 : ℕ) : ℤ)) x σ := by
    rwa [Nat.cast_zero, mul_zero, add_zero]
  have hall := stripes_from h0 is 0 hlanes (by rwa [Nat.zero_add]) hstart
  rw [Nat.zero_add] at hall
  unfold stripes
  rwa [h.p]

theorem blockStep_walked (h : Walked xs.length p l p x σ) (h0 : 0 ≤ p) (h1 : p + 64 ≤ xs.length) :
    Yields (Ports.Sim.blockStep (.all xs) σ)
      (Walked xs.length (p + 64) (l - 64) (p + 64) (blockStep (ofList xs) p x)) := by
  have hblock : Walked xs.length p l p x { σ with block := σ.block + 1 } :=
    ⟨⟨h.lenmix, h.lanes, h.p, h.l, h.done, h.log⟩, h.wp, h.last⟩
  unfold Ports.Sim.blockStep
  rw [blockStep_enters]
  refine (stripes_walked [0, 1, 2, 3, 4, 5, 6, 7] rfl hblock h0 h1).bind fun τ hτ => ?_
  generalize enters (ofList xs) p [0, 1, 2, 3, 4, 5, 6, 7] x = y at hτ ⊢
  have hlane : τ.st.h 0 = val y.1.h0 := by
    rw [hτ.lanes]
    rfl
  have hwp : 0 ≤ τ.wpOff := by
    rcases hτ.last with ⟨-, -, hnone⟩ | ⟨hwp, -⟩
    · rw [List.length_cons] at hnone
      omega
    · exact hwp
  rw [hlane, hτ.wp, add_big]
  have hcheck := hτ.setLane 0 (y.1.h0 + y.2)
  refine .pure ⟨⟨hcheck.lenmix, hcheck.lanes, ?_, ?_, hcheck.done, hcheck.log.silent _ _ ?_⟩,
    hcheck.wp, hcheck.last⟩
  · exact congrArg (· + 64) hcheck.p
  · exact congrArg (· - 64) hcheck.l
  · intro r hr
    rw [List.mem_singleton.1 hr]
    exact ⟨rfl, hcheck.previous hwp⟩

theorem roundStep_walked {u : Lanes8} {y : Lanes4 × Word}
    (h : Walked xs.length p l p (withLower u y.1, y.2) σ) (h0 : 0 ≤ p) (h1 : p + 32 ≤ xs.length) :
    Yields (Ports.Sim.roundStep (.all xs) σ) (Walked xs.length (p + 32) (l - 32) (p + 32)
      (withLower u (roundStep (ofList xs) p y).1, (roundStep (ofList xs) p y).2)) := by
  unfold Ports.Sim.roundStep
  rw [← roundStep_enters]
  refine (stripes_walked [0, 1, 2, 3] rfl h h0 h1).bind fun τ hτ => ?_
  exact .pure
    ⟨⟨hτ.lenmix, hτ.lanes, congrArg (· + 32) hτ.p, congrArg (· - 32) hτ.l, hτ.done, hτ.log⟩,
    hτ.wp, hτ.last⟩

/-! ### Loops -/

/-- **A loop is a walk**, whatever its step keeps. -/
theorem whileL_yields {α : Type} {f : Run → Chk Run} {g : ℤ → α → α} {R : ℤ → ℤ → α → Run → Prop}
    {d : ℕ} (hd : 0 < d) (hl : ∀ {p l y σ}, R p l y σ → σ.l = l)
    (hstep : ∀ {p l y σ}, R p l y σ → d ≤ l → Yields (f σ) (R (p + d) (l - d) (g p y))) :
    ∀ (fuel l : ℕ) {p : ℤ} {y : α} {σ : Run}, l < fuel → R p l y σ →
      Yields (whileL d f fuel σ)
        (R (p + (d * (l / d) : ℕ)) (l % d : ℕ) (walk g d (l / d) p y)) := by
  intro fuel
  induction fuel with
  | zero =>
    intro l p y σ hfuel _
    omega
  | succ fuel ih =>
    intro l p y σ hfuel h
    unfold whileL
    by_cases hle : d ≤ l
    · have hpos : p + (d : ℤ) + (d * ((l - d) / d) : ℕ) = p + (d * (l / d) : ℕ) := by
        rw [Nat.div_eq_sub_div hd hle, Nat.mul_add, mul_one]
        push_cast
        ring
      have hleft : ((l : ℤ) - d) = (l - d : ℕ) := by omega
      rw [if_pos (by rw [hl h]; exact_mod_cast hle)]
      refine (hstep h (by exact_mod_cast hle)).bind fun τ hτ => ?_
      rw [hleft] at hτ
      have hrest := ih (l - d) (by omega) hτ
      rw [hpos, ← Nat.mod_eq_sub_mod hle, ← walk_succ, ← Nat.div_eq_sub_div hd hle] at hrest
      exact hrest
    · rw [if_neg (by rw [hl h]; exact_mod_cast hle), Nat.div_eq_of_lt (by omega),
        Nat.mod_eq_of_lt (by omega), mul_zero, Nat.cast_zero, add_zero]
      exact .pure h

theorem bulkLoop_walked {n : ℕ} (hn : n = xs.length) (h : Walked n 0 n 0 x σ) :
    Yields (whileL 64 (Ports.Sim.blockStep (.all xs)) (n + 1) σ) (Walked n (64 * (n / 64) : ℕ)
      (n % 64 : ℕ) (64 * (n / 64) : ℕ) (blocks (ofList xs) (n / 64) 0 x)) := by
  subst hn
  have hloop :=
    whileL_yields (g := blockStep (ofList xs)) (f := Ports.Sim.blockStep (.all xs)) (d := 64)
    (R := fun p l y τ => Walked xs.length p l p y τ ∧ 0 ≤ p ∧ p + l = xs.length) (by decide)
    (fun h => h.1.l) ?_ (xs.length + 1) xs.length (Nat.lt_succ_self _) ⟨h, le_rfl, zero_add _⟩
  · rw [zero_add] at hloop
    exact hloop.mono fun τ hτ => hτ.1
  · rintro p l y τ ⟨hτ, h0, hpl⟩ hle
    refine (blockStep_walked hτ h0 (by omega)).mono fun ρ hρ => ?_
    exact ⟨hρ, by omega, by omega⟩

theorem midLoop_walked {u : Lanes8} {y : Lanes4 × Word} {p l fuel : ℕ} (hfuel : l < fuel)
    (h : Walked xs.length p l p (withLower u y.1, y.2) σ) (hpl : p + l = xs.length) :
    Yields (whileL 32 (Ports.Sim.roundStep (.all xs)) fuel σ)
      (Walked xs.length (p + 32 * (l / 32) : ℕ)
      (l % 32 : ℕ) (p + 32 * (l / 32) : ℕ)
      (withLower u (rounds (ofList xs) (l / 32) p y).1, (rounds (ofList xs) (l / 32) p y).2)) := by
  have hloop :=
    whileL_yields (g := roundStep (ofList xs)) (f := Ports.Sim.roundStep (.all xs)) (d := 32)
    (R := fun p l y τ => Walked xs.length p l p (withLower u y.1, y.2) τ ∧ 0 ≤ p ∧ p + l =
    xs.length) (by decide) (fun h => h.1.l) ?_ fuel l hfuel ⟨h, by omega, by omega⟩
  · rw [← Nat.cast_add] at hloop
    exact hloop.mono fun τ hτ => hτ.1
  · rintro p l y τ ⟨hτ, h0, hpl⟩ hle
    refine (roundStep_walked hτ h0 (by omega)).mono fun ρ hρ => ?_
    exact ⟨hρ, by omega, by omega⟩

/-! ### Folds, wall and tail -/

theorem foldLane_walked (h : Walked n p l d x σ) (i j : Fin 8) {k : ℕ} (h0 : 0 < k) (hk : k < 64) :
    Yields (foldLane i j k σ) (Walked n p l d
      (setLane x.1 ((lane x.1 i ^^^ C.Primitives.rotl (lane x.1 j) k) * C.Primitives.K) i,
        x.2)) := by
  unfold foldLane
  rw [h.lanes, bigLanes, bigLanes, rotl_big _ h0 hk, pure_bind, bxor_val, pure_bind, K_big, mul_big]
  exact .pure (h.setLane i _)

theorem Held.set {h : Lanes8} (hσ : Held n p l d h σ) {title : String} {f : St → St}
    (hlenmix : (f σ.st).lenmix = σ.st.lenmix) (hlanes : (f σ.st).h = σ.st.h) :
    Held n p l d h (σ.set title f) :=
  ⟨hlenmix.trans hσ.lenmix, hlanes.trans hσ.lanes, hσ.p, hσ.l, hσ.done, set_log hσ.log⟩

theorem laneFold_walked (h : Walked n p l d x σ) :
    Yields (laneFold σ) (Walked n p l d (withLower x.1 (foldUpper x.1), x.2)) := by
  unfold laneFold
  -- the lanes as variables, so that every replaced lane is computed once
  obtain ⟨⟨h0, h1, h2, h3, h4, h5, h6, h7⟩, wp⟩ := x
  refine (foldLane_walked h 0 4 (by decide) (by decide)).bind fun σ h => ?_
  refine (foldLane_walked h 1 5 (by decide) (by decide)).bind fun σ h => ?_
  refine (foldLane_walked h 2 6 (by decide) (by decide)).bind fun σ h => ?_
  refine (foldLane_walked h 3 7 (by decide) (by decide)).bind fun σ h => ?_
  simp only [lane, PortWalk.setLane] at h
  exact .pure ⟨h.toHeld.set rfl rfl, h.wp, h.last⟩

theorem wall_walked {u : Lanes8} {y : Lanes4 × Word} (h : Walked n p l d (withLower u y.1, y.2) σ) :
    Yields (wall σ) (Held n p l d (withLower u (wallStep y))) := by
  have hlane : σ.st.h 0 = val y.1.h0 := by
    rw [h.lanes]
    rfl
  unfold wall
  split_ifs with hwp
  · rw [h.wp, rotl_big _ (by decide) (by decide), pure_bind, hlane, add_big]
    have hstep := h.toHeld.setLane 0 (y.1.h0 + C.Primitives.rotl y.2 27)
    refine .pure ⟨hstep.lenmix, hstep.lanes, hstep.p, hstep.l, hstep.done, hstep.log.silent _ _ ?_⟩
    intro r hr
    rw [List.mem_singleton.1 hr]
    exact ⟨rfl, h.previous hwp⟩
  · have hnone : y.2 = 0 := by
      rcases h.last with ⟨-, hnone, -⟩ | ⟨hlast, -⟩
      · exact hnone
      · omega
    have hzero : wallStep y = y.1 := by
      have hrotl : C.Primitives.rotl 0 27 = 0 := C.Mixers.rotl_zero 27
      rw [wallStep, hnone, hrotl]
      simp
    rw [hzero]
    exact .pure h.toHeld

theorem ovHl_marks (off : ℤ) : Marks n σ.done off 8 (ovHl σ off) :=
  marks_again (by decide) rfl

theorem tailWord_held {h : Lanes8} (hσ : Held xs.length p l d h σ) (off : ℤ) (h0 : 0 ≤ off)
    (hoff : off ≤ d) (h1 : off + 8 ≤ xs.length) (i : Fin 8) {extraHl : List Highlight}
    (hextra : Marks xs.length σ.done off 8 extraHl) :
    Yields (tailWord (.all xs) off i extraHl σ) (Held xs.length p l (max d (off + 8))
      (setLane h (mixTail (lane h i) (word64 (ofList xs) off)) i)) := by
  have hlane : σ.st.h i = val (lane h i) := by rw [hσ.lanes, bigLanes]
  have hstep := hσ.setLane i (mixTail (lane h i) (word64 (ofList xs) off))
  unfold tailWord
  rw [load64_big h0 h1, pure_bind, hlane, inj_big, pure_bind, add_big, K_big, mul_big]
  exact .pure ⟨hstep.lenmix, hstep.lanes, hσ.p, hσ.l, congrArg (max · (off + 8)) hσ.done,
    hσ.log.read _ _ h0 (by rw [hσ.done]; exact hoff) (by decide) h1 hextra⟩

/-! The lower lanes, one by one. -/

section Lower
variable (u : Lanes8) (y : Lanes4) (w : Word)

theorem lane_zero : lane (withLower u y) 0 = y.h0 := (rfl)
theorem lane_one : lane (withLower u y) 1 = y.h1 := (rfl)
theorem lane_two : lane (withLower u y) 2 = y.h2 := (rfl)
theorem lane_three : lane (withLower u y) 3 = y.h3 := (rfl)

theorem set_zero : setLane (withLower u y) w 0 = withLower u { y with h0 := w } := (rfl)
theorem set_one : setLane (withLower u y) w 1 = withLower u { y with h1 := w } := (rfl)
theorem set_two : setLane (withLower u y) w 2 = withLower u { y with h2 := w } := (rfl)
theorem set_three : setLane (withLower u y) w 3 = withLower u { y with h3 := w } := (rfl)

end Lower

theorem tailHead_held {u : Lanes8} {y : Lanes4} (hσ : Held xs.length p l p (withLower u y) σ)
    (h0 : 0 ≤ p) (hl : 0 ≤ l) (h32 : l < 32) (hpl : p + l = xs.length) :
    Yields (tailHead (.all xs) σ) fun τ =>
      ∃ d, Held xs.length p l d (withLower u (headStep (ofList xs) p l y)) τ ∧
        xs.length - 16 ≤ d ∧ d ≤ xs.length ∧ (l ≤ 0 → d = xs.length) := by
  unfold tailHead headStep
  rw [hσ.p, hσ.l]
  split_ifs with hgt
  · have hnext : max p (p + 8) = p + 8 := by omega
    have hfirst := tailWord_held hσ p h0 le_rfl (by omega) 0 (marks_nil hσ.done.le)
    rw [hnext, lane_zero, set_zero] at hfirst
    refine hfirst.bind fun τ hτ => ?_
    have hafter : max (p + 8) (p + 8 + 8) = p + 16 := by omega
    have hsecond := tailWord_held hτ (p + 8) (by omega) le_rfl (by omega) 1 (marks_nil hτ.done.le)
    rw [hafter, lane_one, set_one] at hsecond
    rw [hτ.p]
    exact hsecond.mono fun ρ hρ => ⟨p + 16, hρ, by omega, by omega, by omega⟩
  · exact .pure ⟨p, hσ, by omega, by omega, by omega⟩

theorem tail_held {u : Lanes8} {y : Lanes4} (hσ : Held xs.length p l p (withLower u y) σ)
    (h16 : 16 < xs.length) (h0 : 0 ≤ p) (hl : 0 ≤ l) (h32 : l < 32) (hpl : p + l = xs.length) :
    Yields (tail (.all xs) xs.length σ)
      (Held xs.length p l xs.length (withLower u (tailStep (ofList xs) p l y))) := by
  unfold tail tailStep lastStep
  refine (tailHead_held hσ h0 hl h32 hpl).bind ?_
  rintro τ ⟨d, hτ, hge, hle, hend⟩
  generalize headStep (ofList xs) p l y = z at hτ ⊢
  rw [hτ.l]
  split_ifs with hpos
  · have hnext : max d ((xs.length : ℤ) - 16 + 8) = max d (xs.length - 8) := by omega
    have hafter : max (max d ((xs.length : ℤ) - 8)) (xs.length - 8 + 8) = xs.length := by omega
    have hfirst := tailWord_held hτ (xs.length - 16) (by omega) hge (by omega) 2 (ovHl_marks _)
    rw [hnext, lane_two, set_two] at hfirst
    refine hfirst.bind fun ρ hρ => ?_
    have hlast :=
      tailWord_held hρ (xs.length - 8) (by omega) (le_max_right _ _) (by omega) 3 (ovHl_marks _)
    rw [hafter, lane_three, set_three] at hlast
    rw [hpl]
    exact hlast
  · rw [hend (by omega)] at hτ
    exact .pure hτ

/-! ### The lanes at first -/

theorem lowerInit_held {h : Lanes8} (hσ : Held n p l d h σ) (s : Word) :
    Yields (lowerInit (val s) σ) (Held n p l d (withLower h (C.Walk.iv4 s))) := by
  unfold lowerInit
  -- the lanes as variables, so that every replaced lane is computed once
  obtain ⟨h0, h1, h2, h3, h4, h5, h6, h7⟩ := h
  simp (disch := decide) only [K_big, bxor_val, rotl_big, shr_val, shl_big, add_big, pure_bind]
  have hlanes := (((hσ.setLane 0 (s ^^^ C.Primitives.K)).setLane 1
    (C.Primitives.rotl s 17 + (C.Primitives.K <<< 21))).setLane 2
    (C.Primitives.rotl s 34 ^^^ (C.Primitives.K >>> 13))).setLane 3
    (C.Primitives.rotl s 51 + (C.Primitives.K <<< 42))
  simp only [PortWalk.setLane] at hlanes
  exact .pure hlanes

theorem upperInit_held {h : Lanes8} {s : Word} (hσ : Held n p l d (withLower h (C.Walk.iv4 s)) σ)
    (bulk : Bool) : Yields (upperInit (val s) bulk σ)
      (Held n p l d (if bulk then C.Walk.iv8 s else withLower h (C.Walk.iv4 s))) := by
  unfold upperInit
  split_ifs
  · obtain ⟨h0, h1, h2, h3, h4, h5, h6, h7⟩ := h
    simp (disch := decide) only [K_big, bxor_val, rotl_big, shr_val, shl_big, add_big, pure_bind]
    have hlanes := (((hσ.setLane 4 (s + (C.Primitives.K >>> 27))).setLane 5
      (C.Primitives.rotl s 13 ^^^ (C.Primitives.K <<< 9))).setLane 6
      (C.Primitives.rotl s 26 + (C.Primitives.K >>> 40))).setLane 7
      (C.Primitives.rotl s 39 ^^^ (C.Primitives.K <<< 30))
    simp only [PortWalk.setLane, withLower, C.Walk.iv4] at hlanes
    exact .pure hlanes
  · exact .pure hσ

theorem laneInit_held {h : Lanes8} (hσ : Held n p l d h σ) (s : Word) (bulk : Bool) :
    Yields (laneInit (val s) bulk σ)
      (Held n p l d (if bulk then C.Walk.iv8 s else withLower h (C.Walk.iv4 s))) := by
  unfold laneInit
  refine (lowerInit_held hσ s).bind fun τ hτ => ?_
  refine (upperInit_held hτ bulk).bind fun ρ hρ => ?_
  exact .pure ⟨hρ.lenmix, hρ.lanes, hρ.p, hρ.l, hρ.done, push_log hρ.log⟩

/-! ### A long key -/

/-- **The bulk path.** What is left of the key is for the mid loop. -/
theorem bulkWalk_walked {u : Lanes8} {s : Word} {n : ℕ} (hn : n = xs.length) (bulk : Bool)
    (hbulk : bulk = decide ((n : ℤ) ≥ 320))
    (h : Walked n 0 n 0 (if bulk then C.Walk.iv8 s else withLower u (C.Walk.iv4 s), 0) σ) :
    Yields (bulkWalk (.all xs) n bulk σ) fun τ => ∃ (u : Lanes8) (y : Lanes4 × Word) (p l : ℕ),
      Walked n p l p (withLower u y.1, y.2) τ ∧ p + l = n ∧
        rounds (ofList xs) (l / 32) p y = walkState (ofList xs) n s ∧
        p + 32 * (l / 32) = 32 * (n / 32) ∧ l % 32 = n % 32 := by
  unfold bulkWalk walkState
  by_cases h320 : n < 320
  · have hfalse : bulk = false := by
      rw [hbulk]
      exact decide_eq_false (by omega)
    subst hfalse
    rw [if_pos h320]
    exact .pure ⟨u, (C.Walk.iv4 s, 0), 0, n, h, by omega, rfl, by omega, rfl⟩
  · have htrue : bulk = true := by
      rw [hbulk]
      exact decide_eq_true (by omega)
    subst htrue
    rw [if_neg h320]
    have hblock : Walked n 0 n 0 (C.Walk.iv8 s, 0) { σ with block := 0 } :=
      ⟨⟨h.lenmix, h.lanes, h.p, h.l, h.done, h.log⟩, h.wp, h.last⟩
    refine (bulkLoop_walked hn hblock).bind fun τ hτ => ?_
    refine (laneFold_walked hτ).mono fun ρ hρ => ?_
    exact ⟨_, (foldUpper (bulkState (ofList xs) n s).1, (bulkState (ofList xs) n s).2),
      64 * (n / 64), n % 64, hρ, by omega, rfl, by omega, by omega⟩

theorem finish_yields {u : Lanes8} {y : Lanes4} (hσ : Held n p l d (withLower u y) σ) (s : Word) :
    Yields (finish (val s) σ) fun τ => τ.st.x = val (C.Primitives.longFmix
        (s ^^^ foldT0 y (lenmix n) ^^^ C.Primitives.rotl (foldT1 y) 29) C.Primitives.K) ∧
      τ.st.hi = val (C.Primitives.fmix128 (C.Primitives.rotl s 32 ^^^
        (foldT1 y + C.Primitives.rotl (foldT0 y (lenmix n)) 47))) ∧
      τ.done = d ∧ Log n τ.steps τ.done := by
  have hlane : ∀ i, σ.st.h i = val (lane (withLower u y) i) := fun i => by rw [hσ.lanes, bigLanes]
  have h0 : (y.h0 ^^^ C.Primitives.rotl y.h1 13 ^^^ lenmix n) * C.Primitives.K =
    foldT0 y (lenmix n) := rfl
  have h1 : (y.h2 ^^^ C.Primitives.rotl y.h3 33) * C.Primitives.K = foldT1 y := rfl
  unfold finish
  simp (disch := decide) only [hlane, lane_zero, lane_one, lane_two, lane_three,
    hσ.lenmix, rotl_big, bxor_val, pure_bind, K_big, mul_big, add_big, xorshift_big, set_st, h0, h1]
  generalize foldT0 y (lenmix n) = t0, foldT1 y = t1
  refine (finishHigh_yields _ (set_log (set_log (set_log (set_log (set_log hσ.log)))))).bind ?_
  rintro τ ⟨-, hx, hhigh, hdone, hlog⟩
  exact .pure ⟨hx, hhigh, hdone.trans hσ.done, push_log hlog⟩

/-- No lane is set yet. -/
def noLanes : Lanes8 := ⟨0, 0, 0, 0, 0, 0, 0, 0⟩

theorem noLanes_big : (fun _ => 0) = bigLanes noLanes := by
  funext i
  fin_cases i <;> rfl

theorem buildLong_yields (h : Held xs.length 0 0 0 noLanes σ) (h16 : 16 < xs.length) (seed : Word)
    (bulk : Bool) (hbulk : bulk = decide ((xs.length : ℤ) ≥ 320)) :
    Yields (buildLong (.all xs) xs.length (val (seed ^^^ C.Primitives.K)) bulk σ) fun τ =>
        τ.st.x = val (compact64 (ofList xs) xs.length seed) ∧
          τ.st.hi = val (compactHi (ofList xs) xs.length seed) ∧
          τ.done = xs.length ∧ Log xs.length τ.steps τ.done := by
  have h64 : compact64 (ofList xs) xs.length seed = long64 _ _ _ := if_neg (by omega)
  have hhi : compactHi (ofList xs) xs.length seed = longHi _ _ _ := if_neg (by omega)
  rw [h64, hhi]
  unfold buildLong
  refine (laneInit_held h (seed ^^^ C.Primitives.K) _).bind fun τ hτ => ?_
  have hzero : (0 : ℤ) = val (0 : Word) := rfl
  have hstart : Walked xs.length 0 xs.length 0 (if bulk then C.Walk.iv8 (seed ^^^ C.Primitives.K)
      else withLower noLanes (C.Walk.iv4 (seed ^^^ C.Primitives.K)), 0)
      { τ with wp := 0, wpOff := -1, p := 0, l := xs.length, stripeNo := 0 } :=
    ⟨⟨hτ.lenmix, hτ.lanes, rfl, rfl, hτ.done, hτ.log⟩, hzero, .inl ⟨rfl, rfl, rfl⟩⟩
  refine (bulkWalk_walked rfl bulk hbulk hstart).bind ?_
  rintro τ ⟨u, y, p, l, hτ, hpl, hrounds, hpos, hleft⟩
  refine (midLoop_walked (by omega) hτ hpl).bind fun τ hτ => ?_
  rw [hrounds, hpos, hleft] at hτ
  refine (wall_walked hτ).bind fun τ hτ => ?_
  refine (tail_held hτ h16 (by omega) (by omega) (by omega) (by omega)).bind fun τ hτ => ?_
  exact finish_yields hτ _

end Long

/-- **`buildSteps`**: the digests are the reference's, and the steps show what they should. -/
theorem buildSteps_yields (xs : List Byte) (seedIn : ℤ) :
    Yields (buildSteps (.all xs) seedIn) fun r =>
      r.digest = val (compact64 (ofList xs) xs.length (.ofInt 64 seedIn)) ∧
        r.lo = val (compact64 (ofList xs) xs.length (.ofInt 64 seedIn)) ∧
        r.hi = val (compactHi (ofList xs) xs.length (.ofInt 64 seedIn)) ∧
        Log xs.length r.steps xs.length := by
  have hlen : (View.all xs).len = xs.length := rfl
  unfold buildSteps
  dsimp only
  rw [hlen, lenmix_big, mask_eq, K_big, bxor_val, pure_bind]
  by_cases h16 : (xs.length : ℤ) ≤ 16
  · rw [if_pos h16]
    refine (buildShort_yields (log_first _ _) rfl (by omega) (.ofInt 64 seedIn)).bind ?_
    rintro τ ⟨hm, hhi, hdone, hlog⟩
    rw [hdone] at hlog
    exact .pure ⟨hm, hm, hhi, hlog⟩
  · rw [if_neg h16]
    refine (buildLong_yields ⟨rfl, noLanes_big, rfl, rfl, rfl, log_first _ _⟩ (by omega)
      (.ofInt 64 seedIn) _ rfl).bind ?_
    rintro τ ⟨hx, hhi, hdone, hlog⟩
    rw [hdone] at hlog
    exact .pure ⟨hx, hx, hhi, hlog⟩

end Hayahash.Refine.Sim
