import Hayahash.Refine.Args

/-! # The arguments of `hayasum`

* **`parse_u64`**: the seed parser accepts its numerals, and nothing else.
* **`options`**: the spellings of an option are interchangeable; a run has the last settings and the
  operands behind the option section; the buffer for a diagnostic makes no difference.
* **`diagnostics`**: what is in that buffer is safe to print, whatever the arguments. -/

namespace Hayahash.Main.Arguments

open Hayahash.Lib.Bytes (Byte)
open Hayahash.Lib.Libc Hayahash.C.Primitives Hayahash.Cli.Output Hayahash.Cli.Args
open Hayahash.Spec.Number Hayahash.Spec.Options Hayahash.Refine.Number Hayahash.Refine.Quote
open Hayahash.Refine.Args

/-! ### Numbers -/

/-- **`hayasum_parse_u64`** returns 1 exactly if the string is a numeral of a number below `2^64`,
and then gives it in `*out`; otherwise it returns 0, and `*out` is as it was. -/
theorem parse_u64 (s : CString) (out : Word) :
    ∃ ret out', parseU64 s.memory out = some (ret, out') ∧
      (ret = 1 ↔ ∃ n < 2 ^ 64, Numeral s.bytes n) ∧
      (∀ n < 2 ^ 64, Numeral s.bytes n → out'.toNat = n) ∧
      (ret ≠ 1 → ret = 0 ∧ out' = out) := by
  obtain ⟨⟨ret, out'⟩, hr, haccepts⟩ := parseU64_accepts s.noNul out
  refine ⟨ret, out', hr, ?_⟩
  rcases haccepts with ⟨n, hlt, hn, heq⟩ | ⟨hnone, heq⟩
  · obtain ⟨rfl, rfl⟩ := Prod.mk.inj heq
    refine ⟨⟨fun _ => ⟨n, hlt, hn⟩, fun _ => rfl⟩, fun m hm hnum => ?_, fun h => absurd rfl h⟩
    rw [hnum.unique hn, BitVec.toNat_ofNat, Nat.mod_eq_of_lt hlt]
  · obtain ⟨rfl, rfl⟩ := Prod.mk.inj heq
    exact ⟨⟨fun h => absurd h (by decide), fun h => absurd h hnone⟩,
      fun n hlt hn => absurd ⟨n, hlt, hn⟩ hnone, fun _ => ⟨rfl, rfl⟩⟩

/-! ### Options -/

/-- A buffer, of which a function is given the first `size` bytes. -/
structure Buffer where
  bytes : List Byte
  size : ℕ
  le : size ≤ bytes.length

variable {tok : Tok} {argv : List (Option CString)} {B : Buffer}

/-- The parser is the same but for what it says: status, settings and diagnostic, and the operands
of a run. -/
structure Alike (argv argv' : List (Option CString)) (p p' : Parsed) : Prop where
  status : p.status = p'.status
  seed : p.opts.seed = p'.opts.seed
  bits : p.opts.bits = p'.opts.bits
  err : p.err = p'.err
  operands : p.status = .run → argv.drop p.opts.first = argv'.drop p'.opts.first

/-- A run has the last settings of its option section, and the operands behind it. -/
structure Ran (argv : List (Option CString)) (o : Opts) : Prop where
  bits : o.bits = 64 ∨ o.bits = 128
  read : ∃ ss operands, Section (argv.drop 1) ss operands ∧ o.seed = lastSeed 0 ss ∧
    o.bits = (lastBits .b64 ss).toInt ∧ argv.drop o.first = operands ∧
      o.first + operands.length = argv.length

/-- **Spellings are interchangeable**, behind valid settings. -/
theorem spelled_alike (tok : Tok) (name : Option CString) {pre toks toks' : List (Option CString)}
    (rest : List (Option CString)) {ss : List Setting} (hpre : Settings pre ss) {opt : Opt}
    {v : CString} (h : Spelled opt v toks) (h' : Spelled opt v toks') (B : Buffer) : ∃ p p',
      parseArgs tok B.size (name :: (pre ++ (toks ++ rest))) B.bytes = some p ∧
      parseArgs tok B.size (name :: (pre ++ (toks' ++ rest))) B.bytes = some p' ∧
      Alike (name :: (pre ++ (toks ++ rest))) (name :: (pre ++ (toks' ++ rest))) p p' := by
  obtain ⟨seed, bits, hloop⟩ := parseLoop_settings tok hpre 0 64
  have hparse : ∀ {args}, parseArgs tok B.size (name :: (pre ++ args)) B.bytes =
      parseLoop tok B.size args (1 + pre.length) ⟨seed, bits, 1⟩ (cleared B.bytes B.size) := by
    intro args
    rw [parseArgs_eq B.le]
    exact hloop B.size 1 1 _ args
  have hclear : B.size ≤ (cleared B.bytes B.size).length := (length_printed B.le []).symm ▸ B.le
  simp only [hparse]
  rw [parseLoop_spelled h, parseLoop_spelled h', CString.memory]
  rcases apply_cases opt v.noNul with ⟨x, -, happly⟩ | ⟨-, m, hm, happly⟩
  · obtain ⟨seed', bits', hset⟩ := set_eq seed bits x
    obtain ⟨a, -, ha⟩ := parseLoop_answers tok _ rest rfl seed' bits'
    rw [happly, happly, hset, ha _ _ _ _ hclear, ha _ _ _ _ hclear]
    refine ⟨_, _, rfl, rfl, rfl, rfl, rfl, rfl, fun hrun => ?_⟩
    have hrun : a.status = .run := hrun
    have hdrop : ∀ toks : List (Option CString), (name :: (pre ++ (toks ++ rest))).drop
        (1 + pre.length + toks.length + a.taken) = rest.drop a.taken := by
      intro toks
      rw [Nat.add_assoc, Nat.add_assoc, Nat.add_comm 1, List.drop_succ_cons,
        List.drop_length_add_append, List.drop_length_add_append]
    simp only [Answer.parsed, if_pos hrun]
    rw [hdrop toks, hdrop toks']
  · obtain ⟨a, hstatus, ha⟩ := usage_eq hm seed bits
    rw [happly, happly, ha _ _ 0 _ hclear]
    refine ⟨_, _, rfl, rfl, rfl, rfl, rfl, rfl, fun hrun => ?_⟩
    have hrun : a.status = .run := hrun
    rw [hstatus] at hrun
    cases hrun

/-- The operands begin where the option section ends, counted from the name of the program. -/
theorem drop_front {front operands : List (Option CString)} (h : argv.drop 1 = front ++ operands) :
    argv.drop ((if argv.length > 0 then 1 else 0) + front.length) = operands ∧
      (if argv.length > 0 then 1 else 0) + front.length + operands.length = argv.length := by
  cases argv with
  | nil =>
    obtain ⟨rfl, rfl⟩ := List.append_eq_nil_iff.mp h.symm
    exact ⟨rfl, rfl⟩
  | cons name args =>
    rw [List.drop_succ_cons, List.drop_zero] at h
    rw [if_pos (by rw [List.length_cons]; omega), h, Nat.add_comm 1, List.drop_succ_cons,
      List.drop_left, List.length_cons, List.length_append]
    exact ⟨rfl, by omega⟩

/-- **A run**: the section that is read is one, and what is set is its last. -/
theorem parseArgs_ran (tok : Tok) (argv : List (Option CString)) (B : Buffer) :
    ∃ p, parseArgs tok B.size argv B.bytes = some p ∧ (p.status = .run → Ran argv p.opts) := by
  obtain ⟨a, hexplains, first, ha⟩ := parseArgs_answers tok argv
  refine ⟨_, ha _ _ B.le, fun hrun => ?_⟩
  obtain ⟨ss, hss⟩ := hexplains.1 hrun
  have hparse := ha _ _ B.le
  rw [parseArgs_eq B.le] at hparse
  obtain ⟨front, hfront, hloop⟩ := parseLoop_section tok B.size hss 0 .b64
    (if argv.length > 0 then 1 else 0) (if argv.length > 0 then 1 else 0) (cleared B.bytes B.size)
  rw [← Option.some.inj (hloop.symm.trans hparse)]
  refine ⟨?_, ss, _, hss, rfl, rfl, drop_front hfront⟩
  cases lastBits .b64 ss
  · exact .inl rfl
  · exact .inr rfl

/-- **`hayasum_parse_args`**, on all arguments:

* behind valid settings, the spellings of an option and its value are interchangeable;
* a run has the last setting of the seed and of the width, and the operands behind the option
  section;
* status and settings are the same for every buffer, and a buffer of no bytes is left as it was. -/
theorem options (tok : Tok) :
    (∀ (name : Option CString) (pre toks toks' rest : List (Option CString)) (ss : List Setting)
    (opt : Opt) (v : CString) (B : Buffer), Settings pre ss → Spelled opt v toks →
    Spelled opt v toks' → ∃ p p',
        parseArgs tok B.size (name :: (pre ++ (toks ++ rest))) B.bytes = some p ∧
        parseArgs tok B.size (name :: (pre ++ (toks' ++ rest))) B.bytes = some p' ∧
        Alike (name :: (pre ++ (toks ++ rest))) (name :: (pre ++ (toks' ++ rest))) p p') ∧
    (∀ (argv : List (Option CString)) (B : Buffer), ∃ p,
      parseArgs tok B.size argv B.bytes = some p ∧
      (p.status = .run → Ran argv p.opts)) ∧
    (∀ (argv : List (Option CString)) (B B' : Buffer), ∃ p p',
      parseArgs tok B.size argv B.bytes = some p ∧ parseArgs tok B'.size argv B'.bytes = some p' ∧
      p.status = p'.status ∧ p.opts = p'.opts ∧ (B.size = 0 → p.err = B.bytes)) := by
  refine ⟨?_, parseArgs_ran tok, ?_⟩
  · exact fun name pre toks toks' rest ss opt v B hpre h h' =>
      spelled_alike tok name rest hpre h h' B
  · intro argv B B'
    obtain ⟨a, -, first, ha⟩ := parseArgs_answers tok argv
    refine ⟨_, _, ha _ _ B.le, ha _ _ B'.le, rfl, rfl, fun hzero => ?_⟩
    have hnothing : ∀ m, printed B.bytes B.size m = B.bytes := fun m => if_pos hzero
    rw [Answer.parsed, Answer.print, cleared, hnothing]
    cases a.msg with
    | none => rfl
    | some m => exact hnothing m

theorem nul_not_mem (s : List Byte) : 0 ∉ s.takeWhile (· != 0) := by
  intro h
  have hne := List.all_eq_true.mp List.all_takeWhile 0 h
  simp at hne

/-- An argument, up to its NUL. -/
def arg (s : String) : CString := ⟨(text s).takeWhile (· != 0), nul_not_mem _⟩

/-- `hayasum -b 128 ARGS f`. -/
def wide (args : List (Option CString)) : List (Option CString) :=
  some (arg "hayasum") :: ([some (arg "-b"), some (arg "128")] ++ (args ++ [some (arg "f")]))

theorem length_tok : (List.replicate 65 (0 : Byte)).length = TOKMAX + 1 := List.length_replicate

theorem length_err : (List.replicate 256 (0 : Byte)).length = 256 := List.length_replicate

/-- Behind `-b 128`, one can set the seed by `-s 7` and by `--seed=7`. -/
theorem options_seed : ∃ p p',
    parseArgs ⟨_, length_tok⟩ 256 (wide [some (arg "-s"), some (arg "7")])
      (List.replicate 256 0) = some p ∧
    parseArgs ⟨_, length_tok⟩ 256 (wide [some (arg "--seed=7")]) (List.replicate 256 0) = some p' ∧
    p.status = .run ∧ p'.status = .run ∧ p.opts.seed = 7 ∧ p'.opts.seed = 7 ∧
    p.opts.bits = 128 ∧ p'.opts.bits = 128 ∧
    (wide [some (arg "-s"), some (arg "7")]).drop p.opts.first = [some (arg "f")] ∧
    (wide [some (arg "--seed=7")]).drop p'.opts.first = [some (arg "f")] := by
  have hbits : Settings [some (arg "-b"), some (arg "128")] [.bits .b128] :=
    .cons (v := arg "128") (.bits .b128) (.apart rfl) .nil
  obtain ⟨p, p', hp, hp', hstatus, hseed, hwidth, -, hoperands⟩ := (options ⟨_, length_tok⟩).1
    (some (arg "hayasum")) _ [some (arg "-s"), some (arg "7")] [some (arg "--seed=7")]
    [some (arg "f")] _ .seed (arg "7") ⟨_, 256, length_err.ge⟩ hbits (.apart rfl) (.equals rfl)
  have hread : (parseArgs ⟨_, length_tok⟩ 256 (wide [some (arg "-s"), some (arg "7")])
      (List.replicate 256 0)).map (fun p => (p.status, p.opts.seed, p.opts.bits, p.opts.first)) =
      some (.run, 7, 128, 5) := by decide +kernel
  have hparse : parseArgs ⟨_, length_tok⟩ 256 (wide [some (arg "-s"), some (arg "7")])
    (List.replicate 256 0) = some p := hp
  rw [hparse, Option.map_some, Option.some.injEq, Prod.mk.injEq, Prod.mk.injEq,
    Prod.mk.injEq] at hread
  obtain ⟨hrun, hx, hb, hfirst⟩ := hread
  have hdrop : (wide [some (arg "-s"), some (arg "7")]).drop p.opts.first = [some (arg "f")] := by
    rw [hfirst]
    rfl
  exact ⟨p, p', hp, hp', hrun, hstatus ▸ hrun, hx, hseed ▸ hx, hb, hwidth ▸ hb, hdrop,
    (hoperands hrun).symm.trans hdrop⟩

/-! ### Diagnostics -/

/-- A message in a buffer: it ends there, it is printable, and as much of it is there as there is
room for. -/
structure Printed (size : ℕ) (err m : List Byte) : Prop where
  read : ∃ t, cstr (err.take size) = some t ∧ Printable t ∧ t = m.take (size - 1) ∧
    (2 ≤ size → t ≠ []) ∧ (256 ≤ size → t = m)

/-- What `hayasum_quote` shows of a string, in a buffer with room for `cap` characters. -/
structure Shows (cap : ℕ) (s q : List Byte) : Prop where
  le : q.length ≤ cap
  printable : Printable q
  fits : s.length ≤ cap → q = s.map fun c => if 0x20 ≤ c ∧ c ≤ 0x7e then c else char '?'
  dots : cap < s.length → 3 ≤ cap → ∃ front, q = front ++ text "..."

theorem shows_echo (cap : ℕ) (s : List Byte) : Shows cap s (echo cap s) where
  le := length_echo_le cap s
  printable := printable_echo cap s
  fits h := by
    have hshown : ∀ c : Byte, shown c = if 0x20 ≤ c ∧ c ≤ 0x7e then c
      else char '?' := by decide +kernel
    rw [echo, if_pos h]
    exact List.map_congr_left fun c _ => hshown c
  dots hlong hcap := ⟨_, by rw [echo, if_neg (by omega), if_pos hcap]⟩

/-- **What is printed is safe**, whatever the arguments and the buffer: only the buffer is written;
on a usage error there is a message in it, the same for every buffer, as much of it as there is room
for; and otherwise the empty string. The quoter shows every string in every buffer, and writes
nothing else. -/
theorem diagnostics :
    (∀ (tok : Tok) (argv : List (Option CString)), ∃ status m, ∀ B : Buffer, ∃ p,
      parseArgs tok B.size argv B.bytes = some p ∧ p.status = status ∧
      p.err.length = B.bytes.length ∧ p.err.drop B.size = B.bytes.drop B.size ∧
      (1 ≤ B.size → status = .usageError → Printed B.size p.err m) ∧
      (1 ≤ B.size → status ≠ .usageError → cstr (p.err.take B.size) = some [])) ∧
    (∀ (src : CString) (B : Buffer), ∃ dst, quote B.bytes B.size src.memory = some dst ∧
      dst.length = B.bytes.length ∧ dst.drop B.size = B.bytes.drop B.size ∧
      (1 ≤ B.size → ∃ q, cstr (dst.take B.size) = some q ∧
        Shows (min (B.size - 1) 64) src.bytes q)) := by
  refine ⟨fun tok argv => ?_, fun src B => ?_⟩
  · obtain ⟨a, -, first, ha⟩ := parseArgs_answers tok argv
    refine ⟨a.status, a.msg.getD [], fun B => ⟨_, ha _ _ B.le, rfl, ?_⟩⟩
    have hclear : (cleared B.bytes B.size).length = B.bytes.length := length_printed B.le []
    have hle : B.size ≤ (cleared B.bytes B.size).length := hclear.symm ▸ B.le
    cases hmsg : a.msg with
    | none =>
      have hquiet : a.status ≠ .usageError := fun h => by
        have hsome := a.usage.mp h
        rw [hmsg] at hsome
        cases hsome
      have hprint : (a.parsed first first (cleared B.bytes B.size) B.size).err =
        cleared B.bytes B.size := by
        rw [Answer.parsed, Answer.print, hmsg]
      rw [hprint]
      refine ⟨hclear, drop_printed _ _ _, fun _ h => absurd h hquiet, fun hpos _ => ?_⟩
      exact (cstr_printed hpos B.bytes (List.not_mem_nil)).trans (by rw [List.take_nil])
    | some m =>
      have hm := a.message m hmsg
      have hprint : (a.parsed first first (cleared B.bytes B.size) B.size).err =
          printed (cleared B.bytes B.size) B.size m := by
        rw [Answer.parsed, Answer.print, hmsg]
      rw [hprint]
      refine ⟨(length_printed hle m).trans hclear, (drop_printed _ _ m).trans (drop_printed _ _ _),
        fun hpos _ => ⟨_, cstr_printed hpos _ hm.printable.noNul, hm.printable.take _, rfl, ?_, ?_⟩,
        fun _ h => absurd (a.usage.mpr (by rw [hmsg]; rfl)) h⟩
      · intro htwo hnil
        rcases List.take_eq_nil_iff.mp hnil with hzero | hnil
        · omega
        · exact hm.ne_nil hnil
      · intro hroom
        have hlt := hm.lt
        exact List.take_of_length_le (by omega)
  · by_cases hpos : B.size = 0
    · refine ⟨B.bytes, by rw [quote, if_pos hpos]; rfl, rfl, rfl, fun h => absurd hpos (by omega)⟩
    · have hquote := quote_eq (r := []) (Nat.pos_of_ne_zero hpos) B.le src.noNul
      have hlen := length_echo_le (room B.size) src.bytes
      have hroom : room B.size = min (B.size - 1) 64 := rfl
      have hle := B.le
      exact ⟨_, hquote, length_terminated (by omega), drop_terminated (by omega) _, fun _ =>
        ⟨_, cstr_take (printable_echo _ _).noNul (by omega), shows_echo _ _⟩⟩

end Hayahash.Main.Arguments
