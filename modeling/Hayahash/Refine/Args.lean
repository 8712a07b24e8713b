import Hayahash.Refine.Number
import Hayahash.Refine.Quote
import Hayahash.Spec.Options

/-! # The parser of the arguments, token by token

* `apply_reads`, `apply_refuses`: an option with a valid value, and with another.
* `parseLoop_spelled`, `parseLoop_asked`: all spellings of an option with its value are one step,
  and all of a request.
* `turn`: what an iteration can do; each way is a constructor of `Turn`. -/

namespace Hayahash.Refine.Args

open Hayahash.Lib.Bytes (Byte)
open Hayahash.Lib.Libc Hayahash.C.Primitives Hayahash.Cli.Output Hayahash.Cli.Args
open Hayahash.Spec.Number Hayahash.Spec.Options Hayahash.Refine.Number Hayahash.Refine.Quote

variable {tok : Tok} {errsz i : ℕ} {o : Opts} {err m s r : List Byte} {opt : Opt} {v : CString}
variable {toks args rest : List (Option CString)} {q : Request}

/-! ### Messages -/

/-- A text for a diagnostic: printable, and never too long for the buffer of `main`. -/
structure Message (m : List Byte) : Prop where
  ne_nil : m ≠ []
  lt : m.length < 256
  printable : Printable m

theorem quoted_eq (tok : Tok) (hs : 0 ∉ s) : quoted tok (s ++ 0 :: r) = some (echo TOKMAX s) := by
  have hroom : room (TOKMAX + 1) = TOKMAX := rfl
  have hquote := quote_eq (r := r) (Nat.succ_pos TOKMAX) tok.length.ge hs
  rw [hroom] at hquote
  rw [quoted, hquote]
  exact cstr_eq (printable_echo TOKMAX s).noNul

theorem message_echo (front behind : List Byte) (hf : Printable front) (hne : front ≠ [])
    (hb : Printable behind) (hlen : front.length + TOKMAX + behind.length < 256) (s : List Byte) :
    Message (front ++ echo TOKMAX s ++ behind) where
  ne_nil h := hne (List.append_eq_nil_iff.mp (List.append_eq_nil_iff.mp h).1).1
  lt := by
    have hecho := length_echo_le TOKMAX s
    rw [List.length_append, List.length_append]
    omega
  printable := (hf.append (printable_echo TOKMAX s)).append hb

instance (m : List Byte) : Decidable (Message m) :=
  decidable_of_iff (m ≠ [] ∧ m.length < 256 ∧ Printable m)
    ⟨fun ⟨h1, h2, h3⟩ => ⟨h1, h2, h3⟩, fun h => ⟨h.ne_nil, h.lt, h.printable⟩⟩

/-! ### Values -/

/-- A setting, set. -/
def set (o : Opts) : Setting → Opts
  | .seed x => { o with seed := x }
  | .bits b => { o with bits := b.toInt }

theorem setOption_seed {v : List Byte} (hv : 0 ∉ v) :
    (∃ n < 2 ^ 64, Numeral v n ∧ ∀ tok errsz (o : Opts) err,
      setOption tok (char 's') (v ++ [0]) o err errsz =
        some ⟨1, { o with seed := .ofNat 64 n }, err⟩) ∨
    (¬∃ n < 2 ^ 64, Numeral v n) ∧ ∀ tok errsz (o : Opts) err,
      setOption tok (char 's') (v ++ [0]) o err errsz =
        (snprintf err errsz (text "invalid seed '" ++ echo TOKMAX v ++
          text "': expected a decimal or 0x-hex value below 2^64")).map (⟨0, o, ·⟩) := by
  by_cases hnum : ∃ n < 2 ^ 64, Numeral v n
  · obtain ⟨n, hlt, hn⟩ := hnum
    refine .inl ⟨n, hlt, hn, fun tok errsz o err => ?_⟩
    obtain ⟨r, hparse, ⟨m, -, hm, rfl⟩ | ⟨hnone, -⟩⟩ := parseU64_accepts hv o.seed
    · rw [setOption, if_pos rfl, hparse, hm.unique hn]
      rfl
    · exact absurd ⟨n, hlt, hn⟩ hnone
  · refine .inr ⟨hnum, fun tok errsz o err => ?_⟩
    obtain ⟨r, hparse, ⟨m, hlt, hm, -⟩ | ⟨-, rfl⟩⟩ := parseU64_accepts hv o.seed
    · exact absurd ⟨m, hlt, hm⟩ hnum
    · rw [setOption, if_pos rfl, hparse, quoted_eq tok hv]
      simp only [Option.bind_eq_bind, Option.bind_some, if_neg (not_not_intro (rfl : (0 : ℤ) = 0))]
      cases snprintf err errsz _ <;> rfl

theorem setOption_bits {v : List Byte} (hv : 0 ∉ v) :
    (∃ b : Bits, v = width b ∧ ∀ tok errsz (o : Opts) err,
      setOption tok (char 'b') (v ++ [0]) o err errsz = some ⟨1, { o with bits := b.toInt }, err⟩) ∨
    (∀ b : Bits, v ≠ width b) ∧ ∀ tok errsz (o : Opts) err,
      setOption tok (char 'b') (v ++ [0]) o err errsz =
        (snprintf err errsz (text "invalid width '" ++ echo TOKMAX v ++
          text "': expected 64 or 128")).map (⟨0, o, ·⟩) := by
  have h64 : strcmp (v ++ [0]) (text "64" ++ [0]) = _ := strcmp_eq hv (by decide)
  have h128 : strcmp (v ++ [0]) (text "128" ++ [0]) = _ := strcmp_eq hv (by decide)
  have hopt : ¬char 'b' = char 's' := by decide
  by_cases hv64 : v = text "64"
  · refine .inl ⟨.b64, hv64, fun tok errsz o err => ?_⟩
    rw [setOption, if_neg hopt, h64, decide_eq_true hv64]
    rfl
  by_cases hv128 : v = text "128"
  · refine .inl ⟨.b128, hv128, fun tok errsz o err => ?_⟩
    rw [setOption, if_neg hopt, h64, decide_eq_false hv64, h128, decide_eq_true hv128]
    rfl
  · refine .inr ⟨fun b => ?_, fun tok errsz o err => ?_⟩
    · cases b with
      | b64 => exact hv64
      | b128 => exact hv128
    · rw [setOption, if_neg hopt, h64, decide_eq_false hv64, h128, decide_eq_false hv128,
        quoted_eq tok hv]
      simp only [Option.bind_eq_bind, Option.bind_some, if_neg Bool.false_ne_true]
      cases snprintf err errsz _ <;> rfl

theorem set_eq (seed : Word) (bits : ℤ) (x : Setting) :
    ∃ seed' bits', ∀ first, set ⟨seed, bits, first⟩ x = ⟨seed', bits', first⟩ := by
  cases x
  · exact ⟨_, _, fun _ => rfl⟩
  · exact ⟨_, _, fun _ => rfl⟩

/-- **What an option does with a value**: it is set and the loop goes on, or it is refused with a
diagnostic. -/
theorem apply_cases (opt : Opt) {v : List Byte} (hv : 0 ∉ v) :
    (∃ x, Reads opt v x ∧ ∀ tok errsz o err next,
      apply tok errsz opt.letter (v ++ [0]) o err next = next (set o x) err) ∨
    (∀ x, ¬Reads opt v x) ∧ ∃ m, Message m ∧ ∀ tok errsz o err next,
      apply tok errsz opt.letter (v ++ [0]) o err next = usage errsz o err m := by
  cases opt with
  | seed =>
    rcases setOption_seed hv with ⟨n, hlt, hn, hset⟩ | ⟨hnone, hset⟩
    · refine .inl ⟨_, .seed hlt hn, fun tok errsz o err next => ?_⟩
      rw [apply, Opt.letter, hset]
      rfl
    · refine .inr ⟨fun x hx => ?_, _, message_echo (text "invalid seed '")
        (text "': expected a decimal or 0x-hex value below 2^64") (by decide) (by decide)
        (by decide) (by decide) v, fun tok errsz o err next => ?_⟩
      · cases hx with
        | seed hlt hn => exact hnone ⟨_, hlt, hn⟩
      · rw [apply, Opt.letter, hset, usage]
        cases snprintf err errsz _ <;> rfl
  | bits =>
    rcases setOption_bits hv with ⟨b, rfl, hset⟩ | ⟨hnone, hset⟩
    · refine .inl ⟨_, .bits b, fun tok errsz o err next => ?_⟩
      rw [apply, Opt.letter, hset]
      rfl
    · refine .inr
        ⟨fun x hx => ?_, _, message_echo (text "invalid width '") (text "': expected 64 or 128")
        (by decide) (by decide) (by decide) (by decide) v, fun tok errsz o err next => ?_⟩
      · cases hx with
        | bits b => exact hnone b rfl
      · rw [apply, Opt.letter, hset, usage]
        cases snprintf err errsz _ <;> rfl

/-! ### Tokens -/

/-- The option of a name. -/
def optOf (w : List Byte) : Byte :=
  if w = text "help" then char 'h' else if w = text "version" then char 'V'
  else if w = text "seed" then char 's' else if w = text "bits" then char 'b' else 0

theorem isName_eq {w q t : List Byte} {n : ℕ} (ht : t.length = n) :
    isName (w ++ q) w.length t n = some (decide (w = t)) := by
  rw [isName]
  split_ifs with hn
  · exact memcmp_eq hn ht
  · have hne : w ≠ t := fun h => hn (h ▸ ht)
    rw [decide_eq_false hne]

theorem optCode_eq (w q : List Byte) : optCode (w ++ q) w.length = some (optOf w) := by
  have hhelp := isName_eq (w := w) (q := q) (t := text "help") (n := 4) rfl
  have hversion := isName_eq (w := w) (q := q) (t := text "version") (n := 7) rfl
  have hseed := isName_eq (w := w) (q := q) (t := text "seed") (n := 4) rfl
  have hbits := isName_eq (w := w) (q := q) (t := text "bits") (n := 4) rfl
  rw [optCode, optOf]
  simp only [hhelp, hversion, hseed, hbits, Option.bind_eq_bind, Option.bind_some,
    decide_eq_true_eq]
  split_ifs <;> rfl

theorem longOption_bare {w : List Byte} (h0 : 0 ∉ w) (heq : char '=' ∉ w) :
    longOption (w ++ [0]) = some (optOf w, none) := by
  rw [longOption, strchr_eq_none h0 (by decide) heq]
  simp only [Option.bind_eq_bind, Option.bind_some, strlen_eq h0, optCode_eq]
  rfl

theorem longOption_equals {w : List Byte} (h0 : 0 ∉ w) (heq : char '=' ∉ w) (r : List Byte) :
    longOption (w ++ char '=' :: r) = some (optOf w, some (char '=' :: r)) := by
  have hlen : (w ++ char '=' :: r).length - (char '=' :: r).length = w.length := by
    rw [List.length_append]
    omega
  rw [longOption, strchr_eq_some h0 heq]
  simp only [Option.bind_eq_bind, Option.bind_some, hlen, optCode_eq]
  rfl

theorem optOf_name (opt : Opt) : optOf opt.name = opt.letter := by cases opt <;> decide

/-! ### The iterations -/

theorem memory_dashed {a : CString} {c : Byte} {t : List Byte} (ha : a.bytes = char '-' :: c :: t) :
    a.memory[0]? = some (char '-') ∧ a.memory[1]? = some c ∧ a.memory[2]? = some (t.headD 0) ∧
      a.memory.drop 2 = t ++ [0] ∧ c ≠ 0 ∧ 0 ∉ t := by
  have hnul := a.noNul
  rw [ha] at hnul
  obtain ⟨hc, ht⟩ := not_mem_cons (not_mem_cons hnul).2
  rw [CString.memory, ha]
  refine ⟨rfl, rfl, ?_, rfl, hc, ht⟩
  cases t <;> rfl

theorem parseLoop_operand {a : Option CString} (ha : ∀ s ∈ a, ¬Dashed s) :
    parseLoop tok errsz (a :: rest) i o err = some ⟨.run, { o with first := i }, err⟩ := by
  cases a with
  | none => rfl
  | some a =>
    have hnot := ha a rfl
    rw [parseLoop]
    cases hbytes : a.bytes with
    | nil =>
      have h0 : a.memory[0]? = some 0 := by rw [CString.memory, hbytes]; rfl
      simp only [h0, Option.bind_eq_bind, Option.bind_some]
      rfl
    | cons c t =>
      have h0 : a.memory[0]? = some c := by rw [CString.memory, hbytes]; rfl
      simp only [h0, Option.bind_eq_bind, Option.bind_some]
      by_cases hc : c = char '-'
      · rw [if_neg (not_not_intro hc)]
        cases t with
        | nil =>
          have h1 : a.memory[1]? = some 0 := by rw [CString.memory, hbytes]; rfl
          simp only [h1, Option.bind_some]
          rfl
        | cons d t => exact absurd ⟨d, t, hc ▸ hbytes⟩ hnot
      · rw [if_pos hc]
        rfl

theorem parseLoop_dashes {a : CString} (ha : a.bytes = text "--") :
    parseLoop tok errsz (some a :: rest) i o err = some ⟨.run, { o with first := i + 1 }, err⟩ := by
  obtain ⟨h0, h1, h2, -⟩ := memory_dashed (t := []) ha
  rw [parseLoop]
  simp only [h0, h1, h2, Option.bind_eq_bind, Option.bind_some]
  rfl

theorem letter_ne (opt : Opt) : opt.letter ≠ 0 ∧ opt.letter ≠ char '-' ∧ opt.letter ≠ char 'h' ∧
    opt.letter ≠ char 'V' ∧ ¬(opt.letter ≠ char 's' ∧ opt.letter ≠ char 'b') := by
  cases opt <;> decide

theorem name_ne (opt : Opt) : 0 ∉ opt.name ∧ char '=' ∉ opt.name := by cases opt <;> decide

/-- **An option with its value**, in any spelling. -/
theorem parseLoop_spelled (h : Spelled opt v toks) :
    parseLoop tok errsz (toks ++ rest) i o err = apply tok errsz opt.letter v.memory o err
      fun o err => parseLoop tok errsz rest (i + toks.length) o err := by
  obtain ⟨hnul, hdash, hh, hV, hsb⟩ := letter_ne opt
  have hhV : ¬(opt.letter = char 'h' ∨ opt.letter = char 'V') := not_or.mpr ⟨hh, hV⟩
  cases h with
  | apart ha =>
    obtain ⟨h0, h1, h2, -⟩ := memory_dashed ha
    rw [List.cons_append, List.cons_append, List.nil_append, parseLoop]
    simp only [h0, h1, h2, Option.bind_eq_bind, Option.bind_some, if_neg hnul, if_neg hdash,
      if_neg hh, if_neg hV, if_neg hsb]
    rfl
  | joined ha hv =>
    obtain ⟨h0, h1, h2, hdrop, -, h0v⟩ := memory_dashed ha
    have hhead : v.bytes.headD 0 ≠ 0 := by
      cases hbytes : v.bytes with
      | nil => exact absurd hbytes hv
      | cons c t => exact (not_mem_cons (hbytes ▸ h0v)).1
    rw [List.cons_append, List.nil_append, parseLoop]
    simp only [h0, h1, h2, Option.bind_eq_bind, Option.bind_some, if_neg hnul, if_neg hdash,
      if_neg hh, if_neg hV, if_neg hsb, if_pos hhead, hdrop]
    rfl
  | long ha =>
    obtain ⟨h0, h1, h2, hdrop, -⟩ := memory_dashed (c := char '-') (t := opt.name) ha
    have hhead : opt.name.headD 0 ≠ 0 := by cases opt <;> decide
    have hlong := longOption_bare (name_ne opt).1 (name_ne opt).2
    rw [optOf_name] at hlong
    rw [List.cons_append, List.cons_append, List.nil_append, parseLoop]
    simp only [h0, h1, h2, Option.bind_eq_bind, Option.bind_some, hdrop, hlong, if_neg hnul,
      if_neg hhead, if_neg hhV]
    rfl
  | equals ha =>
    rw [List.append_assoc] at ha
    obtain ⟨h0, h1, h2, hdrop, -⟩ :=
      memory_dashed (c := char '-') (t := opt.name ++ char '=' :: v.bytes) ha
    have hhead : (opt.name ++ char '=' :: v.bytes).headD 0 ≠ 0 := by
      cases opt
      · exact (show char 's' ≠ 0 by decide)
      · exact (show char 'b' ≠ 0 by decide)
    have hlong := longOption_equals (name_ne opt).1 (name_ne opt).2 (v.bytes ++ [0])
    rw [optOf_name] at hlong
    rw [List.append_assoc, List.cons_append] at hdrop
    rw [List.cons_append, List.nil_append, parseLoop]
    simp only [h0, h1, h2, Option.bind_eq_bind, Option.bind_some, hdrop, hlong, if_neg hnul,
      if_neg hhead, if_neg hhV]
    rfl

/-- What is returned on a request. -/
def told : Request → Status
  | .help => .help
  | .showVersion => .showVersion

theorem told_ne (q : Request) : told q ≠ .run ∧ told q ≠ .usageError := by cases q <;> decide

/-- **A request**, in any spelling. -/
theorem parseLoop_asked {a : CString} (h : q.SpelledBy a) :
    parseLoop tok errsz (some a :: rest) i o err = some ⟨told q, o, err⟩ := by
  rcases h with ⟨t, ha⟩ | ha
  · obtain ⟨h0, h1, -⟩ := memory_dashed ha
    have hnul : q.letter ≠ 0 ∧ q.letter ≠ char '-' := by cases q <;> decide
    rw [parseLoop]
    simp only [h0, h1, Option.bind_eq_bind, Option.bind_some, if_neg hnul.1, if_neg hnul.2]
    cases q <;> rfl
  · obtain ⟨h0, h1, h2, hdrop, -⟩ := memory_dashed (c := char '-') (t := q.name) ha
    have hhead : q.name.headD 0 ≠ 0 := by cases q <;> decide
    have hname : 0 ∉ q.name ∧ char '=' ∉ q.name := by cases q <;> decide
    have hopt : optOf q.name = q.letter := by cases q <;> decide
    have hlong := longOption_bare hname.1 hname.2
    rw [hopt] at hlong
    rw [parseLoop]
    simp only [h0, h1, h2, hdrop, hlong, Option.bind_eq_bind, Option.bind_some, if_neg hhead]
    cases q <;> rfl

/-- **What an iteration can do**, whatever the buffer: the loop is left before an operand or at a
`--`; it returns, with a diagnostic or on a request; or it applies an option. -/
inductive Turn (tok : Tok) : List (Option CString) → Prop
  | nil : Turn tok []
  | operand {a : Option CString} {rest : List (Option CString)} (ha : ∀ s ∈ a, ¬Dashed s) :
    Turn tok (a :: rest)
  | dashes {a : CString} {rest : List (Option CString)} (ha : a.bytes = text "--") :
      Turn tok (some a :: rest)
  | asked {q : Request} {a : CString} {rest : List (Option CString)} (h : q.SpelledBy a) :
    Turn tok (some a :: rest)
  | usage {args : List (Option CString)} {m : List Byte} (hm : Message m)
    (h : ∀ errsz i o err, parseLoop tok errsz args i o err = usage errsz o err m) : Turn tok args
  | setting {opt : Opt} {v : CString} (toks : List (Option CString)) {rest : List (Option CString)}
    (h : Spelled opt v toks) :
    Turn tok (toks ++ rest)

theorem optOf_cases (w : List Byte) :
    (∃ q : Request, w = q.name ∧ optOf w = q.letter) ∨
    (∃ opt : Opt, w = opt.name ∧ optOf w = opt.letter) ∨
      optOf w = 0 := by
  by_cases hhelp : w = text "help"
  · exact .inl ⟨.help, hhelp, by rw [hhelp]; rfl⟩
  by_cases hversion : w = text "version"
  · exact .inl ⟨.showVersion, hversion, by rw [hversion]; decide⟩
  by_cases hseed : w = text "seed"
  · exact .inr (.inl ⟨.seed, hseed, by rw [hseed]; decide⟩)
  by_cases hbits : w = text "bits"
  · exact .inr (.inl ⟨.bits, hbits, by rw [hbits]; decide⟩)
  · refine .inr (.inr ?_)
    rw [optOf, if_neg hhelp, if_neg hversion, if_neg hseed, if_neg hbits]

/-- An option without its value: the value is the next token, if there is one. -/
theorem turn_missing {a : CString} (opt : Opt) {m : List Byte} (hm : Message m)
    (hspelled : ∀ v, Spelled opt v [some a, some v])
    (hnone : ∀ errsz i o err, (∀ v t, rest ≠ some v :: t) →
      parseLoop tok errsz (some a :: rest) i o err = usage errsz o err m) : Turn tok
        (some a :: rest) := by
  by_cases hrest : ∃ v t, rest = some v :: t
  · obtain ⟨v, t, rfl⟩ := hrest
    exact .setting _ (hspelled v)
  · exact .usage hm fun errsz i o err => hnone errsz i o err fun v t h => hrest ⟨v, t, h⟩

theorem turn_long {a : CString} {w : List Byte} (ha : a.bytes = char '-' :: char '-' :: w)
    (hw : w ≠ []) : Turn tok (some a :: rest) := by
  obtain ⟨h0, h1, h2, hdrop, hdash, hnul⟩ := memory_dashed ha
  have hhead : w.headD 0 ≠ 0 := by
    cases w with
    | nil => exact absurd rfl hw
    | cons c t => exact (not_mem_cons hnul).1
  have hquoted : quoted tok a.memory = some (echo TOKMAX a.bytes) := quoted_eq tok a.noNul
  by_cases heq : char '=' ∈ w
  · obtain ⟨w, r, rfl, hnone⟩ := List.eq_append_cons_of_mem heq
    have hw0 : 0 ∉ w := fun h => hnul (List.mem_append_left _ h)
    have hr0 : 0 ∉ r := fun h => hnul (List.mem_append_right _ (List.mem_cons_of_mem _ h))
    have hlong := longOption_equals hw0 hnone (r ++ [0])
    rw [List.append_assoc, List.cons_append] at hdrop
    rcases optOf_cases w with ⟨q, -, hopt⟩ | ⟨opt, rfl, hopt⟩ | hopt
    · refine .usage (m := text "option '--" ++ q.name ++ text "' takes no argument")
        (by cases q <;> decide) fun errsz i o err => ?_
      rw [parseLoop]
      simp only [h0, h1, h2, hdrop, hlong, hopt, Option.bind_eq_bind, Option.bind_some,
        if_neg hhead]
      cases q <;> rfl
    · exact .setting [some a] (.equals (v := ⟨r, hr0⟩) ha)
    · refine .usage (m := text "unknown option '" ++ echo TOKMAX a.bytes ++ text "'")
        (message_echo _ _ (by decide) (by decide) (by decide) (by decide) _) fun errsz i o err => ?_
      rw [parseLoop]
      simp only [h0, h1, h2, hdrop, hlong, hopt, hquoted, Option.bind_eq_bind, Option.bind_some,
        if_neg hhead]
      rfl
  · have hlong := longOption_bare hnul heq
    rcases optOf_cases w with ⟨q, rfl, -⟩ | ⟨opt, rfl, hopt⟩ | hopt
    · exact .asked (.inr ha)
    · obtain ⟨hzero, -, hh, hV, -⟩ := letter_ne opt
      refine turn_missing opt (m := text "option '--" ++ (if opt.letter = char 's' then text "seed"
        else text "bits") ++ text "' requires an argument") (by cases opt <;> decide)
        (fun v => .long ha) fun errsz i o err hrest => ?_
      rw [parseLoop]
      simp only [h0, h1, h2, hdrop, hlong, hopt, Option.bind_eq_bind, Option.bind_some,
        if_neg hhead, if_neg hzero, if_neg (not_or.mpr ⟨hh, hV⟩)]
      match rest, hrest with
      | [], _ => rfl
      | none :: _, _ => rfl
      | some v :: t, hrest => exact absurd rfl (hrest v t)
    · refine .usage (m := text "unknown option '" ++ echo TOKMAX a.bytes ++ text "'")
        (message_echo _ _ (by decide) (by decide) (by decide) (by decide) _) fun errsz i o err => ?_
      rw [parseLoop]
      simp only [h0, h1, h2, hdrop, hlong, hopt, hquoted, Option.bind_eq_bind, Option.bind_some,
        if_neg hhead]
      rfl

theorem turn_short {a : CString} {c : Byte} {t : List Byte} (ha : a.bytes = char '-' :: c :: t)
    (hdash : c ≠ char '-') : Turn tok (some a :: rest) := by
  obtain ⟨h0, h1, h2, hdrop, hnul, ht⟩ := memory_dashed ha
  by_cases hh : c = char 'h'
  · exact .asked (q := .help) (.inl ⟨t, by rw [ha, hh, Request.letter]⟩)
  by_cases hV : c = char 'V'
  · exact .asked (q := .showVersion) (.inl ⟨t, by rw [ha, hV, Request.letter]⟩)
  by_cases hsb : ∃ opt : Opt, c = opt.letter
  · obtain ⟨opt, rfl⟩ := hsb
    have hletter := (letter_ne opt).2.2.2.2
    cases t with
    | nil =>
      refine turn_missing opt
        (m := text "option '-" ++ [opt.letter] ++ text "' requires an argument")
        (by cases opt <;> decide) (fun v => .apart ha) fun errsz i o err hrest => ?_
      rw [parseLoop]
      simp only [h0, h1, h2, Option.bind_eq_bind, Option.bind_some, if_neg hnul, if_neg hdash,
        if_neg hh, if_neg hV, if_neg hletter]
      match rest, hrest with
      | [], _ => rfl
      | none :: _, _ => rfl
      | some v :: t, hrest => exact absurd rfl (hrest v t)
    | cons d t => exact .setting [some a] (.joined (v := ⟨d :: t, ht⟩) ha (List.cons_ne_nil d t))
  · have hnot : c ≠ char 's' ∧ c ≠ char 'b' := ⟨fun h => hsb ⟨.seed, h⟩, fun h => hsb ⟨.bits, h⟩⟩
    have hquoted : quoted tok [c, 0] = some (echo TOKMAX [c]) :=
      quoted_eq tok (s := [c]) (r := []) fun h => hnul (List.mem_singleton.mp h).symm
    refine .usage (m := text "unknown option '-" ++ echo TOKMAX [c] ++ text "'")
      (message_echo _ _ (by decide) (by decide) (by decide) (by decide) _) fun errsz i o err => ?_
    rw [parseLoop]
    simp only [h0, h1, hquoted, Option.bind_eq_bind, Option.bind_some, if_neg hnul, if_neg hdash,
      if_neg hh, if_neg hV, if_pos hnot]
    rfl

/-- **Every iteration** is one of these. -/
theorem turn (tok : Tok) (args : List (Option CString)) : Turn tok args := by
  match args with
  | [] => exact .nil
  | none :: rest => exact .operand (by simp)
  | some a :: rest =>
    by_cases hdashed : Dashed a
    · obtain ⟨c, t, ha⟩ := hdashed
      by_cases hc : c = char '-'
      · subst hc
        by_cases ht : t = []
        · exact .dashes (by rw [ha, ht]; rfl)
        · exact turn_long ha ht
      · exact turn_short ha hc
    · refine .operand fun s hs => ?_
      obtain rfl := Option.mem_some_iff.mp hs
      exact hdashed

/-! ### The loop -/

/-- What is in a buffer when a message was printed to it. -/
def printed (err : List Byte) (errsz : ℕ) (m : List Byte) : List Byte :=
  if errsz = 0 then err else m.take (errsz - 1) ++ 0 :: err.drop ((m.take (errsz - 1)).length + 1)

theorem snprintf_printed (herr : errsz ≤ err.length) (m : List Byte) :
    snprintf err errsz m = some (printed err errsz m) := by
  rw [printed]
  split_ifs with hpos
  · exact if_pos hpos
  · exact snprintf_eq (by omega) herr m

/-- What the loop does on some arguments, whatever the buffer and wherever it begins. -/
structure Answer where
  status : Status
  seed : Word
  bits : ℤ
  /-- How many arguments the option section has. -/
  taken : ℕ
  msg : Option (List Byte)
  usage : status = .usageError ↔ msg.isSome
  message : ∀ m ∈ msg, Message m

/-- What is in the buffer then. -/
def Answer.print (a : Answer) (err : List Byte) (errsz : ℕ) : List Byte :=
  match a.msg with
  | none => err
  | some m => printed err errsz m

def Answer.parsed (a : Answer) (i first : ℕ) (err : List Byte) (errsz : ℕ) : Parsed :=
  ⟨a.status, ⟨a.seed, a.bits, if a.status = .run then i + a.taken else first⟩, a.print err errsz⟩

/-- The option section is left. -/
def Answer.run (seed : Word) (bits : ℤ) (taken : ℕ) : Answer where
  status := .run
  seed := seed
  bits := bits
  taken := taken
  msg := none
  usage := ⟨nofun, nofun⟩
  message := nofun

/-- `argv` is read on from `k` arguments further. -/
def Answer.behind (a : Answer) (k : ℕ) : Answer := { a with taken := k + a.taken }

theorem Answer.parsed_behind (a : Answer) (k i first : ℕ) (err : List Byte) (errsz : ℕ) :
    (a.behind k).parsed i first err errsz = a.parsed (i + k) first err errsz := by
  simp only [parsed, behind, Nat.add_assoc]
  rfl

theorem usage_eq (hm : Message m) (seed : Word) (bits : ℤ) : ∃ a : Answer, a.status = .usageError ∧
    ∀ errsz err i first, errsz ≤ err.length →
      usage errsz ⟨seed, bits, first⟩ err m = some (a.parsed i first err errsz) := by
  let a : Answer := ⟨.usageError, seed, bits, 0, some m, ⟨fun _ => rfl, fun _ => rfl⟩, fun x hx =>
    Option.some.inj hx ▸ hm⟩
  refine ⟨a, rfl, fun errsz err i first herr => ?_⟩
  rw [Cli.Args.usage, snprintf_printed herr]
  rfl

/-- What is known of the arguments by the answer. -/
def Answer.Explains (a : Answer) (args : List (Option CString)) : Prop :=
  (a.status = .run → ∃ ss, Section args ss (args.drop a.taken)) ∧
  ∀ q : Request, a.status = told q → Requested q args

theorem Answer.explains_of_usage {a : Answer} (h : a.status = .usageError)
    (args : List (Option CString)) : a.Explains args := by
  refine ⟨fun hrun => ?_, fun q hq => absurd (hq.symm.trans h) (told_ne q).2⟩
  rw [h] at hrun
  cases hrun

theorem Answer.explains_run {seed : Word} {bits : ℤ} {taken : ℕ} {ss : List Setting}
    (h : Section args ss (args.drop taken)) : (Answer.run seed bits taken).Explains args :=
  ⟨fun _ => ⟨ss, h⟩, fun q hq => absurd hq.symm (told_ne q).1⟩

theorem Answer.Explains.cons {a : Answer} {x : Setting} (h : a.Explains rest)
    (hx : Reads opt v.bytes x) (hspelled : Spelled opt v toks) :
    (a.behind toks.length).Explains (toks ++ rest) := by
  refine ⟨fun hrun => ?_, fun q hq => .cons hx hspelled (h.2 q hq)⟩
  obtain ⟨ss, hss⟩ := h.1 hrun
  refine ⟨x :: ss, ?_⟩
  rw [Answer.behind, List.drop_length_add_append]
  exact .cons hx hspelled hss

/-- **What the loop does**, whatever the buffer and wherever it begins. -/
theorem parseLoop_answers (tok : Tok) (n : ℕ) : ∀ args : List (Option CString), args.length = n →
    ∀ (seed : Word) (bits : ℤ), ∃ a : Answer, a.Explains args ∧
      ∀ errsz err i first, errsz ≤ err.length →
        parseLoop tok errsz args i ⟨seed, bits, first⟩ err = some (a.parsed i first err errsz) := by
  induction n using Nat.strong_induction_on with
  | _ n ih =>
    intro args hn seed bits
    cases turn tok args with
    | nil => exact ⟨.run seed bits 0, Answer.explains_run .nil, fun _ _ _ _ _ => rfl⟩
    | operand ha =>
      refine ⟨.run seed bits 0, Answer.explains_run (.operand ha), fun errsz err i first _ => ?_⟩
      rw [parseLoop_operand ha]
      rfl
    | dashes ha =>
      refine ⟨.run seed bits 1, Answer.explains_run (.dashes ha), fun errsz err i first _ => ?_⟩
      rw [parseLoop_dashes ha]
      rfl
    | @asked q a rest h =>
      obtain ⟨hrun, husage⟩ := told_ne q
      let b : Answer := ⟨told q, seed, bits, 0, none, ⟨fun h => absurd h husage, nofun⟩, nofun⟩
      refine ⟨b, ⟨fun h => absurd h hrun, fun q' hq => ?_⟩, fun errsz err i first _ => ?_⟩
      · have hsame : q = q' := by
          cases q <;> cases q' <;> first | rfl | exact nomatch hq
        exact hsame ▸ .head h
      · rw [parseLoop_asked h, Answer.parsed, if_neg hrun]
        rfl
    | usage hm h =>
      obtain ⟨a, hstatus, ha⟩ := usage_eq hm seed bits
      refine ⟨a, Answer.explains_of_usage hstatus _, fun errsz err i first herr => ?_⟩
      rw [h, ha errsz err i first herr]
    | @setting opt v toks rest hspelled =>
      rcases apply_cases opt v.noNul with ⟨x, hx, happly⟩ | ⟨-, m, hm, happly⟩
      · have hlen : rest.length < n := by
          rw [← hn, List.length_append]
          cases hspelled <;> simp
        obtain ⟨seed', bits', hset⟩ := set_eq seed bits x
        obtain ⟨a, hexplains, ha⟩ := ih _ hlen rest rfl seed' bits'
        refine ⟨a.behind toks.length, hexplains.cons hx hspelled, fun errsz err i first herr => ?_⟩
        rw [parseLoop_spelled hspelled, CString.memory, happly, hset, ha _ _ _ _ herr,
          Answer.parsed_behind]
      · obtain ⟨a, hstatus, ha⟩ := usage_eq hm seed bits
        refine ⟨a, Answer.explains_of_usage hstatus _, fun errsz err i first herr => ?_⟩
        rw [parseLoop_spelled hspelled, CString.memory, happly, ha errsz err i first herr]

/-- **Valid settings** are read, and the loop goes on behind them. -/
theorem parseLoop_settings (tok : Tok) {ss : List Setting} (h : Settings args ss) :
    ∀ (seed : Word) (bits : ℤ),
    ∃ seed' bits', ∀ errsz i first err rest, parseLoop tok errsz (args ++ rest) i
    ⟨seed, bits, first⟩ err = parseLoop tok errsz rest (i + args.length)
      ⟨seed', bits', first⟩ err := by
  induction h with
  | nil => exact fun seed bits => ⟨seed, bits, fun _ _ _ _ _ => rfl⟩
  | @cons opt v x toks args ss hx hspelled _ ih =>
    intro seed bits
    rcases apply_cases opt v.noNul with ⟨y, -, happly⟩ | ⟨hnone, -⟩
    · obtain ⟨seed', bits', hset⟩ := set_eq seed bits y
      obtain ⟨seed'', bits'', hloop⟩ := ih seed' bits'
      refine ⟨seed'', bits'', fun errsz i first err rest => ?_⟩
      rw [List.append_assoc, parseLoop_spelled hspelled, CString.memory, happly, hset, hloop,
        List.length_append, Nat.add_assoc]
    · exact absurd hx (hnone x)

theorem set_toInt (seed : Word) (b : Bits) (first : ℕ) (x : Setting) :
    set ⟨seed, b.toInt, first⟩ x =
    ⟨x.seed?.getD seed, (x.bits?.getD b).toInt, first⟩ := by
  cases x <;> rfl

/-- **An option section** is read to its end. -/
theorem parseLoop_section (tok : Tok) (errsz : ℕ) {ss : List Setting}
    {operands : List (Option CString)}
    (h : Section args ss operands) : ∀ (seed : Word) (b : Bits) (i first : ℕ) (err : List Byte),
      ∃ front, args = front ++ operands ∧ parseLoop tok errsz args i ⟨seed, b.toInt, first⟩ err =
        some ⟨.run, ⟨lastSeed seed ss, (lastBits b ss).toInt, i + front.length⟩, err⟩ := by
  induction h with
  | nil => exact fun seed b i first err => ⟨[], rfl, rfl⟩
  | operand ha => exact fun seed b i first err => ⟨[], rfl, parseLoop_operand ha⟩
  | @dashes a rest ha => exact fun seed b i first err => ⟨[some a], rfl, parseLoop_dashes ha⟩
  | @cons opt v x toks args operands ss hx hspelled _ ih =>
    intro seed b i first err
    rcases apply_cases opt v.noNul with ⟨y, hy, happly⟩ | ⟨hnone, -⟩
    · obtain rfl := hx.unique hy
      obtain ⟨front, rfl, hloop⟩ :=
        ih (x.seed?.getD seed) (x.bits?.getD b) (i + toks.length) first err
      refine ⟨toks ++ front, by rw [List.append_assoc], ?_⟩
      rw [parseLoop_spelled hspelled, CString.memory, happly, set_toInt, hloop, lastSeed_cons,
        lastBits_cons, List.length_append, Nat.add_assoc]
    · exact absurd hx (hnone x)

/-- **A request** is answered, whatever is behind it. -/
theorem parseLoop_requested (tok : Tok) (errsz : ℕ) (h : Requested q args) :
    ∀ (seed : Word) (b : Bits) (i first : ℕ) (err : List Byte), ∃ o,
      parseLoop tok errsz args i ⟨seed, b.toInt, first⟩ err = some ⟨told q, o, err⟩ := by
  induction h with
  | head ha => exact fun seed b i first err => ⟨_, parseLoop_asked ha⟩
  | @cons opt v x toks args hx hspelled _ ih =>
    intro seed b i first err
    rcases apply_cases opt v.noNul with ⟨y, hy, happly⟩ | ⟨hnone, -⟩
    · obtain rfl := hx.unique hy
      obtain ⟨o, hloop⟩ := ih (x.seed?.getD seed) (x.bits?.getD b) (i + toks.length) first err
      refine ⟨o, ?_⟩
      rw [parseLoop_spelled hspelled, CString.memory, happly, set_toInt, hloop]
    · exact absurd hx (hnone x)

/-! ### `hayasum_parse_args` -/

/-- `err[0] = '\0'`, if there is room. -/
def cleared (err : List Byte) (errsz : ℕ) : List Byte := printed err errsz []

theorem length_printed (herr : errsz ≤ err.length) (m : List Byte) :
    (printed err errsz m).length = err.length := by
  rw [printed]
  split_ifs with hpos
  · rfl
  · have hlen : (m.take (errsz - 1)).length ≤ errsz - 1 := List.length_take_le _ _
    exact length_terminated (by omega)

theorem drop_printed (err : List Byte) (errsz : ℕ) (m : List Byte) :
    (printed err errsz m).drop errsz = err.drop errsz := by
  rw [printed]
  split_ifs with hpos
  · rfl
  · have hlen : (m.take (errsz - 1)).length ≤ errsz - 1 := List.length_take_le _ _
    exact drop_terminated (by omega) err

theorem cstr_printed (hpos : 0 < errsz) (err : List Byte) {m : List Byte} (hm : 0 ∉ m) :
    cstr ((printed err errsz m).take errsz) = some (m.take (errsz - 1)) := by
  have hlen : (m.take (errsz - 1)).length ≤ errsz - 1 := List.length_take_le _ _
  rw [printed, if_neg (by omega)]
  exact cstr_take (fun h => hm (List.mem_of_mem_take h)) (by omega)

theorem parseArgs_eq (herr : errsz ≤ err.length) (argv : List (Option CString)) :
    parseArgs tok errsz argv err = parseLoop tok errsz (argv.drop 1)
      (if argv.length > 0 then 1 else 0)
      ⟨0, 64, if argv.length > 0 then 1 else 0⟩ (cleared err errsz) := by
  have hclear : (if errsz > 0 then store err 0 0 else some err) = some (cleared err errsz) := by
    rw [cleared, ← snprintf_printed herr, snprintf, List.take_nil, List.nil_append]
    by_cases hpos : errsz = 0
    · rw [if_neg (by omega), if_pos hpos]
    · rw [if_pos (by omega), if_neg hpos, store]
  have hdrop : argv.drop (if argv.length > 0 then 1 else 0) = argv.drop 1 := by
    cases argv <;> rfl
  rw [parseArgs]
  by_cases hpos : errsz > 0
  · rw [if_pos hpos] at hclear
    simp only [if_pos hpos, hclear, hdrop, Option.bind_eq_bind, Option.bind_some]
  · rw [if_neg hpos] at hclear
    simp only [if_neg hpos, ← Option.some.inj hclear, hdrop, Option.bind_eq_bind, Option.bind_some]

/-- **What the parser does**, whatever the buffer. -/
theorem parseArgs_answers (tok : Tok) (argv : List (Option CString)) : ∃ a : Answer,
    a.Explains (argv.drop 1) ∧ ∃ first, ∀ errsz err, errsz ≤ err.length →
      parseArgs tok errsz argv err = some (a.parsed first first (cleared err errsz) errsz) := by
  obtain ⟨a, hexplains, ha⟩ := parseLoop_answers tok _ (argv.drop 1) rfl 0 64
  refine ⟨a, hexplains, if argv.length > 0 then 1 else 0, fun errsz err herr => ?_⟩
  rw [parseArgs_eq herr, ha _ _ _ _ ((length_printed herr []).symm ▸ herr)]

/-- **What is returned**, by the arguments: a run exactly behind an option section, and a text
exactly on request. -/
theorem parseArgs_status {argv : List (Option CString)} {p : Parsed} (herr : errsz ≤ err.length)
    (h : parseArgs tok errsz argv err = some p) :
    (p.status = .run ↔ ∃ ss operands, Section (argv.drop 1) ss operands) ∧
    ∀ q : Request, p.status = told q ↔ Requested q (argv.drop 1) := by
  obtain ⟨a, ⟨hrun, htold⟩, first, ha⟩ := parseArgs_answers tok argv
  obtain rfl := Option.some.inj ((ha errsz err herr).symm.trans h)
  rw [parseArgs_eq herr] at h
  refine ⟨⟨fun hstatus => ?_, ?_⟩, fun q => ⟨htold q, fun hq => ?_⟩⟩
  · obtain ⟨ss, hss⟩ := hrun hstatus
    exact ⟨ss, _, hss⟩
  · rintro ⟨ss, operands, hs⟩
    obtain ⟨front, -, hloop⟩ := parseLoop_section tok errsz hs 0 .b64 _ _ (cleared err errsz)
    rw [← Option.some.inj (hloop.symm.trans h)]
  · obtain ⟨o, hloop⟩ := parseLoop_requested tok errsz hq 0 .b64 _ _ (cleared err errsz)
    rw [← Option.some.inj (hloop.symm.trans h)]

/-- **On a usage error there is a message**, all of it, in a buffer with room for it. -/
theorem parseArgs_usage {argv : List (Option CString)} {p : Parsed} (herr : err.length = 256)
    (h : parseArgs tok 256 argv err = some p) (hstatus : p.status = .usageError) :
    ∃ m, Message m ∧ cstr p.err = some m := by
  obtain ⟨a, -, first, ha⟩ := parseArgs_answers tok argv
  obtain rfl := Option.some.inj ((ha 256 err herr.ge).symm.trans h)
  obtain ⟨m, hmsg⟩ := Option.isSome_iff_exists.mp (a.usage.mp hstatus)
  have hm := a.message m hmsg
  have hclear : (cleared err 256).length = 256 := (length_printed herr.ge []).trans herr
  have hread := cstr_printed (by decide : 0 < 256) (cleared err 256) hm.printable.noNul
  have hlen := (length_printed hclear.ge m).trans hclear
  rw [List.take_of_length_le hlen.le, List.take_of_length_le (by have hlt := hm.lt; omega)] at hread
  refine ⟨m, hm, ?_⟩
  rw [Answer.parsed, Answer.print, hmsg]
  exact hread

end Hayahash.Refine.Args
