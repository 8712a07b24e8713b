import Hayahash.Cli.Output
import Hayahash.Lib.Libc

/-! # The arguments of `hayasum`

From `hayasum_is_digit` to `hayasum_parse_args` of `hayasum.c`. Strings are memory, as in
`Cli.Output`, and so is the buffer of the caller for a diagnostic: a function gives what is in it
afterwards. -/

namespace Hayahash.Cli.Args

open Hayahash.Lib.Bytes (Byte)
open Hayahash.Lib.Libc Hayahash.C.Primitives Hayahash.Cli.Output

/-- `HAYASUM_TOKMAX`. -/
def TOKMAX : ℕ := 64

/-- `hayasum_status`. -/
inductive Status where
  | run
  | help
  | showVersion
  | usageError
deriving DecidableEq

/-- `hayasum_opts`. -/
structure Opts where
  seed : Word
  bits : ℤ
  first : ℕ

/-- `char tok[HAYASUM_TOKMAX + 1]`, with what it holds at first. -/
structure Tok where
  bytes : List Byte
  length : bytes.length = TOKMAX + 1

/-! ### Numbers -/

/-- `hayasum_is_digit`. -/
def isDigit (c : Byte) : Bool := char '0' ≤ c && c ≤ char '9'

/-- `hayasum_is_hexdigit`. -/
def isHexdigit (c : Byte) : Bool :=
  isDigit c || (char 'a' ≤ c && c ≤ char 'f') || (char 'A' ≤ c && c ≤ char 'F')

/-- `s[0] == '0' && (s[1] == 'x' || s[1] == 'X')`. -/
def has0x (s : List Byte) : Option Bool := do
  if (← s[0]?) = char '0' then
    let c ← s[1]?
    return c = char 'x' || c = char 'X'
  else return false

/-- `hayasum_parse_u64`, behind the screen: the value returned, and `*out`. -/
def parseDigits (digits : List Byte) (base : ℕ) (out : Word) : Option (ℤ × Word) := do
  let r ← strtoull digits base
  if r.erange ∨ r.endptr = digits then return (0, out)
  if (← r.endptr[0]?) ≠ 0 then return (0, out)
  return (1, r.value)

/-- **`hayasum_parse_u64`**: the value returned, and `*out`. -/
def parseU64 (s : List Byte) (out : Word) : Option (ℤ × Word) := do
  if ← has0x s then
    let digits := s.drop 2
    if !isHexdigit (← digits[0]?) then return (0, out)
    if ← has0x digits then return (0, out)
    parseDigits digits 16 out
  else
    if !isDigit (← s[0]?) then return (0, out)
    parseDigits s 10 out

/-! ### Diagnostics -/

/-- The loop of `hayasum_quote`, for `n` more bytes at most: `i` behind it, and `dst`. -/
def quoteLoop (src : List Byte) : ℕ → ℕ → List Byte → Option (ℕ × List Byte)
  | 0, i, dst => some (i, dst)
  | n + 1, i, dst => do
    let c ← src[i]?
    if c = 0 then return (i, dst)
    let dst ← store dst i (if 0x20 ≤ c ∧ c < 0x7f then c else char '?')
    quoteLoop src n (i + 1) dst

/-- **`hayasum_quote`.** -/
def quote (dst : List Byte) (dstsz : ℕ) (src : List Byte) : Option (List Byte) := do
  if dstsz = 0 then return dst
  let cap := dstsz - 1
  let cap := if cap > TOKMAX then TOKMAX else cap
  let (i, dst) ← quoteLoop src cap 0 dst
  let dst ← store dst i 0
  if (← src[i]?) ≠ 0 ∧ i ≥ 3 then memcpy dst (i - 3) (text "...") else return dst

/-- `hayasum_quote(tok, sizeof tok, src)`, and the string that is in `tok` then. -/
def quoted (tok : Tok) (src : List Byte) : Option (List Byte) := do
  cstr (← quote tok.bytes (TOKMAX + 1) src)

/-! ### `hayasum_set_option` -/

/-- What `hayasum_set_option` leaves. -/
structure Applied where
  ret : ℤ
  opts : Opts
  err : List Byte

/-- **`hayasum_set_option`.** -/
def setOption (tok : Tok) (opt : Byte) (v : List Byte) (o : Opts) (err : List Byte) (errsz : ℕ) :
    Option Applied := do
  if opt = char 's' then
    let (ret, seed) ← parseU64 v o.seed
    let o := { o with seed }
    if ret ≠ 0 then return ⟨1, o, err⟩
    let err ← snprintf err errsz (text "invalid seed '" ++ (← quoted tok v) ++
      text "': expected a decimal or 0x-hex value below 2^64")
    return ⟨0, o, err⟩
  if ← strcmp v (text "64" ++ [0]) then return ⟨1, { o with bits := 64 }, err⟩
  if ← strcmp v (text "128" ++ [0]) then return ⟨1, { o with bits := 128 }, err⟩
  let err ← snprintf err errsz (text "invalid width '" ++ (← quoted tok v) ++
    text "': expected 64 or 128")
  return ⟨0, o, err⟩

/-! ### `hayasum_parse_args` -/

/-- What `hayasum_parse_args` leaves. -/
structure Parsed where
  status : Status
  opts : Opts
  err : List Byte

/-- `nlen == n && memcmp(name, t, n) == 0`. -/
def isName (name : List Byte) (nlen : ℕ) (t : List Byte) (n : ℕ) : Option Bool :=
  if nlen = n then memcmp name t n else some false

/-- `opt`, for a name. -/
def optCode (name : List Byte) (nlen : ℕ) : Option Byte := do
  if ← isName name nlen (text "help") 4 then return char 'h'
  if ← isName name nlen (text "version") 7 then return char 'V'
  if ← isName name nlen (text "seed") 4 then return char 's'
  if ← isName name nlen (text "bits") 4 then return char 'b'
  return 0

/-- `opt` for a long option, and `eq`. -/
def longOption (name : List Byte) : Option (Byte × Option (List Byte)) := do
  match ← strchr (char '=') name with
  | some eq => return (← optCode name (name.length - eq.length), some eq)
  | none => return (← optCode name (← strlen name), none)

section Parse
variable (tok : Tok) (errsz : ℕ)

/-- A diagnostic, and `return HAYASUM_USAGE_ERROR`. -/
def usage (o : Opts) (err msg : List Byte) : Option Parsed := do
  return ⟨.usageError, o, ← snprintf err errsz msg⟩

/-- `hayasum_set_option`, and what comes then: `return HAYASUM_USAGE_ERROR`, or the next
iteration. -/
def apply (opt : Byte) (v : List Byte) (o : Opts) (err : List Byte)
    (next : Opts → List Byte → Option Parsed) : Option Parsed := do
  let r ← setOption tok opt v o err errsz
  if r.ret = 0 then return ⟨.usageError, r.opts, r.err⟩
  next r.opts r.err

/-- The loop of `hayasum_parse_args`, at `i`: the list is `argv` from there on, in which a pointer
may be `NULL`. -/
def parseLoop : List (Option CString) → ℕ → Opts → List Byte → Option Parsed
  | [], i, o, err => some ⟨.run, { o with first := i }, err⟩
  | none :: _, i, o, err => some ⟨.run, { o with first := i }, err⟩
  | some a :: rest, i, o, err => do
    let a := a.memory
    if (← a[0]?) ≠ char '-' then return ⟨.run, { o with first := i }, err⟩
    let c ← a[1]?
    if c = 0 then return ⟨.run, { o with first := i }, err⟩
    if c = char '-' then
      if (← a[2]?) = 0 then return ⟨.run, { o with first := i + 1 }, err⟩
      let (opt, eq) ← longOption (a.drop 2)
      if opt = 0 then
        return ← usage errsz o err (text "unknown option '" ++ (← quoted tok a) ++ text "'")
      if opt = char 'h' ∨ opt = char 'V' then
        if eq.isSome then
          return ← usage errsz o err (text "option '--" ++
            (if opt = char 'h' then text "help" else text "version") ++ text "' takes no argument")
        return ⟨if opt = char 'h' then .help else .showVersion, o, err⟩
      match eq with
      | some eq => apply tok errsz opt (eq.drop 1) o err fun o err => parseLoop rest (i + 1) o err
      | none =>
        match rest with
        | some v :: rest =>
            apply tok errsz opt v.memory o err fun o err => parseLoop rest (i + 2) o err
        | _ => usage errsz o err (text "option '--" ++
            (if opt = char 's' then text "seed" else text "bits") ++ text "' requires an argument")
    else
      if c = char 'h' then return ⟨.help, o, err⟩
      if c = char 'V' then return ⟨.showVersion, o, err⟩
      if c ≠ char 's' ∧ c ≠ char 'b' then
        return ← usage errsz o err (text "unknown option '-" ++ (← quoted tok [c, 0]) ++ text "'")
      if (← a[2]?) ≠ 0 then
        apply tok errsz c (a.drop 2) o err fun o err => parseLoop rest (i + 1) o err
      else
        match rest with
        | some v :: rest =>
            apply tok errsz c v.memory o err fun o err => parseLoop rest (i + 2) o err
        | _ => usage errsz o err (text "option '-" ++ [c] ++ text "' requires an argument")

/-- **`hayasum_parse_args`**, with `argc` pointers in `argv`. -/
def parseArgs (argv : List (Option CString)) (err : List Byte) : Option Parsed := do
  let first := if argv.length > 0 then 1 else 0
  let err ← if errsz > 0 then store err 0 0 else some err
  parseLoop tok errsz (argv.drop first) first ⟨0, 64, first⟩ err

end Parse

end Hayahash.Cli.Args
