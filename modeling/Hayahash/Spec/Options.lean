import Hayahash.Cli.Output
import Hayahash.Spec.Number

/-! # Command lines of `hayasum`

What the arguments of a command line say, whatever reads them.

* `Reads`: what an option sets with a value: the seed to a numeral, or the width to one of two.
* `Spelled`: the four spellings of an option with its value.
* `Section`: the options in front, what they set, and the operands behind.
* `Requested`: the options in front, and a text that is asked for. -/

namespace Hayahash.Spec.Options

open Hayahash.Lib.Bytes (Byte)
open Hayahash.Lib.Libc Hayahash.C.Primitives Hayahash.Cli.Output Hayahash.Spec.Number

/-! ### Settings -/

/-- An option that takes a value. -/
inductive Opt where
  | seed
  | bits

def Opt.letter : Opt → Byte
  | .seed => char 's'
  | .bits => char 'b'

def Opt.name : Opt → List Byte
  | .seed => text "seed"
  | .bits => text "bits"

/-- What is set. -/
inductive Setting where
  | seed (x : Word)
  | bits (b : Bits)

def Setting.seed? : Setting → Option Word
  | .seed x => some x
  | .bits _ => none

def Setting.bits? : Setting → Option Bits
  | .seed _ => none
  | .bits b => some b

/-- A width, in digits. -/
def width : Bits → List Byte
  | .b64 => text "64"
  | .b128 => text "128"

/-- **What an option sets with a value**, if the value is valid. -/
inductive Reads : Opt → List Byte → Setting → Prop
  | seed {v : List Byte} {n : ℕ} (hn : n < 2 ^ 64) (h : Numeral v n) :
      Reads .seed v (.seed (.ofNat 64 n))
  | bits (b : Bits) : Reads .bits (width b) (.bits b)

theorem Reads.unique {opt : Opt} {v : List Byte} {x y : Setting} (hx : Reads opt v x)
    (hy : Reads opt v y) : x = y := by
  cases hx with
  | seed _ hn =>
    cases hy with
    | seed _ hm => rw [hn.unique hm]
  | bits b =>
    generalize hv : width b = v at hy
    cases hy with
    | bits c =>
      have hne : text "64" ≠ text "128" := by decide
      cases b <;> cases c
      · rfl
      · exact absurd hv hne
      · exact absurd hv.symm hne
      · rfl

/-- The seed after some settings. -/
def lastSeed (x : Word) (ss : List Setting) : Word := (ss.filterMap Setting.seed?).getLastD x

/-- The width after some settings. -/
def lastBits (b : Bits) (ss : List Setting) : Bits := (ss.filterMap Setting.bits?).getLastD b

theorem lastSeed_cons (y : Word) (x : Setting) (ss : List Setting) :
    lastSeed y (x :: ss) = lastSeed (x.seed?.getD y) ss := by
  cases x with
  | seed x => exact List.getLastD_cons
  | bits b => rfl

theorem lastBits_cons (c : Bits) (x : Setting) (ss : List Setting) :
    lastBits c (x :: ss) = lastBits (x.bits?.getD c) ss := by
  cases x with
  | seed x => rfl
  | bits b => exact List.getLastD_cons

/-! ### Spellings -/

/-- **The spellings of an option and its value**: `-s V`, `-sV`, `--seed V` and `--seed=V`. -/
inductive Spelled (opt : Opt) (v : CString) : List (Option CString) → Prop
  | apart {a : CString} (ha : a.bytes = [char '-', opt.letter]) : Spelled opt v [some a, some v]
  | joined {a : CString} (ha : a.bytes = char '-' :: opt.letter :: v.bytes) (hv : v.bytes ≠ []) :
    Spelled opt v [some a]
  | long {a : CString} (ha : a.bytes = text "--" ++ opt.name) : Spelled opt v [some a, some v]
  | equals {a : CString} (ha : a.bytes = text "--" ++ opt.name ++ char '=' :: v.bytes) :
    Spelled opt v [some a]

/-- Valid settings, one behind the other. -/
inductive Settings : List (Option CString) → List Setting → Prop
  | nil : Settings [] []
  | cons {opt : Opt} {v : CString} {x : Setting} {toks args : List (Option CString)}
      {ss : List Setting}
    (hv : Reads opt v.bytes x) (h : Spelled opt v toks) (hs : Settings args ss) :
    Settings (toks ++ args) (x :: ss)

/-! ### Sections -/

/-- A token that begins like an option, and is not `-`. -/
def Dashed (a : CString) : Prop := ∃ c t, a.bytes = char '-' :: c :: t

/-- **The option section** of some arguments: what it sets, and the operands behind it. It ends
before the first token that is no option, or behind a `--`. -/
inductive Section : List (Option CString) → List Setting → List (Option CString) → Prop
  | nil : Section [] [] []
  | operand {a : Option CString} {rest : List (Option CString)} (ha : ∀ s ∈ a, ¬Dashed s) :
    Section (a :: rest) [] (a :: rest)
  | dashes {a : CString} {rest : List (Option CString)} (ha : a.bytes = text "--") :
    Section (some a :: rest) [] rest
  | cons {opt : Opt} {v : CString} {x : Setting} {toks args operands : List (Option CString)}
    {ss : List Setting} (hv : Reads opt v.bytes x) (h : Spelled opt v toks)
    (hs : Section args ss operands) : Section (toks ++ args) (x :: ss) operands

/-! ### Requests -/

/-- A text that can be asked for. -/
inductive Request where
  | help
  | showVersion

def Request.letter : Request → Byte
  | .help => char 'h'
  | .showVersion => char 'V'

def Request.name : Request → List Byte
  | .help => text "help"
  | .showVersion => text "version"

/-- **The spellings of a request**: `-h`, whatever is joined to it, and `--help`. -/
def Request.SpelledBy (r : Request) (a : CString) : Prop :=
  (∃ t, a.bytes = char '-' :: r.letter :: t) ∨ a.bytes = text "--" ++ r.name

/-- **A text is asked for**, behind valid settings; what comes then is not looked at. -/
inductive Requested (r : Request) : List (Option CString) → Prop
  | head {a : CString} {rest : List (Option CString)} (ha : r.SpelledBy a) :
      Requested r (some a :: rest)
  | cons {opt : Opt} {v : CString} {x : Setting} {toks args : List (Option CString)}
    (hv : Reads opt v.bytes x) (h : Spelled opt v toks) (hs : Requested r args) :
    Requested r (toks ++ args)

end Hayahash.Spec.Options
