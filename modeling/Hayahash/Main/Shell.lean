import Hayahash.Main.Arguments
import Hayahash.Main.Reader
import Hayahash.Refine.Shell

/-! # The program `hayasum`

* **`program`**: `main` goes over its operands, in order, as long as `stdout` takes what is written.
* **`delivers`**: it exits with 0 exactly if all of them could be read and `stdout` took every line;
  the text that went out is then read back as their digests.
* **`lines`**: every input is one line, of `stdout` or of `stderr`, whatever its name.
* **`no_run`**: whether there is a run, a text or a message is settled by the arguments, and without
  a run nothing is opened and nothing is read. -/

namespace Hayahash.Main.Shell

open Hayahash.Lib.Bytes (Byte)
open Hayahash.Lib.Codec
open Hayahash.Lib.Libc Hayahash.Lib.Stdio Hayahash.C.Primitives
open Hayahash.Cli.Stream (Read)
open Hayahash.Cli.Args Hayahash.Cli.Shell
open Hayahash.Cli.Output (CString newline carriageReturn Bits)
open Hayahash.Spec.Number Hayahash.Spec.Options Hayahash.Spec.Output Hayahash.Spec.Reader
  Hayahash.Spec.Shell
open Hayahash.Refine.Args Hayahash.Refine.Quote Hayahash.Refine.Shell
open Hayahash.Main.Arguments (drop_front arg length_tok length_err)
open Hayahash.Main.Reader (host small pieces)

variable {t : Target} {B : Buffer t} {env : Env B.size} {frame : Frame}
  {argv operands : List CString}
variable {ss : List Setting}

/-! ### Arguments -/

/-- **The option section is read**, and the operands are behind it. -/
theorem parse_section (frame : Frame)
    (h : Section ((argv.map some).drop 1) ss (operands.map some)) : ∃ p,
    parseArgs frame.tok 256 (argv.map some) frame.err = some p ∧ p.status = .run ∧
    p.opts.seed = lastSeed 0 ss ∧ p.opts.bits = (lastBits .b64 ss).toInt ∧
    argv.drop p.opts.first = operands ∧ (p.opts.first ≥ argv.length ↔ operands = []) := by
  rw [parseArgs_eq frame.errmax.ge]
  obtain ⟨front, hfront, hloop⟩ := parseLoop_section frame.tok 256 h 0 .b64
    (if (argv.map some).length > 0 then 1 else 0) (if (argv.map some).length > 0 then 1 else 0)
    (cleared frame.err 256)
  obtain ⟨hdrop, hlen⟩ := drop_front hfront
  refine ⟨_, hloop, rfl, rfl, rfl, ?_, ?_⟩
  · rw [← List.map_drop] at hdrop
    exact List.map_injective_iff.mpr (Option.some_injective _) hdrop
  · rw [List.length_map, List.length_map] at hlen
    rw [List.length_map, ← List.length_eq_zero_iff]
    dsimp only
    constructor
    · intro hfirst
      omega
    · intro hnil
      omega

/-! ### Operands -/

/-- Whether `stdout` is found broken at the end. -/
def broken (p : Proc B.size) : Bool := p.stdout.flush.1 || p.stdout.flush.2.error

theorem broken_eq (p : Proc B.size) : broken p = p.stdout.flush.2.error := by
  unfold broken
  cases hflush : p.stdout.flush.1 with
  | false => rw [Bool.false_or]
  | true => rw [Bool.true_or, error_of_flush_fails hflush]

/-- **What a run leaves**: the operands were visited in order, none of them twice, each while
`stdout` had no error, and all of them unless it had one at last; then it is flushed. -/
structure Ran (env : Env B.size) (seed : Word) (bits : Bits) (paths : List CString)
    (p : Proc B.size) (exit : Exit) (p' : Proc B.size) (vs : List Visit) : Prop where
  visited : vs.map Visit.path <+: paths
  found : visits env (vs.map Visit.path) (inputs p) = (vs, inputs p')
  clean : ∀ k < vs.length, (p.stdout.puts (callsOf seed bits (vs.take k))).error = false
  broken : vs.length < paths.length → (p.stdout.puts (callsOf seed bits vs)).error = true
  stdout : p'.stdout = (p.stdout.puts (callsOf seed bits vs)).flush.2
  stderr : ∃ e, p'.stderr.given = p.stderr.given ++ (complaints env vs ++
    listing (if p'.stdout.error then [complaint env (text "standard output") e] else []))
  status : exit = if p'.stdout.error then .io else statusOf .ok vs

theorem Run.ran {env : Env B.size} {seed : Word} {bits : Bits} {paths : List CString}
    {p p₁ : Proc B.size} {vs : List Visit} (hrun : Run env seed bits p vs p₁)
    (hvisited : vs.map Visit.path <+: paths)
    (hbroken : vs.length < paths.length → p₁.stdout.error = true) (e : ℤ) : ∃ exit p',
      ((stdoutFailed env e p₁).bind fun r =>
        some (if r.1 then Exit.io else statusOf .ok vs, r.2)) = some (exit, p') ∧
      Ran env seed bits paths p exit p' vs := by
  obtain ⟨p', hfailed, hout, hin, e', herr⟩ := stdoutFailed_eq env e p₁
  have herror : (p₁.stdout.flush.1 || p₁.stdout.flush.2.error) = p'.stdout.error := by
    rw [hout]
    exact broken_eq p₁
  rw [herror] at hfailed herr
  refine ⟨_, p', by rw [hfailed, Option.bind_some], ?_⟩
  constructor
  · exact hvisited
  · rw [hin]
    exact hrun.visits_eq
  · exact hrun.clean
  · rw [← hrun.stdout_eq]
    exact hbroken
  · rw [hout, hrun.stdout_eq]
  · refine ⟨e', ?_⟩
    rw [herr, hrun.stderr_given, List.append_assoc]
    split_ifs
    · rw [listing, List.flatMap_singleton]
    · rfl
  · rfl

/-- **`main` over operands is a run.** -/
theorem runOperands_ran (env : Env B.size) (frame : Frame) {o : Opts} {seed : Word} {bits : Bits}
    (hseed : o.seed = seed) (hbits : o.bits = bits.toInt) (hdrop : argv.drop o.first = operands)
    (hfirst : o.first ≥ argv.length ↔ operands = []) (p : Proc B.size)
    (hclean : p.stdout.error = false) :
    ∃ exit p' vs, runOperands t env frame argv o p = some (exit, p') ∧
      Ran env seed bits (operandsOf operands) p exit p' vs := by
  rw [runOperands, hdrop]
  by_cases hnil : operands = []
  · obtain ⟨v, p₁, hpath, hv, hstep⟩ := hashPath_step t frame B env hseed hbits
      ⟨text "-", dash_noNul⟩ p
    have hop : operandsOf operands = [⟨text "-", dash_noNul⟩] := by rw [hnil, operandsOf]
    have hvisited :
      [v].map Visit.path <+: operandsOf operands := by rw [hop, List.map_singleton, hv]
    have hbroken : [v].length < (operandsOf operands).length → p₁.stdout.error = true := by
      rw [hop]
      exact fun h => absurd h (lt_irrefl _)
    obtain ⟨exit, p', hbehind, hran⟩ := Run.ran (.cons hclean hstep (.nil p₁)) hvisited hbroken 0
    refine ⟨exit, p', [v], ?_, hran⟩
    rw [if_pos (hfirst.mpr hnil), hpath, hnil, ← hbehind]
    cases hok : v.found.isOk <;> simp [operandLoop, statusOf, hok]
  · obtain ⟨e, vs, p₁, hloop, hrun, hprefix, hbroken⟩ :=
      operandLoop_run t frame B hseed hbits operands .ok p hclean
    have hop : operandsOf operands = operands := by
      obtain ⟨path, paths, hcons⟩ := List.exists_cons_of_ne_nil hnil
      rw [hcons, operandsOf]
    rw [hop]
    obtain ⟨exit, p', hbehind, hran⟩ := Run.ran hrun hprefix hbroken e
    refine ⟨exit, p', vs, ?_, hran⟩
    rw [if_neg (fun h => hnil (hfirst.mp h)), ← hbehind]
    simp only [Option.bind_eq_bind, Option.pure_def, Option.bind_some, hloop]

/-- **A run**, from its option section. -/
theorem main_ran (t : Target) {B : Buffer t} (env : Env B.size) (frame : Frame)
    (h : Section ((argv.map some).drop 1) ss (operands.map some)) (stdin : List (Read B.size))
    (out err : List Fate) : ∃ exit p' vs,
      main t env frame argv (.start stdin out err) = some (exit, p') ∧
      Ran env (lastSeed 0 ss) (lastBits .b64 ss) (operandsOf operands)
        (.start stdin out err) exit p' vs := by
  obtain ⟨p, hparse, hstatus, hseed, hbits, hdrop, hfirst⟩ := parse_section frame h
  obtain ⟨exit, p', vs, hrun, hran⟩ := runOperands_ran env frame hseed hbits hdrop hfirst
    (.start stdin out err) rfl
  refine ⟨exit, p', vs, ?_, hran⟩
  rw [main, hparse]
  simp only [Option.bind_eq_bind, Option.bind_some, hstatus, hrun]

/-! ### What is left behind -/

section Behind
variable {seed : Word} {bits : Bits} {paths : List CString} {stdin : List (Read B.size)}
  {out err : List Fate}
variable {exit : Exit} {p' : Proc B.size} {vs : List Visit}

theorem Ran.given (h : Ran env seed bits paths (.start stdin out err) exit p' vs) :
    p'.stdout.given = digests seed bits vs := by
  rw [h.stdout, given_flush, given_puts, flatten_callsOf]
  rfl

theorem Ran.complaints (h : Ran env seed bits paths (.start stdin out err) exit p' vs) :
    ∃ e, p'.stderr.given = Spec.Shell.complaints env vs ++
      listing (if p'.stdout.error then [complaint env (text "standard output") e] else []) :=
        h.stderr

/-- **All operands were visited, and everything is out**, if `stdout` has no error. -/
theorem Ran.whole (h : Ran env seed bits paths (.start stdin out err) exit p' vs)
    (hclean : p'.stdout.error = false) :
    vs.map Visit.path = paths ∧ p'.stdout.sent = digests seed bits vs := by
  have hgiven := h.given
  rw [h.stdout] at hclean hgiven ⊢
  have hflush := flush_of_clean hclean
  constructor
  · refine h.visited.eq_of_length_le ?_
    rw [List.length_map]
    by_contra hlt
    rw [error_flush (h.broken (by omega))] at hclean
    cases hclean
  · rw [sent_flush hflush hclean, ← hgiven, given_flush]

theorem entries_digests (seed : Word) (bits : Bits) (vs : List Visit) :
    entries (digests seed bits vs) = some (vs.filterMap (Visit.entry seed bits)) := entries_render _

theorem statusOf_ok : statusOf .ok vs = .ok ↔ ∀ v ∈ vs, v.found.isOk = true := by
  rw [statusOf, ← List.all_eq_true]
  split_ifs with hall
  · exact ⟨fun _ => hall, fun _ => rfl⟩
  · exact ⟨False.elim, fun h => absurd h hall⟩

theorem Ran.exit_ok (h : Ran env seed bits paths (.start stdin out err) exit p' vs) :
    (exit = .ok ↔ p'.stdout.error = false ∧ ∀ v ∈ vs, v.found.isOk = true) ∧
    (exit ≠ .ok → exit = .io) := by
  rw [h.status, ← statusOf_ok]
  cases p'.stdout.error with
  | true => exact ⟨⟨nofun, fun h => nomatch h.1⟩, fun _ => rfl⟩
  | false =>
    refine ⟨⟨fun h => ⟨rfl, h⟩, fun h => h.2⟩, fun hne => ?_⟩
    rw [if_neg Bool.false_ne_true, statusOf] at hne ⊢
    split_ifs at hne ⊢ with hall
    · exact absurd rfl hne
    · rfl

end Behind

/-! ### Without a run -/

/-- **What is left when a text is printed**, and nothing else is done. -/
structure Answered (env : Env B.size) (s : List Byte) (p : Proc B.size) (exit : Exit)
    (p' : Proc B.size) : Prop where
  inputs : inputs p' = inputs p
  stdout : p'.stdout = (p.stdout.put s).flush.2
  stderr : ∃ e, p'.stderr.given = p.stderr.given ++
    listing (if p'.stdout.error then [complaint env (text "standard output") e] else [])
  status : exit = if p'.stdout.error then .io else .ok

theorem printOnly_answered (env : Env B.size) (s : List Byte) (p : Proc B.size) : ∃ exit p',
    printOnly env s p = some (exit, p') ∧ Answered env s p exit p' := by
  obtain ⟨p', hfailed, hout, hin, e, herr⟩ := stdoutFailed_eq env 0 (p.toStdout s)
  have herror : ((p.toStdout s).stdout.flush.1 || (p.toStdout s).stdout.flush.2.error) =
      p'.stdout.error := by
    rw [hout]
    exact broken_eq (p.toStdout s)
  rw [herror] at hfailed herr
  refine ⟨_, p', ?_, hin, hout, ⟨e, ?_⟩, rfl⟩
  · rw [printOnly]
    simp only [hfailed, Option.bind_eq_bind, Option.bind_some]
    rfl
  · rw [herr]
    split_ifs
    · rw [listing, List.flatMap_singleton]
      rfl
    · rfl

/-- The text that is asked for. -/
def requestText (env : Env B.size) : Request → List Byte
  | .help => usageText
  | .showVersion => text "hayasum " ++ env.version.bytes ++ [newline]

/-- **A request** is answered with its text. -/
theorem main_answered (t : Target) (env : Env B.size) (frame : Frame) {q : Request}
    {parsed : Parsed} (h : parseArgs frame.tok 256 (argv.map some) frame.err = some parsed)
    (hstatus : parsed.status = told q)
    (p : Proc B.size) : ∃ exit p', main t env frame argv p = some (exit, p') ∧
      Answered env (requestText env q) p exit p' := by
  rw [main, h]
  simp only [Option.bind_eq_bind, Option.bind_some, hstatus]
  cases q with
  | help => exact printOnly_answered env usageText p
  | showVersion => exact printOnly_answered env _ p

/-- The two lines of a usage error. -/
def usageLines (m : List Byte) : List (List Byte) :=
  [text "hayasum: " ++ m, text "Try 'hayasum --help' for more information."]

/-- **A usage error** leaves its two lines. -/
theorem main_refused (t : Target) (env : Env B.size) (frame : Frame) {parsed : Parsed}
    (h : parseArgs frame.tok 256 (argv.map some) frame.err = some parsed)
    (hstatus : parsed.status = .usageError) (p : Proc B.size) : ∃ m p',
      Message m ∧ cstr parsed.err = some m ∧ main t env frame argv p = some (.usage, p') ∧
      inputs p' = inputs p ∧ p'.stdout = p.stdout ∧
      p'.stderr.given = p.stderr.given ++ listing (usageLines m) := by
  obtain ⟨m, hm, hread⟩ := parseArgs_usage frame.errmax h hstatus
  refine ⟨m, (p.toStderr (text "hayasum: " ++ m ++ [newline])).toStderr
    (text "Try 'hayasum --help' for more information.\n"), hm, hread, ?_, rfl, rfl, ?_⟩
  · rw [main, h]
    simp only [Option.bind_eq_bind, Option.bind_some, hstatus, hread]
    rfl
  · have htry : text "Try 'hayasum --help' for more information.\n" =
        text "Try 'hayasum --help' for more information." ++ [newline] := by decide
    show p.stderr.given ++ (text "hayasum: " ++ m ++ [newline]) ++
      text "Try 'hayasum --help' for more information.\n" = _
    rw [htry, List.append_assoc, listing, usageLines, List.flatMap_cons, List.flatMap_singleton]

theorem operands_of_section {args : List (Option CString)}
    (h : Section ((argv.map some).drop 1) ss args) :
    ∃ operands : List CString, args = operands.map some := by
  obtain ⟨front, hfront, -⟩ := parseLoop_section ⟨List.replicate 65 0, rfl⟩ 0 h 0 .b64 0 0 []
  refine ⟨(argv.drop 1).drop front.length, ?_⟩
  rw [List.map_drop, List.map_drop, hfront, List.drop_left]

/-- **`main` returns**, and a run is one wherever its arguments are split. -/
theorem main_returns (t : Target) {B : Buffer t} (env : Env B.size) (frame : Frame)
    (argv : List CString) (stdin : List (Read B.size)) (out err : List Fate) : ∃ exit p',
      main t env frame argv (.start stdin out err) = some (exit, p') ∧
      ∀ ss operands, Section ((argv.map some).drop 1) ss (operands.map some) → ∃ vs,
        Ran env (lastSeed 0 ss) (lastBits .b64 ss) (operandsOf operands)
          (.start stdin out err) exit p' vs := by
  obtain ⟨a, ⟨hrun, -⟩, first, ha⟩ := parseArgs_answers frame.tok (argv.map some)
  have hparse := ha 256 frame.err frame.errmax.ge
  obtain ⟨hsection, -⟩ := parseArgs_status frame.errmax.ge hparse
  have hnone : a.status ≠ .run → ∀ ss operands, ¬Section ((argv.map some).drop 1) ss operands :=
    fun hne ss operands hs => hne (hsection.mpr ⟨ss, operands, hs⟩)
  have hanswered : ∀ q, a.status = told q → ∃ exit p',
      main t env frame argv (.start stdin out err) = some (exit, p') := fun q hq => by
    obtain ⟨exit, p', hmain, -⟩ := main_answered t env frame hparse hq (.start stdin out err)
    exact ⟨exit, p', hmain⟩
  cases hstatus : a.status with
  | run =>
    obtain ⟨ss, hs⟩ := hrun hstatus
    obtain ⟨operands, hoperands⟩ := operands_of_section hs
    rw [hoperands] at hs
    obtain ⟨exit, p', -, hmain, -⟩ := main_ran t env frame hs stdin out err
    refine ⟨exit, p', hmain, fun ss' operands' hs' => ?_⟩
    obtain ⟨exit', p'', vs', hmain', hran⟩ := main_ran t env frame hs' stdin out err
    obtain ⟨rfl, rfl⟩ := Prod.mk.inj (Option.some.inj (hmain.symm.trans hmain'))
    exact ⟨vs', hran⟩
  | help =>
    obtain ⟨exit, p', hmain⟩ := hanswered .help hstatus
    exact ⟨exit, p', hmain, fun ss operands hs => absurd hs (hnone (by rw [hstatus]; decide) ss _)⟩
  | showVersion =>
    obtain ⟨exit, p', hmain⟩ := hanswered .showVersion hstatus
    exact ⟨exit, p', hmain, fun ss operands hs => absurd hs (hnone (by rw [hstatus]; decide) ss _)⟩
  | usageError =>
    obtain ⟨m, p', -, -, hmain, -⟩ := main_refused t env frame hparse hstatus (.start stdin out err)
    exact ⟨.usage, p', hmain, fun ss operands hs =>
      absurd hs (hnone (by rw [hstatus]; decide) ss _)⟩

/-- The lines of some complaints. -/
def complaintLines (env : Env B.size) (vs : List Visit) (p' : Proc B.size) (e : ℤ) :
    List (List Byte) :=
  vs.filterMap (Visit.complaint env) ++
    if p'.stdout.error then [complaint env (text "standard output") e] else []

theorem not_mem_complaint {c : Byte} (hc : c = newline ∨ c = carriageReturn) (env : Env B.size)
    (label : List Byte) (e : ℤ) : c ∉ complaint env label e := by
  have hfront : c ∉ text "hayasum: " := by rcases hc with rfl | rfl <;> decide
  have hcolon : c ∉ text ": " := by rcases hc with rfl | rfl <;> decide
  have hname : c ∉ escapes.escape label := by
    rcases hc with rfl | rfl
    · exact newline_not_mem _
    · exact carriageReturn_not_mem _
  have hreason : c ∉ reason env e := by
    unfold reason
    split_ifs
    · rcases hc with rfl | rfl
      · exact (env.line e).1
      · exact (env.line e).2
    · rcases hc with rfl | rfl <;> decide
  simp only [complaint, List.mem_append, hfront, hname, hcolon, hreason, or_self, not_false_eq_true]

theorem not_mem_complaintLines {c : Byte} (hc : c = newline ∨ c = carriageReturn) {env : Env B.size}
    {vs : List Visit} {p' : Proc B.size} {e : ℤ} : ∀ l ∈ complaintLines env vs p' e, c ∉ l := by
  intro l hl
  rcases List.mem_append.mp hl with hl | hl
  · obtain ⟨v, -, hv⟩ := List.mem_filterMap.mp hl
    cases hfound : v.found with
    | ok data => rw [Visit.complaint, hfound] at hv; cases hv
    | error e =>
      rw [Visit.complaint, hfound] at hv
      rw [← Option.some.inj hv]
      exact not_mem_complaint hc env _ _
  · split_ifs at hl
    · rw [List.mem_singleton.mp hl]
      exact not_mem_complaint hc env _ _
    · cases hl

/-- There are as many entries as operands that could be read, -/
theorem length_entries (seed : Word) (bits : Bits) (vs : List Visit) :
    (vs.filterMap (Visit.entry seed bits)).length = vs.countP fun v => v.found.isOk := by
  rw [List.length_filterMap_eq_countP]
  congr 1
  funext v
  unfold Visit.entry
  cases v.found <;> rfl

/-- and as many complaints as others. -/
theorem length_complaints (env : Env B.size) (vs : List Visit) :
    (vs.filterMap (Visit.complaint env)).length = vs.countP fun v => !v.found.isOk := by
  rw [List.length_filterMap_eq_countP]
  congr 1
  funext v
  unfold Visit.complaint
  cases v.found <;> rfl

theorem not_mem_listing {c : Byte} {ls : List (List Byte)} (hc : c ≠ newline)
    (h : ∀ l ∈ ls, c ∉ l) : c ∉ listing ls := by
  intro hmem
  obtain ⟨l, hl, hin⟩ := List.mem_flatMap.mp hmem
  rcases List.mem_append.mp hin with hin | hin
  · exact h l hl hin
  · exact hc (List.mem_singleton.mp hin)

theorem found_ok {vs : List Visit} (h : ∀ v ∈ vs, v.found.isOk = true) :
    ∃ datas : List (List Byte), vs.map Visit.found = datas.map .ok := by
  induction vs with
  | nil => exact ⟨[], rfl⟩
  | cons v vs ih =>
    obtain ⟨datas, hdatas⟩ := ih fun w hw => h w (List.mem_cons_of_mem v hw)
    cases hfound : v.found with
    | error e =>
      have hok := h v List.mem_cons_self
      rw [hfound] at hok
      cases hok
    | ok data => exact ⟨data :: datas, by rw [List.map_cons, hfound, hdatas, List.map_cons]⟩

theorem entries_eq_zipWith (seed : Word) (bits : Bits) {vs : List Visit} :
    ∀ {datas : List (List Byte)},
    vs.map Visit.found = datas.map .ok → vs.filterMap (Visit.entry seed bits) =
      List.zipWith (fun path data => ⟨digestOf seed bits data, path.bytes⟩)
        (vs.map Visit.path) datas := by
  induction vs with
  | nil => exact fun _ => rfl
  | cons v vs ih =>
    intro datas h
    cases datas with
    | nil => cases h
    | cons data datas =>
      rw [List.map_cons, List.map_cons] at h
      obtain ⟨hv, hvs⟩ := List.cons.inj h
      have hentry : v.entry seed bits = some ⟨digestOf seed bits data, v.path.bytes⟩ := by
        rw [Visit.entry, hv]
      rw [List.filterMap_cons_some hentry, ih hvs, List.map_cons, List.zipWith_cons_cons]

/-- Where something could not be read, there is a complaint. -/
theorem complaints_ne_nil (env : Env B.size) {vs : List Visit} {v : Visit} (hv : v ∈ vs)
    (hfound : v.found.isOk = false) : complaints env vs ≠ [] := by
  intro hnil
  have hlines : ∀ l ∈ vs.filterMap (Visit.complaint env), False := by
    intro l hl
    have hlast := List.flatMap_eq_nil_iff.mp hnil l hl
    exact List.cons_ne_nil _ _ (List.append_eq_nil_iff.mp hlast).2
  cases hf : v.found with
  | ok data => rw [hf] at hfound; cases hfound
  | error e => exact hlines _ (List.mem_filterMap.mpr ⟨v, hv, by rw [Visit.complaint, hf]⟩)

/-! ### A small world -/

theorem reason_line : newline ∉ (arg "No such file").bytes ∧
    carriageReturn ∉ (arg "No such file").bytes := by
  decide

/-- A world with one file in it. -/
def world : Env small.size where
  fopen _ path := if path.bytes = text "a" then .file pieces else .null 2
  strerror _ := arg "No such file"
  line _ := reason_line
  version := arg "1.0"

/-- A stack. -/
def blank : Frame := ⟨⟨_, length_tok⟩, _, length_err, .zeroed⟩

/-- A call that fails: the disk is full. -/
def diskFull : Fate := ⟨0, true, false, some 28⟩

/-! ### Main results -/

/-- **The run**, for all arguments. If there is an option section with operands behind it, `main`
goes over the operands in order. Each is looked up once, and only if `stdout` took all calls for
those before it; it leaves its line there, or its complaint on `stderr`. If operands are left out,
`stdout` had an error behind the line of the last one that was looked up. -/
theorem program (t : Target) (B : Buffer t) (env : Env B.size) (frame : Frame) (argv : List CString)
    (stdin : List (Read B.size)) (out err : List Fate) : ∃ exit p',
      main t env frame argv (.start stdin out err) = some (exit, p') ∧
      ∀ ss operands, Section ((argv.map some).drop 1) ss (operands.map some) →
        let seed := lastSeed 0 ss
        let bits := lastBits .b64 ss
        ∃ vs, vs.map Visit.path <+: operandsOf operands ∧
          visits env (vs.map Visit.path) ⟨stdin, 0⟩ = (vs, inputs p') ∧
          (∀ k < vs.length, ((Out.opened out).puts (callsOf seed bits (vs.take k))).error = false) ∧
          (vs.length < (operandsOf operands).length →
            ((Out.opened out).puts (callsOf seed bits vs)).error = true ∧ p'.stdout.error = true) ∧
          p'.stdout = ((Out.opened out).puts (callsOf seed bits vs)).flush.2 ∧
          p'.stdout.given = digests seed bits vs ∧ p'.stdout.sent.Sublist (digests seed bits vs) ∧
          exit = (if p'.stdout.error then .io else statusOf .ok vs) ∧
          ∃ e, p'.stderr.given = complaints env vs ++
            listing (if p'.stdout.error then
              [complaint env (text "standard output") e] else []) := by
  obtain ⟨exit, p', hmain, hruns⟩ := main_returns t env frame argv stdin out err
  refine ⟨exit, p', hmain, fun ss operands hs => ?_⟩
  obtain ⟨vs, hran⟩ := hruns ss operands hs
  refine ⟨vs, hran.visited, hran.found, hran.clean, fun hlt => ⟨hran.broken hlt, ?_⟩, hran.stdout,
    hran.given, ?_, hran.status, hran.stderr⟩
  · rw [hran.stdout]
    exact error_flush (hran.broken hlt)
  · rw [← hran.given]
    exact sent_sublist p'.stdout

/-- The last call for the first line fails: the other operands are left out. -/
theorem program_breaks : ∃ exit p' vs,
    main host world blank [arg "hayasum", arg "a", arg "b", arg "a"]
      (.start [] [.pass, .pass, diskFull] []) =
      some (exit, p') ∧ exit = .io ∧ p'.opened = 1 ∧ p'.stdout.error = true ∧
    vs.map Visit.path <+: [arg "a", arg "b", arg "a"] ∧
    visits world (vs.map Visit.path) ⟨[], 0⟩ = (vs, inputs p') ∧
    p'.stdout.given = digests 0 .b64 vs ∧ p'.stdout.sent.Sublist (digests 0 .b64 vs) ∧
    ∃ e, p'.stderr.given = complaints world vs ++
      listing [complaint world (text "standard output") e] := by
  obtain ⟨exit, p', hmain, hruns⟩ := program host small world blank
    [arg "hayasum", arg "a", arg "b", arg "a"] [] [.pass, .pass, diskFull] []
  have hrun : (main host world blank [arg "hayasum", arg "a", arg "b", arg "a"]
      (.start [] [.pass, .pass, diskFull] [])).map (fun r => (r.1, r.2.opened, r.2.stdout.error)) =
      some (.io, 1, true) := by decide +kernel
  rw [hmain, Option.map_some, Option.some.injEq, Prod.mk.injEq, Prod.mk.injEq] at hrun
  obtain ⟨hexit, hopened, herror⟩ := hrun
  have hplain : ∀ s ∈ some (arg "a"), ¬Dashed s := by
    rintro s hs ⟨c, t, ha⟩
    cases hs
    cases ha
  obtain ⟨vs, hpaths, hvisits, -, -, -, hgiven, hsent, -, e, herr⟩ :=
    hruns [] [arg "a", arg "b", arg "a"] (.operand hplain)
  rw [herror, if_pos rfl] at herr
  exact ⟨exit, p', vs, hmain, hexit, hopened, herror, hpaths, hvisits, hgiven, hsent, e, herr⟩

/-- **What is delivered.** `main` exits with 0 exactly if every operand could be read and `stdout`
took everything. What went out is then a checksum list with one entry for each operand, in order:
its name, and the digest of what is in it; and there is no complaint. Otherwise it exits with 1, and
there is one. -/
theorem delivers (t : Target) (B : Buffer t) (env : Env B.size) (frame : Frame)
    (argv : List CString) (stdin : List (Read B.size)) (out err : List Fate) : ∃ exit p',
      main t env frame argv (.start stdin out err) = some (exit, p') ∧
      ∀ ss operands, Section ((argv.map some).drop 1) ss (operands.map some) →
        let paths := operandsOf operands
        let vs := (visits env paths ⟨stdin, 0⟩).1
        (exit = .ok ↔ p'.stdout.error = false ∧ ∀ v ∈ vs, v.found.isOk = true) ∧
        (exit = .ok → p'.stderr.given = [] ∧ ∃ datas, vs.map Visit.found = datas.map .ok ∧
          entries p'.stdout.sent = some (List.zipWith (fun path data =>
            ⟨digestOf (lastSeed 0 ss) (lastBits .b64 ss) data, path.bytes⟩) paths datas)) ∧
        (exit ≠ .ok → exit = .io ∧ p'.stderr.given ≠ []) := by
  obtain ⟨exit, p', hmain, hruns⟩ := main_returns t env frame argv stdin out err
  refine ⟨exit, p', hmain, fun ss operands hs => ?_⟩
  obtain ⟨vs, hran⟩ := hruns ss operands hs
  obtain ⟨e, herr⟩ := hran.complaints
  obtain ⟨hok, hio⟩ := hran.exit_ok
  -- without an error these are all
  have hall : p'.stdout.error = false →
      visits env (operandsOf operands) ⟨stdin, 0⟩ = (vs, inputs p') := fun hclean => by
    rw [← (hran.whole hclean).1]
    exact hran.found
  dsimp only
  refine ⟨?_, fun hexit => ?_, fun hexit => ⟨hio hexit, ?_⟩⟩
  · rw [hok]
    constructor
    · rintro ⟨hclean, hfound⟩
      exact ⟨hclean, by rwa [hall hclean]⟩
    · rintro ⟨hclean, hfound⟩
      rw [hall hclean] at hfound
      exact ⟨hclean, hfound⟩
  · obtain ⟨hclean, hfound⟩ := hok.mp hexit
    obtain ⟨hpaths, hsent⟩ := hran.whole hclean
    obtain ⟨datas, hdatas⟩ := found_ok hfound
    have hquiet : complaints env vs = [] := by
      have hnone : vs.filterMap (Visit.complaint env) = [] := by
        refine List.filterMap_eq_nil_iff.mpr fun v hv => ?_
        cases hv' : v.found with
        | ok data => rw [Visit.complaint, hv']
        | error e =>
          have hisok := hfound v hv
          rw [hv'] at hisok
          cases hisok
      rw [complaints, hnone]
      rfl
    rw [hclean, if_neg Bool.false_ne_true, hquiet] at herr
    refine ⟨herr, datas, by rw [hall hclean, hdatas], ?_⟩
    rw [hsent, entries_digests, entries_eq_zipWith _ _ hdatas, hpaths]
  · rw [herr]
    intro hnil
    obtain ⟨hcomplaints, hlast⟩ := List.append_eq_nil_iff.mp hnil
    refine hexit (hok.mpr ⟨?_, fun v hv => ?_⟩)
    · by_contra herror
      rw [if_pos (Bool.not_eq_false _ ▸ herror), listing, List.flatMap_singleton] at hlast
      exact List.cons_ne_nil _ _ (List.append_eq_nil_iff.mp hlast).2
    · by_contra hfound
      exact complaints_ne_nil env hv (Bool.eq_false_iff.mpr hfound) hcomplaints

theorem section_seed {a : CString} (ha : ¬Dashed a) (rest : List (Option CString)) :
    Section ([some (arg "-s"), some (arg "7")] ++ some a :: rest) [.seed 7] (some a :: rest) := by
  have hdigit : Digit 10 (char '7') 7 := by decide
  have hseven : Numeral (arg "7").bytes 7 :=
    .decimal ⟨List.cons_ne_nil _ _, [7], .cons hdigit .nil, rfl⟩
  exact .cons (.seed (by decide) hseven) (.apart rfl) (.operand fun s hs => Option.some.inj hs ▸ ha)

/-- Two operands that can be read: a list of two entries. -/
theorem delivers_two : ∃ exit p',
    main host world blank [arg "hayasum", arg "-s", arg "7", arg "a", arg "a"] (.start [] [] []) =
      some (exit, p') ∧ exit = .ok ∧ p'.stderr.given = [] ∧
    entries p'.stdout.sent = some [⟨digestOf 7 .b64 (text "hayasumof"), text "a"⟩,
      ⟨digestOf 7 .b64 (text "hayasumof"), text "a"⟩] := by
  obtain ⟨exit, p', hmain, hruns⟩ := delivers host small world blank
    [arg "hayasum", arg "-s", arg "7", arg "a", arg "a"] [] [] []
  have hrun : (main host world blank [arg "hayasum", arg "-s", arg "7", arg "a", arg "a"]
      (.start [] [] [])).map Prod.fst = some .ok := by decide +kernel
  rw [hmain, Option.map_some, Option.some.injEq] at hrun
  have hplain : ¬Dashed (arg "a") := by
    rintro ⟨c, t, ha⟩
    cases ha
  obtain ⟨-, hok, -⟩ := hruns [.seed 7] [arg "a", arg "a"] (section_seed hplain _)
  obtain ⟨hquiet, datas, hdatas, hsent⟩ := hok hrun
  have hfound : (visits world (operandsOf [arg "a", arg "a"]) ⟨[], 0⟩).1.map Visit.found =
      [text "hayasumof", text "hayasumof"].map .ok := rfl
  have hinj : Function.Injective (Except.ok : List Byte → Except ℤ (List Byte)) :=
    fun _ _ => Except.ok.inj
  rw [List.map_injective_iff.mpr hinj (hdatas.symm.trans hfound)] at hsent
  exact ⟨exit, p', hmain, hrun, hquiet, hsent⟩

/-- **Every input is one line**, whatever its name: of `stdout` if it could be read, of `stderr` if
not. What is on `stdout` is a checksum list, whatever else went wrong. -/
theorem lines (t : Target) (B : Buffer t) (env : Env B.size) (frame : Frame) (argv : List CString)
    (stdin : List (Read B.size)) (out err : List Fate) : ∃ exit p',
      main t env frame argv (.start stdin out err) = some (exit, p') ∧
      ∀ ss operands, Section ((argv.map some).drop 1) ss (operands.map some) → ∃ vs,
        vs.map Visit.path <+: operandsOf operands ∧
        visits env (vs.map Visit.path) ⟨stdin, 0⟩ = (vs, inputs p') ∧
        entries p'.stdout.given =
          some (vs.filterMap (Visit.entry (lastSeed 0 ss) (lastBits .b64 ss))) ∧
        p'.stdout.given.count newline = vs.countP (fun v => v.found.isOk) ∧
        p'.stderr.given.count newline = vs.countP (fun v => !v.found.isOk) +
          (if p'.stdout.error then 1 else 0) ∧
        carriageReturn ∉ p'.stdout.given ∧ carriageReturn ∉ p'.stderr.given := by
  obtain ⟨exit, p', hmain, hruns⟩ := main_returns t env frame argv stdin out err
  refine ⟨exit, p', hmain, fun ss operands hs => ?_⟩
  obtain ⟨vs, hran⟩ := hruns ss operands hs
  obtain ⟨e, herr⟩ := hran.complaints
  have hlisting : p'.stderr.given = listing (complaintLines env vs p' e) := by
    rw [herr, complaintLines, listing_append]
    rfl
  refine ⟨vs, hran.visited, hran.found, ?_, ?_, ?_, ?_, ?_⟩
  · rw [hran.given, entries_digests]
  · rw [hran.given, digests, listing, count_flatMap fun l hl => ?_, List.length_map, length_entries]
    obtain ⟨e, -, rfl⟩ := List.mem_map.mp hl
    exact not_mem_render (.inl rfl) e
  · rw [hlisting, listing, count_flatMap (not_mem_complaintLines (.inl rfl)), complaintLines,
      List.length_append, length_complaints]
    split_ifs <;> rfl
  · rw [hran.given]
    refine not_mem_listing (by decide) fun l hl => ?_
    obtain ⟨e, -, rfl⟩ := List.mem_map.mp hl
    exact not_mem_render (.inr rfl) e
  · rw [hlisting]
    exact not_mem_listing (by decide) (not_mem_complaintLines (.inr rfl))

/-- One operand that can be read, and one that cannot and has a newline in its name. -/
theorem lines_two : ∃ exit p', ∃ vs : List Visit,
    main host world blank [arg "hayasum", arg "-s", arg "7", arg "a", arg "b\n"] (.start [] [] []) =
      some (exit, p') ∧ exit = .io ∧ p'.opened = 2 ∧ p'.stdout.error = false ∧
    entries p'.stdout.given = some (vs.filterMap (Visit.entry 7 .b64)) ∧
    p'.stdout.given.count newline = 1 ∧ vs.countP (fun v => v.found.isOk) = 1 ∧
    p'.stderr.given.count newline = 1 ∧ vs.countP (fun v => !v.found.isOk) = 1 := by
  obtain ⟨exit, p', hmain, hruns⟩ := lines host small world blank
    [arg "hayasum", arg "-s", arg "7", arg "a", arg "b\n"] [] [] []
  have hrun : (main host world blank [arg "hayasum", arg "-s", arg "7", arg "a", arg "b\n"]
      (.start [] [] [])).map (fun r =>
      (r.1, r.2.opened, r.2.stdout.error, r.2.stdout.given.count newline,
        r.2.stderr.given.count newline)) = some (.io, 2, false, 1, 1) := by decide +kernel
  rw [hmain, Option.map_some, Option.some.injEq, Prod.mk.injEq, Prod.mk.injEq, Prod.mk.injEq,
    Prod.mk.injEq] at hrun
  obtain ⟨hexit, hopened, herror, hone, hother⟩ := hrun
  have hplain : ¬Dashed (arg "a") := by
    rintro ⟨c, t, ha⟩
    cases ha
  obtain ⟨vs, -, -, hentries, hread, hfailed, -⟩ :=
    hruns [.seed 7] [arg "a", arg "b\n"] (section_seed hplain _)
  rw [herror, if_neg Bool.false_ne_true, Nat.add_zero] at hfailed
  exact ⟨exit, p', vs, hmain, hexit, hopened, herror, hentries, hone, hread.symm.trans hone, hother,
    hfailed.symm.trans hother⟩

/-- **By the arguments.** There is a run exactly if they have an option section, and a text is
printed exactly if it is asked for; on other arguments there is a usage error. A run never exits
with 2. Without a run nothing is opened or read. On a usage error `main` exits with 2, and leaves
its message on `stderr`, two lines of printable text, and nothing on `stdout`. On a request the text
is on `stdout`, and the exit status is 0 exactly if all of it was taken. -/
theorem no_run (t : Target) (B : Buffer t) (env : Env B.size) (frame : Frame) (argv : List CString)
    (stdin : List (Read B.size)) (out err : List Fate) : ∃ exit p' parsed,
      main t env frame argv (.start stdin out err) = some (exit, p') ∧
      parseArgs frame.tok 256 (argv.map some) frame.err = some parsed ∧
      (parsed.status = .run ↔ ∃ ss operands, Section ((argv.map some).drop 1) ss operands) ∧
      (∀ q, parsed.status = told q ↔ Requested q ((argv.map some).drop 1)) ∧
      (parsed.status = .run → exit ≠ .usage) ∧
      (parsed.status ≠ .run → inputs p' = ⟨stdin, 0⟩) ∧
      (parsed.status = .usageError → exit = .usage ∧ p'.stdout = .opened out ∧
        ∃ m, Message m ∧ cstr parsed.err = some m ∧ p'.stderr.given = listing (usageLines m)) ∧
      ∀ q, parsed.status = told q →
        p'.stdout = ((Out.opened out).put (requestText env q)).flush.2 ∧
        (exit = .ok ↔ p'.stdout.error = false) ∧
        (exit = .ok → p'.stdout.sent = requestText env q ∧ p'.stderr.given = []) ∧
        (exit ≠ .ok → exit = .io ∧
          ∃ e, p'.stderr.given = listing [complaint env (text "standard output") e]) := by
  obtain ⟨exit, p', hmain, hruns⟩ := main_returns t env frame argv stdin out err
  obtain ⟨a, -, first, ha⟩ := parseArgs_answers frame.tok (argv.map some)
  have hparse := ha 256 frame.err frame.errmax.ge
  generalize a.parsed first first (cleared frame.err 256) 256 = parsed at hparse
  obtain ⟨hrun, htold⟩ := parseArgs_status frame.errmax.ge hparse
  have hrefused := fun hstatus => main_refused t env frame hparse hstatus (.start stdin out err)
  have hanswered : ∀ q, parsed.status = told q →
      Answered env (requestText env q) (.start stdin out err) exit p' := fun q hq => by
    obtain ⟨exit', p'', hmain', h⟩ := main_answered t env frame hparse hq (.start stdin out err)
    obtain ⟨rfl, rfl⟩ := Prod.mk.inj (Option.some.inj (hmain.symm.trans hmain'))
    exact h
  refine ⟨exit, p', parsed, hmain, hparse, hrun, htold, fun hstatus => ?_, fun hstatus => ?_,
    fun hstatus => ?_, fun q hq => ?_⟩
  · obtain ⟨ss, args, hs⟩ := hrun.mp hstatus
    obtain ⟨operands, rfl⟩ := operands_of_section hs
    obtain ⟨vs, hran⟩ := hruns ss operands hs
    rintro rfl
    exact nomatch hran.exit_ok.2 nofun
  · cases hcase : parsed.status with
    | run => exact absurd hcase hstatus
    | help => exact (hanswered .help hcase).inputs
    | showVersion => exact (hanswered .showVersion hcase).inputs
    | usageError =>
      obtain ⟨m, p'', -, -, hmain', hin, -⟩ := hrefused hcase
      obtain ⟨-, rfl⟩ := Prod.mk.inj (Option.some.inj (hmain.symm.trans hmain'))
      exact hin
  · obtain ⟨m, p'', hm, hread, hmain', -, hout, herr⟩ := hrefused hstatus
    obtain ⟨rfl, rfl⟩ := Prod.mk.inj (Option.some.inj (hmain.symm.trans hmain'))
    exact ⟨rfl, hout, m, hm, hread, herr⟩
  · obtain ⟨-, hout, ⟨e, herr⟩, hexit⟩ := hanswered q hq
    refine ⟨hout, ?_⟩
    cases herror : p'.stdout.error with
    | true =>
      rw [herror] at hexit herr
      refine ⟨⟨fun h => ?_, nofun⟩, fun h => ?_, fun _ => ⟨hexit, e, herr⟩⟩
      · rw [hexit] at h
        cases h
      · rw [hexit] at h
        cases h
    | false =>
      rw [herror] at hexit herr
      refine ⟨⟨fun _ => rfl, fun _ => hexit⟩, fun _ => ⟨?_, herr⟩, fun h => absurd hexit h⟩
      rw [hout] at herror ⊢
      rw [sent_flush (flush_of_clean herror) herror]
      rfl

/-- An option that there is not, and a request on a disk that is full. -/
theorem no_run_refused :
    (∃ exit p', main host world blank [arg "hayasum", arg "-x", arg "a"] (.start [] [] []) =
        some (exit, p') ∧ exit = .usage ∧ p'.opened = 0 ∧ p'.stdout.given = [] ∧
      p'.stderr.given = listing (usageLines (text "unknown option '-x'"))) ∧
    (∃ exit p', main host world blank [arg "hayasum", arg "-h", arg "a"] (.start [] [diskFull] []) =
        some (exit, p') ∧ exit = .io ∧ p'.opened = 0 ∧ p'.stdout.given = usageText ∧
      p'.stdout.sent = [] ∧ ∃ e, p'.stderr.given =
        listing [complaint world (text "standard output") e]) := by
  constructor
  · obtain ⟨exit, p', parsed, hmain, hparse, -, -, -, hin, husage, -⟩ :=
      no_run host small world blank [arg "hayasum", arg "-x", arg "a"] [] [] []
    have hread :
      (parseArgs blank.tok 256 ([arg "hayasum", arg "-x", arg "a"].map some) blank.err).map
        (fun p => (p.status, cstr p.err)) =
          some (.usageError, some (text "unknown option '-x'")) := by
      decide +kernel
    rw [hparse, Option.map_some, Option.some.injEq, Prod.mk.injEq] at hread
    obtain ⟨hexit, hout, m, -, hm, herr⟩ := husage hread.1
    obtain rfl := Option.some.inj (hread.2.symm.trans hm)
    have hnothing := hin (by rw [hread.1]; decide)
    exact ⟨exit, p', hmain, hexit, congrArg Inputs.opened hnothing, by rw [hout]; rfl, herr⟩
  · obtain ⟨exit, p', parsed, hmain, hparse, -, -, -, hin, -, htold⟩ :=
      no_run host small world blank [arg "hayasum", arg "-h", arg "a"] [] [diskFull] []
    have hread :
      (parseArgs blank.tok 256 ([arg "hayasum", arg "-h", arg "a"].map some) blank.err).map
        Parsed.status = some .help := by decide +kernel
    rw [hparse, Option.map_some, Option.some.injEq] at hread
    obtain ⟨hout, hexit, -, hfail⟩ := htold .help hread
    have hnothing := hin (by rw [hread]; decide)
    have herror : p'.stdout.error = true := by rw [hout]; rfl
    have hne : exit ≠ .ok := fun h => by
      rw [hexit.mp h] at herror
      cases herror
    obtain ⟨hio, herr⟩ := hfail hne
    have hgiven : p'.stdout.given = usageText := by
      rw [hout, given_flush, given_put]
      exact List.nil_append usageText
    exact ⟨exit, p', hmain, hio, congrArg Inputs.opened hnothing, hgiven, by rw [hout]; rfl, herr⟩

end Hayahash.Main.Shell
