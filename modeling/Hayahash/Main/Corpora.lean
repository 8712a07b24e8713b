import Hayahash.Refine.Corpora
import Hayahash.Refine.Generate

/-! # The corpus, from the generator to the ports

* **`readers`**: the test of every port passes on the right corpora that it can read and on no other
  file, and no file it passes on is a beginning of another one.
* **`generator`**: what every run of the generator leaves. With status 0 there is the corpus that is
  drawn, and the test of every port that can read it passes.
* **`coverage`**: what is in that corpus. -/

namespace Hayahash.Main.Corpora

open Hayahash.Lib.Bytes Hayahash.Lib.Wire Hayahash.Lib.Stdio
open Hayahash.C.Primitives Hayahash.Cli.Output Hayahash.Cli.Generate
open Hayahash.Ports.Differential
open Hayahash.Spec.Corpora Hayahash.Spec.Draws Hayahash.Refine.Corpora Hayahash.Refine.Generate

/-! ### The readers -/

theorem reads_file (r : Reader) {file : List Byte} (hle : file.length ≤ r.limit) :
    ∃ hi, Reads (r.harness file) file hi := by
  cases r with
  | go w => exact ⟨_, go_reads w hle⟩
  | rust w =>
    have hroom : file.length ≤ w.val.maxInt := hle
    exact ⟨_, rust_reads w (by omega)⟩
  | zig w reached => exact ⟨_, zig_reads w (hle.trans (min_le_left _ _))⟩
  | java => exact ⟨_, java_reads hle⟩
  | csharp => exact ⟨_, csharp_reads hle⟩
  | python t => exact ⟨_, python_reads hle⟩

theorem accepts_iff (r : Reader) (room : ℕ) (file : List Byte) : r.accepts room file = true ↔
    r.Loads room file ∧ ∃ c : Corpus, c.Fits ∧ c.Right ∧ file = c.bytes := by
  rw [Reader.accepts, Bool.and_eq_true, decide_eq_true_iff]
  refine and_congr_right fun hloads => ?_
  obtain ⟨hi, hreads⟩ := reads_file r hloads.2
  exact hreads.passes_iff

/-- Behind a right corpus nothing can stand. -/
theorem bytes_append {c c' : Corpus} {rest : List Byte} (h : c.Fits ∧ c.Right)
    (h' : c'.Fits ∧ c'.Right) (heq : c'.bytes = c.bytes ++ rest) : c' = c ∧ rest = [] := by
  have hc : Corpus.format.Begins c'.bytes c rest := ⟨(Corpus.format_valid c).mpr h, heq⟩
  have hc' : Corpus.format.Begins c'.bytes c' [] :=
    ⟨(Corpus.format_valid c').mpr h', (List.append_nil _).symm⟩
  obtain ⟨rfl, hrest⟩ := hc'.unique hc
  exact ⟨rfl, hrest.symm⟩

/-- **The test of a port passes exactly on right corpora** that it can read: no longer than there is
room for, and no longer than the port takes (the Zig test no more than 512 MiB). A file that a test
passes on has neither been cut off, nor is there anything behind it, for the test of any port. -/
theorem readers (r : Reader) (room : ℕ) (file : List Byte) :
    (r.accepts room file = true ↔ (file.length ≤ room ∧ file.length ≤ r.limit) ∧
      ∃ c : Corpus, c.Fits ∧ c.Right ∧ file = c.bytes) ∧
    ∀ (r' : Reader) (room' : ℕ) (rest : List Byte), r.accepts room file = true →
      r'.accepts room' (file ++ rest) = true → rest = [] := by
  refine ⟨accepts_iff r room file, fun r' room' rest hf hg => ?_⟩
  obtain ⟨-, c, hfits, hright, hbytes⟩ := (accepts_iff r room file).mp hf
  obtain ⟨-, c', hfits', hright', hbytes'⟩ := (accepts_iff r' room' (file ++ rest)).mp hg
  rw [hbytes] at hbytes'
  exact (bytes_append ⟨hfits, hright⟩ ⟨hfits', hright'⟩ hbytes'.symm).2

theorem maxCases_lt {n : ℕ} (h : n ≤ maxCases) : n < 2 ^ 32 := h.trans_lt (by decide)

/-- **What `main` leaves**: the arguments are refused, or the file cannot be opened, or
`run_corpus`. -/
theorem main_cases (t : Target) (env : Env) (argv : List CString) : ∃ d, main t env argv = some d ∧
    ((∃ m, parseArgs argv = some (.error m) ∧ d = ⟨2, none, m, 0⟩) ∨
      ∃ path seed count, parseArgs argv = some (.ok (path, seed, count)) ∧
        ((∃ e m, env.fopen path = .error e ∧ d = ⟨1, none, m, 0⟩) ∨
          ∃ fates, env.fopen path = .ok fates ∧ run t env path seed count fates = some d)) := by
  obtain ⟨r, hr, -⟩ := parseArgs_some argv
  rw [main, hr]
  cases r with
  | error m => exact ⟨_, rfl, .inl ⟨m, rfl, rfl⟩⟩
  | ok p =>
    obtain ⟨path, seed, count⟩ := p
    simp only [Option.bind_eq_bind, Option.bind_some]
    cases hopen : env.fopen path with
    | error e => exact ⟨_, rfl, .inr ⟨path, seed, count, rfl, .inl ⟨e, _, hopen, rfl⟩⟩⟩
    | ok fates =>
      obtain ⟨d, out, hrun, -⟩ := run_corpus t env path seed count fates
      exact ⟨_, hrun, .inr ⟨path, seed, count, rfl, .inr ⟨fates, hopen, hrun⟩⟩⟩

theorem main_zero {t : Target} {env : Env} {argv : List CString} {d : Done}
    (h : main t env argv = some d)
    (h0 : d.status = 0) : ∃ path seed count out, parseArgs argv = some (.ok (path, seed, count)) ∧
      minCases ≤ count.toNat ∧ count.toNat ≤ maxCases ∧ d.output = some out ∧
      out.sent = (corpusOf seed count.toNat).bytes := by
  obtain ⟨d', hd', hcases⟩ := main_cases t env argv
  obtain rfl : d = d' := Option.some.inj (h.symm.trans hd')
  rcases hcases with ⟨m, -, rfl⟩ | ⟨path, seed, count, hargs, ⟨e, m, -, rfl⟩ | ⟨fates, -, hrun⟩⟩
  · cases h0
  · cases h0
  · obtain ⟨r, hr, hcount⟩ := parseArgs_some argv
    obtain ⟨hmin, hmax⟩ := hcount path seed count (Option.some.inj (hr.symm.trans hargs))
    obtain ⟨d', out, hrun', hout, hleft⟩ := run_corpus t env path seed count fates
    obtain rfl := Option.some.inj (hrun.symm.trans hrun')
    rcases hleft with ⟨-, -, hsent⟩ | ⟨hone, -⟩
    · exact ⟨path, seed, count, out, hargs, hmin, hmax, hout, hsent⟩
    · cases h0.symm.trans hone

theorem casesAt_get {w : ℕ → Word} {n j : ℕ} (h : j < n) (i k : ℕ) : ∃ k',
    (casesAt w n i k)[j]? = some (caseAt w (i + j) k').1 := by
  have hlt : j < (casesAt w n i k).length := by rwa [length_casesAt]
  obtain ⟨k', hk'⟩ := casesAt_getElem (List.getElem?_eq_getElem hlt)
  exact ⟨k', (List.getElem?_eq_getElem hlt).trans (congrArg some hk')⟩

/-- **What is in a corpus that was generated**: a right one is read back from the file, and whatever
is read back has as many cases as there should be, one of each length up to 384, one of each of the
larger edges behind them, none longer than the last of these, and no two with the same seed. -/
theorem coverage (t : Target) (env : Env) (argv : List CString) : ∃ d, main t env argv = some d ∧
    (d.status = 0 → ∃ path seed count out, parseArgs argv = some (.ok (path, seed, count)) ∧
      d.output = some out ∧ (∃ c : Corpus, c.Fits ∧ c.Right ∧ out.sent = c.bytes) ∧
      ∀ c : Corpus, c.Fits → c.Right → out.sent = c.bytes →
        c.seed = seed ∧ c.cases.length = count.toNat ∧
        (∀ i ≤ exhaustiveLastLength, ∃ x, c.cases[i]? = some x ∧ x.data.length = i) ∧
        (∀ j edge, largeEdges[j]? = some edge →
          ∃ x, c.cases[exhaustiveLastLength + 1 + j]? = some x ∧ x.data.length = edge) ∧
        (∀ x ∈ c.cases, x.data.length ≤ maxRandomLength) ∧ (c.cases.map Case.seed).Nodup) := by
  obtain ⟨d, hd, -⟩ := main_cases t env argv
  refine ⟨d, hd, fun h0 => ?_⟩
  obtain ⟨path, seed, count, out, hargs, hmin, hmax, hout, hsent⟩ := main_zero hd h0
  have hcorpus : (corpusOf seed count.toNat).Fits ∧ (corpusOf seed count.toNat).Right :=
    ⟨corpusOf_fits seed (maxCases_lt hmax), corpusOf_right seed _⟩
  refine ⟨path, seed, count, out, hargs, hout, ⟨_, hcorpus.1, hcorpus.2, hsent⟩,
    fun c hfits hright hbytes => ?_⟩
  have hfull : out.sent = c.bytes ++ [] := by rw [List.append_nil, hbytes]
  obtain ⟨rfl, -⟩ := bytes_append ⟨hfits, hright⟩ hcorpus (hsent.symm.trans hfull)
  have hlast : exhaustiveLastLength = 384 := rfl
  have hfew : minCases = 406 := rfl
  refine ⟨rfl, length_casesAt, fun i hi => ?_, fun j edge hedge => ?_, fun x hx => ?_, ?_⟩
  · obtain ⟨k, hk⟩ :=
      casesAt_get (w := splitMix.word seed) (n := count.toNat) (j := i) (by omega) 0 0
    refine ⟨_, hk, length_caseAt.trans ?_⟩
    rw [lengthAt, if_pos (by omega)]
    exact Nat.zero_add i
  · have hj : j < 21 := (List.getElem?_eq_some_iff.mp hedge).1
    obtain ⟨k, hk⟩ := casesAt_get (w := splitMix.word seed) (n := count.toNat)
      (j := exhaustiveLastLength + 1 + j) (by omega) 0 0
    have hindex : 0 + (exhaustiveLastLength + 1 + j) - 385 = j := by omega
    refine ⟨_, hk, length_caseAt.trans ?_⟩
    rw [lengthAt, if_neg (by omega), hindex, hedge]
  · obtain ⟨j, k, rfl⟩ := casesAt_mem hx
    rw [length_caseAt]
    exact lengthAt_le.1
  · exact seeds_nodup seed (maxCases_lt hmax)

end Hayahash.Main.Corpora
