import Hayahash.Refine.Output

/-! # What `hayasum` prints can be read back

**`output`**: the lines of any results say what they should, whatever bytes are in the labels: one
line for every result, which ends in the only newline of it, no carriage return, and the text is
that of no other entries. -/

namespace Hayahash.Main.Output

open Hayahash.Lib.Bytes (Byte)
open Hayahash.Lib.Codec Hayahash.Cli.Output Hayahash.Spec.Output Hayahash.Refine.Output

theorem print_lines (rs : List Result) :
    List.Forall₂ (fun r l => r.print [] = some (l ++ [newline]))
    rs ((rs.map entry).map render) := by
  rw [List.map_map, List.forall₂_map_right_iff, List.forall₂_same]
  intro r _
  rw [print_eq, List.nil_append]
  rfl

theorem newline_not_mem_lines (es : List Entry) : ∀ l ∈ es.map render, newline ∉ l := by
  intro l hl
  obtain ⟨e, -, rfl⟩ := List.mem_map.mp hl
  exact not_mem_render (.inl rfl) e

theorem carriageReturn_not_mem_text (es : List Entry) :
    carriageReturn ∉ (es.map render).flatMap (· ++ [newline]) := by
  intro h
  obtain ⟨l, hl, hc⟩ := List.mem_flatMap.mp h
  obtain ⟨e, -, rfl⟩ := List.mem_map.mp hl
  rw [List.mem_append, List.mem_singleton] at hc
  rcases hc with hc | hc
  · exact not_mem_render (.inr rfl) e hc
  · exact absurd hc (by decide)

theorem head_print (r : Result) : (render (entry r) ++ [newline]).head? = some backslash ↔
    escapes.escape r.label.bytes ≠ r.label.bytes := by
  unfold render flag
  by_cases h : escapes.escape (entry r).label = (entry r).label
  · rw [if_pos h, List.nil_append, List.append_assoc]
    exact ⟨fun hhead => absurd hhead (head_field _ _), fun hne => absurd h hne⟩
  · rw [if_neg h]
    exact ⟨fun _ => h, fun _ => rfl⟩

/-- **What is printed can be read back.** -/
theorem output :
    -- the text of some results: a line for each, and no other newline, and no carriage return
    (∀ rs : List Result, ∃ text ls, printAll [] rs = some text ∧
      List.Forall₂ (fun r l => r.print [] = some (l ++ [newline])) rs ls ∧
      text = ls.flatMap (· ++ [newline]) ∧ (∀ l ∈ ls, newline ∉ l) ∧
      text.count newline = rs.length ∧ carriageReturn ∉ text ∧
      -- what the lines say
      entries text = some (rs.map entry)) ∧
    -- no two lists of results that say different things have one text
    (∀ rs rs' : List Result, printAll [] rs = printAll [] rs' ↔ rs.map entry = rs'.map entry) ∧
    -- the flag says that the name is not the label as it is
    (∀ r : Result, ∃ line name, r.print [] = some line ∧
      writeEscaped fputs [] r.label.memory = some name ∧
      (line.head? = some backslash ↔ name ≠ r.label.bytes)) := by
  refine ⟨fun rs => ?_, fun rs rs' => ?_, fun r => ?_⟩
  · have hlines := newline_not_mem_lines (rs.map entry)
    refine ⟨_, (rs.map entry).map render, printAll_eq rs [], print_lines rs, List.nil_append _,
      hlines, ?_, carriageReturn_not_mem_text _, entries_render _⟩
    rw [List.nil_append, count_flatMap hlines, List.length_map, List.length_map]
  · rw [printAll_eq, printAll_eq]
    refine ⟨fun h => ?_, fun h => by rw [h]⟩
    -- one text says one thing
    have hread := congrArg (fun text => text.bind entries) h
    simp only [List.nil_append, Option.bind_some, entries_render] at hread
    exact Option.some.inj hread
  · refine ⟨_, _, print_eq [] r, name_eq [] r, ?_⟩
    rw [List.nil_append, List.nil_append]
    exact head_print r

end Hayahash.Main.Output
