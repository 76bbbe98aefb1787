import ByteCensus.Text.Blank
import Mathlib.Data.List.DropRight

/-!
# Cutting texts

A run of characters of one class is cut in front of the first character of another class
(`Text.takeWhile_append_stop`, `Text.dropWhile_append_stop`).  Trimming cuts off the runs of blanks
at both ends; `Text.Trims` says what is left without saying how it is found, and
`Text.trims_iff` that `trimBlanks` finds it.
-/

namespace ByteCensus.Text

/-! ### Runs -/

section Run

variable {p : Char → Bool} {run rest : List Char}

theorem takeWhile_append_stop (hrun : ∀ c ∈ run, p c) (hstop : ∀ c ∈ rest.head?, p c = false) :
    (run ++ rest).takeWhile p = run := by
  rw [List.takeWhile_append_of_pos hrun]
  cases rest with
  | nil => rw [List.takeWhile_nil, List.append_nil]
  | cons c rest =>
    have hc : p c = false := hstop c rfl
    simp [hc]

theorem dropWhile_append_stop (hrun : ∀ c ∈ run, p c) (hstop : ∀ c ∈ rest.head?, p c = false) :
    (run ++ rest).dropWhile p = rest := by
  rw [List.dropWhile_append_of_pos hrun]
  cases rest with
  | nil => rfl
  | cons c rest =>
    have hc : p c = false := hstop c rfl
    simp [hc]

/-- What is left behind a run does not go on with it. -/
theorem stop_dropWhile (cs : List Char) : ∀ c ∈ (cs.dropWhile p).head?, p c = false := by
  intro c hc
  have hnot := List.head?_dropWhile_not p cs
  rw [Option.mem_def.mp hc] at hnot
  simpa using hnot

end Run

/-! ### Blanks at both ends -/

/-- `text` is `raw` without the blanks at its ends. -/
structure Trims (raw text : List Char) : Prop where
  cut : ∃ before after, raw = before ++ text ++ after ∧
    (∀ c ∈ before, isBlank c) ∧ ∀ c ∈ after, isBlank c
  head : ∀ c ∈ text.head?, isBlank c = false
  last : ∀ c ∈ text.getLast?, isBlank c = false

theorem trims_trimBlanks (raw : List Char) : Trims raw (trimBlanks raw) := by
  have hraw : raw.takeWhile isBlank ++ raw.dropWhile isBlank = raw :=
    List.takeWhile_append_dropWhile
  have hrest : trimBlanks raw ++ (raw.dropWhile isBlank).rtakeWhile isBlank
      = raw.dropWhile isBlank := by
    rw [trimBlanks, List.rtakeWhile, ← List.reverse_append, List.takeWhile_append_dropWhile,
      List.reverse_reverse]
  refine ⟨⟨raw.takeWhile isBlank, (raw.dropWhile isBlank).rtakeWhile isBlank, ?_, ?_, ?_⟩, ?_, ?_⟩
  · rw [List.append_assoc, hrest, hraw]
  · exact fun c hc => List.mem_takeWhile_imp hc
  · exact fun c hc => List.mem_rtakeWhile_imp hc
  · intro c hc
    -- What is left starts like the text without the blanks in front.
    have hhead : c ∈ (raw.dropWhile isBlank).head? := by
      rw [← hrest, List.head?_append]
      simp [Option.mem_def.mp hc]
    exact stop_dropWhile raw c hhead
  · intro c hc
    rw [trimBlanks, List.getLast?_reverse] at hc
    exact stop_dropWhile _ c hc

theorem Trims.eq_trimBlanks {raw text : List Char} (h : Trims raw text) :
    text = trimBlanks raw := by
  obtain ⟨⟨before, after, rfl, hbefore, hafter⟩, hhead, hlast⟩ := h
  rw [trimBlanks, List.append_assoc]
  cases text with
  | nil =>
    -- Nothing is left of a text of blanks, wherever it is cut.
    have hblank : ∀ c ∈ before ++ after, isBlank c :=
      fun c hc => (List.mem_append.mp hc).elim (hbefore c) (hafter c)
    rw [List.nil_append, List.dropWhile_eq_nil_iff.mpr hblank]
    rfl
  | cons c cs =>
    have hafter' : ∀ d ∈ after.reverse, isBlank d :=
      fun d hd => hafter d (List.mem_reverse.mp hd)
    have hfront : (before ++ (c :: cs ++ after)).dropWhile isBlank = c :: cs ++ after :=
      dropWhile_append_stop hbefore hhead
    rw [hfront, List.reverse_append, dropWhile_append_stop hafter' (by rwa [List.head?_reverse]),
      List.reverse_reverse]

theorem trims_iff {raw text : List Char} : Trims raw text ↔ text = trimBlanks raw :=
  ⟨Trims.eq_trimBlanks, fun h => h ▸ trims_trimBlanks raw⟩

end ByteCensus.Text
