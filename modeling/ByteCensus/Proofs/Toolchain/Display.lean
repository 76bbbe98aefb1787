import ByteCensus.Proofs.Toolchain.Grammar
import ByteCensus.Proofs.Toolchain.Order

/-!
# Writing toolchain versions

`Version.display` chooses one of the ways in which the grammar writes a version: numbers without
leading zeros, always two of them and a third one unless it is zero, and no remark
(`Version.written_chars`).  None of its characters is a blank, so that trimming leaves the text as
it is, and reading it gives the version back.

`Version.display_is_canonical` says what follows from that: the text tells everything about the
version, so texts compare equal iff their versions are displayed alike.
-/

namespace ByteCensus.Version

variable {v w : Version}

/-! ### What is written -/

/-- The digits of a number write it. -/
theorem isNumber_toDigits (n : UInt32) : IsNumber (Nat.toDigits 10 n.toNat) n where
  ne_nil := Nat.toDigits_ne_nil
  isDigit := fun _ hc => Nat.isDigit_of_mem_toDigits (by decide) (by decide) hc
  value := Nat.ofDigitChars_ten_toDigits

theorem isStage_chars (s : Stage) : IsStage s.chars s := by
  cases s with
  | beta n => exact .beta (isNumber_toDigits n)
  | candidate n => exact .candidate (isNumber_toDigits n)
  | release => exact .release

/-- What is displayed is the version in writing, without a remark. -/
theorem written_chars (v : Version) : Written v.chars v := by
  obtain ⟨major, minor, patch, stage⟩ := v
  have hmajor := isNumber_toDigits major
  have hminor := isNumber_toDigits minor
  have hstage := isStage_chars stage
  -- A patch number of zero is left out.
  by_cases hzero : patch = 0
  · subst hzero
    simpa [chars] using Written.mk (.two hmajor hminor) hstage .none
  · have hpatch := isNumber_toDigits patch
    simpa [chars, hzero] using Written.mk (.three hmajor hminor hpatch) hstage .none

/-! ### Reading it back -/

/-- No digit is a blank, or it would open a remark. -/
theorem not_isBlank_toDigits (n : UInt32) :
    ∀ c ∈ Nat.toDigits 10 n.toNat, Text.isBlank c = false := by
  intro c hc
  by_contra hblank
  rw [Bool.not_eq_false] at hblank
  have hdigit := (isNumber_toDigits n).isDigit c hc
  rw [(not_continues_of_opens_remark (.inl hblank)).1] at hdigit
  cases hdigit

theorem not_isBlank_stage_chars (s : Stage) : ∀ c ∈ s.chars, Text.isBlank c = false := by
  cases s with
  | beta n =>
    simp only [Stage.chars, List.forall_mem_cons]
    exact ⟨rfl, rfl, rfl, rfl, not_isBlank_toDigits n⟩
  | candidate n =>
    simp only [Stage.chars, List.forall_mem_cons]
    exact ⟨rfl, rfl, not_isBlank_toDigits n⟩
  | release => exact List.forall_mem_nil _

theorem not_isBlank_chars (v : Version) : ∀ c ∈ v.chars, Text.isBlank c = false := by
  simp only [chars, List.forall_mem_append, List.forall_mem_cons]
  refine ⟨⟨⟨⟨rfl, rfl, not_isBlank_toDigits v.major⟩, rfl, not_isBlank_toDigits v.minor⟩, ?_⟩,
    not_isBlank_stage_chars v.stage⟩
  split
  · exact List.forall_mem_nil _
  · rw [List.forall_mem_cons]
    exact ⟨rfl, not_isBlank_toDigits v.patch⟩

/-- There is nothing to trim on what is displayed. -/
theorem trims_chars (v : Version) : Text.Trims v.chars v.chars where
  cut := ⟨[], [], by simp, by simp, by simp⟩
  head := fun c hc => not_isBlank_chars v c (List.mem_of_mem_head? hc)
  last := fun c hc => not_isBlank_chars v c (List.mem_of_mem_getLast? hc)

theorem parse_display (v : Version) : parse v.display = .ok v := by
  rw [parse_eq_ok_iff, display, String.toList_ofList, ← (trims_chars v).eq_trimBlanks]
  exact (written_chars v).ofChars?_eq_some

theorem display_injective : Function.Injective display := by
  intro v w h
  have hparse : parse v.display = parse w.display := congrArg parse h
  rw [parse_display, parse_display] at hparse
  exact Except.ok.inj hparse

/-! ### Comparing by the display -/

/-- **A version is read back from its display.**  So different versions are displayed differently,
and two version texts compare equal iff their versions are displayed alike. -/
theorem display_is_canonical :
    (∀ v : Version, parse v.display = .ok v) ∧
    Function.Injective display ∧
    ∀ a b v w, parse a = .ok v → parse b = .ok w →
      (compareTexts a b = .ok .eq ↔ v.display = w.display) := by
  refine ⟨parse_display, display_injective, ?_⟩
  intro a b v w ha hb
  rw [compareTexts_of_parse ha hb, Except.ok.injEq, order_eq_eq_iff, display_injective.eq_iff]

/-- Two ways of writing a candidate, with a zero for the patch number and without. -/
theorem display_is_canonical_of_candidate :
    let v : Version := ⟨1, 20, 0, .candidate 4294967295⟩
    v.display = "go1.20rc4294967295" ∧
      parse v.display = .ok v ∧
      parse "go01.20.0rc4294967295 X:strictfipsruntime" = .ok v ∧
      compareTexts v.display "go01.20.0rc4294967295 X:strictfipsruntime" = .ok .eq := by
  intro v
  obtain ⟨hback, -, hequal⟩ := display_is_canonical
  have hdisplay : v.display = "go1.20rc4294967295" := by cbv
  have hother : parse "go01.20.0rc4294967295 X:strictfipsruntime" =
      .ok ⟨1, 20, 0, .candidate 4294967295⟩ := by rfl
  exact ⟨hdisplay, hback v, hother, (hequal _ _ v v (hback v) hother).mpr rfl⟩

end ByteCensus.Version
