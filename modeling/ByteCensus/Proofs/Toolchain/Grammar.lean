import ByteCensus.Proofs.Text
import ByteCensus.Toolchain.Version

/-!
# The grammar of toolchain versions

`Version.parse` takes the blanks off a text and reads it from left to right, each part as far as it
goes.  The grammar it reads is stated here without a reader: `Version.Written` says how a version
is put together out of its numbers, its stage and a remark, and `Text.Trims` what is left of a text
without the blanks at its ends.  `Version.parse_iff_written` says that the two agree on every text,
and that a refusal names the text as it was given.

The grammar leaves no choice to the reader, because no part can be continued by the first character
of what follows it: no digit and no dot stands behind the numbers, and a remark begins with none of
the letters of a stage.  So each reader has two lemmas, one for what it reads when its part is
written in front of such a text, and one for what must have been written when it has read something.
-/

namespace ByteCensus.Version

/-! ### The grammar -/

/-- The text is the number, in ASCII digits, of which the first ones may be zeros. -/
structure IsNumber (cs : List Char) (n : UInt32) : Prop where
  ne_nil : cs ≠ []
  isDigit : ∀ c ∈ cs, c.isDigit
  value : Nat.ofDigitChars 10 cs 0 = n.toNat

/-- The text is the numbers of a version: one, two or three of them with dots in between. -/
inductive Numbers : List Char → UInt32 → UInt32 → UInt32 → Prop
  | one {cs major} (hmajor : IsNumber cs major) : Numbers cs major 0 0
  | two {cs ds major minor} (hmajor : IsNumber cs major) (hminor : IsNumber ds minor) :
      Numbers (cs ++ '.' :: ds) major minor 0
  | three {cs ds es major minor patch} (hmajor : IsNumber cs major) (hminor : IsNumber ds minor)
      (hpatch : IsNumber es patch) : Numbers (cs ++ '.' :: ds ++ '.' :: es) major minor patch

/-- The text is what is written for the stage. -/
inductive IsStage : List Char → Stage → Prop
  | release : IsStage [] .release
  | beta {cs n} (hnumber : IsNumber cs n) : IsStage ('b' :: 'e' :: 't' :: 'a' :: cs) (.beta n)
  | candidate {cs n} (hnumber : IsNumber cs n) : IsStage ('r' :: 'c' :: cs) (.candidate n)

/-- The text is a remark behind a version, or nothing. -/
inductive Remark : List Char → Prop
  | none : Remark []
  | some {c cs} (hfirst : Text.isBlank c ∨ c = '+' ∨ c = '-') (hline : '\n' ∉ cs) : Remark (c :: cs)

/-- The text is the version in writing. -/
inductive Written : List Char → Version → Prop
  | mk {ns ss rs major minor patch stage} (hnumbers : Numbers ns major minor patch)
      (hstage : IsStage ss stage) (hremark : Remark rs) :
      Written ('g' :: 'o' :: (ns ++ ss ++ rs)) ⟨major, minor, patch, stage⟩

/-! ### What may follow a part -/

/-- No number goes on in the text, and no further number follows. -/
def EndsNumbers (cs : List Char) : Prop :=
  ∀ c ∈ cs.head?, c.isDigit = false ∧ c ≠ '.'

theorem isRemark_iff {cs : List Char} : isRemark cs = true ↔ Remark cs := by
  constructor
  · intro h
    cases cs with
    | nil => exact .none
    | cons c cs =>
      simp only [isRemark, Bool.and_eq_true, Bool.or_eq_true, beq_iff_eq, List.all_eq_true,
        bne_iff_ne] at h
      exact .some (or_assoc.mp h.1) fun hmem => h.2 _ hmem rfl
  · rintro (_ | ⟨hfirst, hline⟩)
    · rfl
    · simp only [isRemark, Bool.and_eq_true, Bool.or_eq_true, beq_iff_eq, List.all_eq_true,
        bne_iff_ne]
      exact ⟨or_assoc.mpr hfirst, fun c hc hc' => hline (hc' ▸ hc)⟩

/-- A character that opens a remark is none that continues a version. -/
theorem not_continues_of_opens_remark {c : Char} (h : Text.isBlank c ∨ c = '+' ∨ c = '-') :
    c.isDigit = false ∧ c ≠ '.' ∧ c ≠ 'b' ∧ c ≠ 'r' := by
  rcases h with h | rfl | rfl
  · refine ⟨?_, ?_, ?_, ?_⟩
    -- No run of blanks meets the digits, whose codes are 48 to 57.
    · by_contra hdigit
      rw [Bool.not_eq_false, Char.isDigit_iff_toNat] at hdigit
      simp only [Text.isBlank, Text.blankRuns, List.any_eq_true, decide_eq_true_eq,
        List.mem_cons, List.not_mem_nil, or_false] at h
      obtain ⟨run, hrun, hle⟩ := h
      change 48 ≤ c.toNat ∧ c.toNat ≤ 57 at hdigit
      rcases hrun with rfl | rfl | rfl | rfl | rfl | rfl | rfl | rfl | rfl | rfl <;>
        simp only at hle <;> omega
    all_goals
      rintro rfl
      exact absurd h (by decide)
  · decide
  · decide

theorem Remark.endsNumbers {cs : List Char} (h : Remark cs) : EndsNumbers cs := by
  intro c hc
  cases h with
  | none => cases hc
  | some hfirst _ =>
    obtain rfl : _ = c := Option.some.inj hc
    have hopens := not_continues_of_opens_remark hfirst
    exact ⟨hopens.1, hopens.2.1⟩

/-- Neither a digit nor a dot opens a stage, and a release is followed by a remark at once. -/
theorem IsStage.endsNumbers {cs rest : List Char} {stage : Stage} (h : IsStage cs stage)
    (hrest : Remark rest) : EndsNumbers (cs ++ rest) := by
  cases h with
  | release => exact hrest.endsNumbers
  | beta _ =>
    rintro c ⟨⟩
    decide
  | candidate _ =>
    rintro c ⟨⟩
    decide

/-- A dot ends a number, since it is no digit. -/
theorem head_dot_not_isDigit (cs : List Char) : ∀ c ∈ ('.' :: cs).head?, c.isDigit = false := by
  rintro c ⟨⟩
  decide

/-! ### The readers -/

/-- A number is read as far as its digits go, if no digit follows. -/
theorem takeNumber?_append {cs rest : List Char} {n : UInt32} (h : IsNumber cs n)
    (hrest : ∀ c ∈ rest.head?, c.isDigit = false) : takeNumber? (cs ++ rest) = some (n, rest) := by
  have hdigits : (cs ++ rest).takeWhile Char.isDigit = cs :=
    Text.takeWhile_append_stop h.isDigit hrest
  have hbehind : (cs ++ rest).dropWhile Char.isDigit = rest :=
    Text.dropWhile_append_stop h.isDigit hrest
  have hvalue : Nat.ofDigitChars 10 cs 0 < UInt32.size := h.value ▸ n.toNat_lt
  simp only [takeNumber?, hdigits, hbehind]
  rw [if_pos ⟨h.ne_nil, hvalue⟩, h.value, UInt32.ofNat_toNat]

/-- What was read as a number is one, with all the digits there were. -/
theorem exists_of_takeNumber? {cs rest : List Char} {n : UInt32}
    (h : takeNumber? cs = some (n, rest)) : ∃ ds, IsNumber ds n ∧ cs = ds ++ rest := by
  simp only [takeNumber?] at h
  split at h
  · rename_i hnumber
    obtain ⟨hne, hvalue⟩ := hnumber
    obtain ⟨rfl, rfl⟩ := Prod.mk.inj (Option.some.inj h)
    -- The digits at the front are the number.
    refine ⟨cs.takeWhile Char.isDigit, ⟨hne, fun c hc => List.mem_takeWhile_imp hc, ?_⟩, ?_⟩
    · rw [UInt32.toNat_ofNat_of_lt' hvalue]
    · exact List.takeWhile_append_dropWhile.symm
  · cases h

/-- Without a dot nothing is read, and the number is zero. -/
theorem takeDotted?_of_ne_dot {cs : List Char} (h : ∀ c ∈ cs.head?, c ≠ '.') :
    takeDotted? cs = some (0, cs) := by
  unfold takeDotted?
  split
  · exact absurd rfl (h '.' rfl)
  · rfl

theorem takeDotted?_dot_append {cs rest : List Char} {n : UInt32} (h : IsNumber cs n)
    (hrest : ∀ c ∈ rest.head?, c.isDigit = false) :
    takeDotted? ('.' :: (cs ++ rest)) = some (n, rest) :=
  takeNumber?_append h hrest

/-- A dotted number was read behind a dot, or there is none, and then no dot either. -/
theorem exists_of_takeDotted? {cs rest : List Char} {n : UInt32}
    (h : takeDotted? cs = some (n, rest)) :
    (n = 0 ∧ cs = rest ∧ ∀ c ∈ cs.head?, c ≠ '.') ∨
      ∃ ds, IsNumber ds n ∧ cs = '.' :: (ds ++ rest) := by
  unfold takeDotted? at h
  split at h
  · rename_i ds
    obtain ⟨ds, hds, rfl⟩ := exists_of_takeNumber? h
    exact .inr ⟨ds, hds, rfl⟩
  · rename_i hdot
    obtain ⟨rfl, rfl⟩ := Prod.mk.inj (Option.some.inj h)
    refine .inl ⟨rfl, rfl, ?_⟩
    rintro c hc rfl
    obtain ⟨ds, rfl⟩ := List.head?_eq_some_iff.mp hc
    exact hdot ds rfl

/-- A stage in front of a remark is read to its end. -/
theorem takeStage?_append {cs rest : List Char} {stage : Stage} (h : IsStage cs stage)
    (hrest : Remark rest) : takeStage? (cs ++ rest) = some (stage, rest) := by
  have hdigit : ∀ c ∈ rest.head?, c.isDigit = false := fun c hc => (hrest.endsNumbers c hc).1
  cases h with
  | release =>
    rw [List.nil_append]
    -- The letters of a stage open no remark.
    cases hrest with
    | none => rfl
    | some hfirst _ =>
      have hopens := not_continues_of_opens_remark hfirst
      unfold takeStage?
      split
      · rename_i hb
        exact absurd (List.cons.inj hb).1 hopens.2.2.1
      · rename_i hr
        exact absurd (List.cons.inj hr).1 hopens.2.2.2
      · rfl
  | beta hnumber => simp [takeStage?, takeNumber?_append hnumber hdigit]
  | candidate hnumber => simp [takeStage?, takeNumber?_append hnumber hdigit]

theorem exists_of_takeStage? {cs rest : List Char} {stage : Stage}
    (h : takeStage? cs = some (stage, rest)) : ∃ ss, IsStage ss stage ∧ cs = ss ++ rest := by
  unfold takeStage? at h
  split at h
  · obtain ⟨⟨n, behind⟩, hn, heq⟩ := Option.map_eq_some_iff.mp h
    obtain ⟨rfl, rfl⟩ := Prod.mk.inj heq
    obtain ⟨ds, hds, rfl⟩ := exists_of_takeNumber? hn
    exact ⟨_, .beta hds, rfl⟩
  · obtain ⟨⟨n, behind⟩, hn, heq⟩ := Option.map_eq_some_iff.mp h
    obtain ⟨rfl, rfl⟩ := Prod.mk.inj heq
    obtain ⟨ds, hds, rfl⟩ := exists_of_takeNumber? hn
    exact ⟨_, .candidate hds, rfl⟩
  · obtain ⟨rfl, rfl⟩ := Prod.mk.inj (Option.some.inj h)
    exact ⟨[], .release, rfl⟩

/-- The three number readers, one behind the other. -/
def takeNumbers? (cs : List Char) : Option ((UInt32 × UInt32 × UInt32) × List Char) := do
  let (major, cs) ← takeNumber? cs
  let (minor, cs) ← takeDotted? cs
  let (patch, cs) ← takeDotted? cs
  return ((major, minor, patch), cs)

/-- One, two or three numbers are read, if neither a digit nor a dot follows. -/
theorem takeNumbers?_append {cs rest : List Char} {major minor patch : UInt32}
    (h : Numbers cs major minor patch) (hrest : EndsNumbers rest) :
    takeNumbers? (cs ++ rest) = some ((major, minor, patch), rest) := by
  have hdigit : ∀ c ∈ rest.head?, c.isDigit = false := fun c hc => (hrest c hc).1
  have hdot : takeDotted? rest = some (0, rest) := takeDotted?_of_ne_dot fun c hc => (hrest c hc).2
  -- Numbers that are missing are read as zero in front of what follows.
  cases h with
  | one hmajor => simp [takeNumbers?, takeNumber?_append hmajor hdigit, hdot]
  | two hmajor hminor =>
    simp [takeNumbers?, takeNumber?_append hmajor (head_dot_not_isDigit _),
      takeDotted?_dot_append hminor hdigit, hdot]
  | three hmajor hminor hpatch =>
    simp [takeNumbers?, takeNumber?_append hmajor (head_dot_not_isDigit _),
      takeDotted?_dot_append hminor (head_dot_not_isDigit _), takeDotted?_dot_append hpatch hdigit]

/-- What was read as numbers are one, two or three of them. -/
theorem exists_of_takeNumbers? {cs rest : List Char} {major minor patch : UInt32}
    (h : takeNumbers? cs = some ((major, minor, patch), rest)) :
    ∃ ns, Numbers ns major minor patch ∧ cs = ns ++ rest := by
  obtain ⟨⟨major', afterMajor⟩, hmajor, h⟩ := Option.bind_eq_some_iff.mp h
  obtain ⟨⟨minor', afterMinor⟩, hminor, h⟩ := Option.bind_eq_some_iff.mp h
  obtain ⟨⟨patch', afterPatch⟩, hpatch, h⟩ := Option.bind_eq_some_iff.mp h
  cases h
  obtain ⟨cs, hcs, rfl⟩ := exists_of_takeNumber? hmajor
  obtain ⟨rfl, rfl, hne⟩ | ⟨ds, hds, rfl⟩ := exists_of_takeDotted? hminor
  · -- Without a second number there is no dot for a third one.
    rw [takeDotted?_of_ne_dot hne] at hpatch
    obtain ⟨rfl, rfl⟩ := Prod.mk.inj (Option.some.inj hpatch)
    exact ⟨cs, .one hcs, rfl⟩
  · obtain ⟨rfl, rfl, -⟩ | ⟨es, hes, rfl⟩ := exists_of_takeDotted? hpatch
    · exact ⟨_, .two hcs hds, by simp⟩
    · exact ⟨_, .three hcs hds hes, by simp⟩

/-! ### The version -/

/-- Behind its two letters a version is read in three parts, and nothing may be left over. -/
theorem ofChars?_go (cs : List Char) : ofChars? ('g' :: 'o' :: cs) = (do
    let ((major, minor, patch), cs) ← takeNumbers? cs
    let (stage, cs) ← takeStage? cs
    if isRemark cs then some ⟨major, minor, patch, stage⟩ else none) := by
  simp [ofChars?, takeNumbers?, Option.bind_assoc]

/-- A version in writing is read as that version. -/
theorem Written.ofChars?_eq_some {cs : List Char} {v : Version} (h : Written cs v) :
    ofChars? cs = some v := by
  obtain ⟨hnumbers, hstage, hremark⟩ := h
  -- Each part is followed by what cannot continue it.
  rw [ofChars?_go, List.append_assoc,
    takeNumbers?_append hnumbers (hstage.endsNumbers hremark)]
  simp [takeStage?_append hstage hremark, isRemark_iff.mpr hremark]

/-- What is read as a version is that version in writing. -/
theorem written_of_ofChars? {cs : List Char} {v : Version} (h : ofChars? cs = some v) :
    Written cs v := by
  unfold ofChars? at h
  split at h
  · rename_i cs
    change ofChars? ('g' :: 'o' :: cs) = some v at h
    rw [ofChars?_go] at h
    obtain ⟨⟨⟨major, minor, patch⟩, behind⟩, hnumbers, h⟩ := Option.bind_eq_some_iff.mp h
    obtain ⟨⟨stage, rest⟩, hstage, h⟩ := Option.bind_eq_some_iff.mp h
    obtain ⟨hremark, hv⟩ := Option.ite_none_right_eq_some.mp h
    obtain rfl := Option.some.inj hv
    -- Each reader tells what was written for it.
    obtain ⟨ns, hns, rfl⟩ := exists_of_takeNumbers? hnumbers
    obtain ⟨ss, hss, rfl⟩ := exists_of_takeStage? hstage
    rw [← List.append_assoc]
    exact .mk hns hss (isRemark_iff.mp hremark)
  · cases h

theorem ofChars?_eq_some_iff {cs : List Char} {v : Version} :
    ofChars? cs = some v ↔ Written cs v :=
  ⟨written_of_ofChars?, Written.ofChars?_eq_some⟩

theorem parse_eq_ok_iff {raw : String} {v : Version} :
    parse raw = .ok v ↔ ofChars? (Text.trimBlanks raw.toList) = some v := by
  unfold parse
  split <;> simp_all

/-- **A text is read as a version iff it is that version in writing, with any blanks around it.**
Every other text is refused, and the error has it with its blanks. -/
theorem parse_iff_written (raw : String) :
    (∀ v, parse raw = .ok v ↔ ∃ text, Text.Trims raw.toList text ∧ Written text v) ∧
      (parse raw = .error (.invalidVersion raw) ↔
        ¬ ∃ v text, Text.Trims raw.toList text ∧ Written text v) := by
  have hiff : ∀ v, parse raw = .ok v ↔ ∃ text, Text.Trims raw.toList text ∧ Written text v := by
    intro v
    simp only [Text.trims_iff, exists_eq_left]
    exact parse_eq_ok_iff.trans ofChars?_eq_some_iff
  refine ⟨hiff, fun herror hsome => ?_, fun hnone => ?_⟩
  · obtain ⟨v, hv⟩ := hsome
    rw [(hiff v).mpr hv] at herror
    cases herror
  · cases hread : ofChars? (Text.trimBlanks raw.toList) with
    | none => simp [parse, hread]
    | some v => exact absurd ⟨v, (hiff v).mp (parse_eq_ok_iff.mpr hread)⟩ hnone

/-- A second number and a remark after a blank; a third dot is no remark. -/
example : parse " go1.021rc3+x \n" = .ok ⟨1, 21, 0, .candidate 3⟩ ∧
    parse " go1.2.3.4" = .error (.invalidVersion " go1.2.3.4") := by
  constructor <;> rfl

end ByteCensus.Version
