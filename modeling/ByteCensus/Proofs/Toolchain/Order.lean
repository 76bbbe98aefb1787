import ByteCensus.Toolchain.Flags

/-!
# The order of toolchain versions

`Version.order` compares five numbers one after the other: the major, minor and patch number, the
rank of the stage and the number within it.  So it is lexicographic over the natural numbers, from
which it inherits that it is transitive and turns around with its arguments; and it calls only equal
versions equal, since the five numbers determine a version (`Version.order_eq_eq_iff`).

The flags compare a version with two fixed ones, and the one that bounds from above is the older of
the two.  Hence the flags follow the order, and no version has both (`Flags.not_both`).

Texts are compared as the versions that they are read as (`Version.compareTexts_eq_ok_iff`), and a
text that is no version has the flags of a newer one.  `Version.texts_compare_and_flags_follow` says
what the comparison and the flags of texts inherit from those of versions.
-/

namespace ByteCensus

/-- A stage is determined by its place among the stages and the number within it. -/
theorem Stage.eq_of_rank_of_number {s t : Stage} (hrank : s.rank = t.rank)
    (hnumber : s.number = t.number) : s = t := by
  cases s <;> cases t <;> simp_all [rank, number]

/-! ### Versions -/

namespace Version

variable {u v w : Version}

/-- `order` is this combination of orders by definition. -/
instance : Std.TransCmp order :=
  inferInstanceAs <| Std.TransCmp <|
    compareLex (compareOn fun v : Version => v.major.toNat) <|
    compareLex (compareOn fun v : Version => v.minor.toNat) <|
    compareLex (compareOn fun v : Version => v.patch.toNat) <|
    compareLex (compareOn fun v : Version => v.stage.rank) <|
    compareOn fun v : Version => v.stage.number.toNat

/-- Only equal versions compare equal. -/
theorem order_eq_eq_iff : order v w = .eq ↔ v = w := by
  constructor
  · intro h
    simp only [order, Ordering.then_eq_eq, Nat.compare_eq_eq, UInt32.toNat_inj] at h
    obtain ⟨hmajor, hminor, hpatch, hrank, hnumber⟩ := h
    obtain ⟨major, minor, patch, stage⟩ := v
    rw [Version.mk.injEq]
    exact ⟨hmajor, hminor, hpatch, Stage.eq_of_rank_of_number hrank hnumber⟩
  · rintro rfl
    exact Std.ReflCmp.compare_self

/-- Along an ascending chain the first step that ascends decides. -/
theorem order_eq_then (huv : u ≤ v) (hvw : v ≤ w) :
    order u w = (order u v).then (order v w) := by
  cases h : order u v with
  | lt => exact Std.TransCmp.lt_of_lt_of_isLE h hvw
  | eq =>
    obtain rfl := order_eq_eq_iff.mp h
    rfl
  | gt =>
    change (order u v).isLE at huv
    rw [h] at huv
    cases huv

/-- The betas come before the candidates, and these before the release. -/
theorem order_of_rank_lt {major minor patch : UInt32} {s t : Stage} (h : s.rank < t.rank) :
    order ⟨major, minor, patch, s⟩ ⟨major, minor, patch, t⟩ = .lt := by
  simp [order, Nat.compare_eq_lt.mpr h]

end Version

/-! ### Flags -/

namespace Flags

variable {v w : Version}

theorem upTo118_ofVersion : (ofVersion v).upTo118 = true ↔ v ≤ last118 := decide_eq_true_iff

theorem from120_ofVersion : (ofVersion v).from120 = true ↔ first120 ≤ v := decide_eq_true_iff

/-- What is older than a version with the first flag has it, too. -/
theorem upTo118_of_le (hle : v ≤ w) (h : (ofVersion w).upTo118 = true) :
    (ofVersion v).upTo118 = true :=
  upTo118_ofVersion.mpr (Std.TransCmp.isLE_trans hle (upTo118_ofVersion.mp h))

theorem from120_of_le (hle : v ≤ w) (h : (ofVersion v).from120 = true) :
    (ofVersion w).from120 = true :=
  from120_ofVersion.mpr (Std.TransCmp.isLE_trans (from120_ofVersion.mp h) hle)

/-- Such a version would lie between the bounds, of which the lower one is the greater. -/
theorem not_both (v : Version) : ¬ (v ≤ last118 ∧ first120 ≤ v) := by
  rintro ⟨hupper, hlower⟩
  have hbounds : first120 ≤ last118 := Std.TransCmp.isLE_trans hlower hupper
  exact absurd hbounds (by decide)

/-- From the first candidate of 1.20 on, all versions have the same flags. -/
theorem ofVersion_eq_newer (h : first120 ≤ v) : ofVersion v = newer := by
  have hnot : ¬ v ≤ last118 := fun hupper => not_both v ⟨hupper, h⟩
  simp [ofVersion, newer, h, hnot]

end Flags

/-! ### Texts -/

namespace Version

variable {a b : String} {v w : Version} {o : Ordering}

/-- The text is read as a version. -/
def IsVersion (a : String) : Prop := ∃ v, parse a = .ok v

/-- Both texts are versions, of which the first compares at most equal to the second. -/
def AtMost (a b : String) : Prop := ∃ o, compareTexts a b = .ok o ∧ o.isLE = true

/-- What is no version is refused under its own name. -/
theorem parse_of_not_isVersion (h : ¬ IsVersion a) : parse a = .error (.invalidVersion a) := by
  unfold parse
  split
  · next v hv => exact absurd ⟨v, by simp [parse, hv]⟩ h
  · rfl

theorem compareTexts_of_parse (ha : parse a = .ok v) (hb : parse b = .ok w) :
    compareTexts a b = .ok (order v w) := by
  unfold compareTexts
  rw [ha, hb]
  rfl

theorem compareTexts_of_not_left (ha : ¬ IsVersion a) :
    compareTexts a b = .error (.invalidVersion a) := by
  unfold compareTexts
  rw [parse_of_not_isVersion ha]
  rfl

theorem compareTexts_of_not_right (ha : IsVersion a) (hb : ¬ IsVersion b) :
    compareTexts a b = .error (.invalidVersion b) := by
  obtain ⟨v, hv⟩ := ha
  unfold compareTexts
  rw [hv, parse_of_not_isVersion hb]
  rfl

/-- Texts are compared as the versions that they are read as, and only those. -/
theorem compareTexts_eq_ok_iff :
    compareTexts a b = .ok o ↔ ∃ v w, parse a = .ok v ∧ parse b = .ok w ∧ order v w = o := by
  constructor
  · intro h
    by_cases ha : IsVersion a
    · by_cases hb : IsVersion b
      · obtain ⟨v, hv⟩ := ha
        obtain ⟨w, hw⟩ := hb
        rw [compareTexts_of_parse hv hw] at h
        exact ⟨v, w, hv, hw, Except.ok.inj h⟩
      · rw [compareTexts_of_not_right ha hb] at h
        cases h
    · rw [compareTexts_of_not_left ha] at h
      cases h
  · rintro ⟨v, w, hv, hw, rfl⟩
    exact compareTexts_of_parse hv hw

/-- On versions the order of texts is that of the versions. -/
theorem atMost_iff_of_parse (ha : parse a = .ok v) (hb : parse b = .ok w) :
    AtMost a b ↔ v ≤ w := by
  unfold AtMost
  rw [compareTexts_of_parse ha hb]
  constructor
  · rintro ⟨o, ho, hle⟩
    rwa [← Except.ok.inj ho] at hle
  · exact fun hle => ⟨_, rfl, hle⟩

/-- Texts that are compared at most equal are versions in that order. -/
theorem AtMost.exists_le (h : AtMost a b) : ∃ v w, parse a = .ok v ∧ parse b = .ok w ∧ v ≤ w := by
  obtain ⟨o, ho, hle⟩ := h
  obtain ⟨v, w, hv, hw, rfl⟩ := compareTexts_eq_ok_iff.mp ho
  exact ⟨v, w, hv, hw, hle⟩

theorem exists_compareTexts_eq_ok_iff :
    (∃ o, compareTexts a b = .ok o) ↔ IsVersion a ∧ IsVersion b := by
  constructor
  · rintro ⟨o, ho⟩
    obtain ⟨v, w, hv, hw, -⟩ := compareTexts_eq_ok_iff.mp ho
    exact ⟨⟨v, hv⟩, w, hw⟩
  · rintro ⟨⟨v, hv⟩, w, hw⟩
    exact ⟨order v w, compareTexts_of_parse hv hw⟩

/-- The other way round, texts compare in reverse. -/
theorem compareTexts_swap (h : compareTexts a b = .ok o) : compareTexts b a = .ok o.swap := by
  obtain ⟨v, w, hv, hw, rfl⟩ := compareTexts_eq_ok_iff.mp h
  have hswap : order w v = (order v w).swap := Std.OrientedCmp.eq_swap
  rw [compareTexts_of_parse hw hv, hswap]

/-- The flags of a version text say on which side of the two bounds it is compared. -/
theorem flags_of_isVersion (ha : IsVersion a) :
    ((Flags.resolve (parse a)).upTo118 = true ↔ AtMost a "go1.18.10") ∧
      ((Flags.resolve (parse a)).from120 = true ↔ AtMost "go1.20rc1" a) := by
  obtain ⟨v, hv⟩ := ha
  have hupper : parse "go1.18.10" = .ok Flags.last118 := rfl
  have hlower : parse "go1.20rc1" = .ok Flags.first120 := rfl
  rw [hv, atMost_iff_of_parse hv hupper, atMost_iff_of_parse hlower hv]
  exact ⟨Flags.upTo118_ofVersion, Flags.from120_ofVersion⟩

/-- The first flag goes down along the order, the second one up. -/
theorem AtMost.flags_follow (h : AtMost a b) :
    ((Flags.resolve (parse b)).upTo118 = true → (Flags.resolve (parse a)).upTo118 = true) ∧
      ((Flags.resolve (parse a)).from120 = true → (Flags.resolve (parse b)).from120 = true) := by
  obtain ⟨v, w, hv, hw, hle⟩ := h.exists_le
  rw [hv, hw]
  exact ⟨Flags.upTo118_of_le hle, Flags.from120_of_le hle⟩

theorem not_both_flags (a : String) :
    ¬ ((Flags.resolve (parse a)).upTo118 = true ∧ (Flags.resolve (parse a)).from120 = true) := by
  by_cases ha : IsVersion a
  · obtain ⟨v, hv⟩ := ha
    rw [hv]
    rintro ⟨hupper, hlower⟩
    exact Flags.not_both v ⟨Flags.upTo118_ofVersion.mp hupper, Flags.from120_ofVersion.mp hlower⟩
  -- What is no version has the second flag only.
  · rw [parse_of_not_isVersion ha]
    exact fun hboth => Bool.noConfusion hboth.1

/-- **Texts are compared by a total preorder, and their flags follow it.**  Of any texts:

* two are compared iff both are versions, and else the error names the first that is none;
* compared the other way round they give the reverse, and a version is equal to itself;
* along a chain of texts that does not descend, the first step that ascends decides;
* with the same numbers, every beta is less than every candidate, and that less than the release;
* the flags of a version say whether it is at most 1.18.10, and whether it is at least the first
  candidate of 1.20;
* so an older version has the first flag if a newer one has, and a newer one has the second if an
  older one has, while no text has both;
* a text that is no version has the flags of every version from the first candidate of 1.20 on. -/
theorem texts_compare_and_flags_follow (a b c : String) :
    ((∃ o, compareTexts a b = .ok o) ↔ IsVersion a ∧ IsVersion b) ∧
    (¬ IsVersion a → compareTexts a b = .error (.invalidVersion a)) ∧
    (IsVersion a → ¬ IsVersion b → compareTexts a b = .error (.invalidVersion b)) ∧
    (∀ o, compareTexts a b = .ok o ↔ compareTexts b a = .ok o.swap) ∧
    (IsVersion a → compareTexts a a = .ok .eq) ∧
    (∀ o o', compareTexts a b = .ok o → compareTexts b c = .ok o' → o.isLE → o'.isLE →
      compareTexts a c = .ok (o.then o')) ∧
    (∀ major minor patch m n, parse a = .ok ⟨major, minor, patch, .beta m⟩ →
      parse b = .ok ⟨major, minor, patch, .candidate n⟩ → compareTexts a b = .ok .lt) ∧
    (∀ major minor patch n, parse a = .ok ⟨major, minor, patch, .candidate n⟩ →
      parse b = .ok ⟨major, minor, patch, .release⟩ → compareTexts a b = .ok .lt) ∧
    (IsVersion a → ((Flags.resolve (parse a)).upTo118 ↔ AtMost a "go1.18.10") ∧
      ((Flags.resolve (parse a)).from120 ↔ AtMost "go1.20rc1" a)) ∧
    (AtMost a b → (Flags.resolve (parse b)).upTo118 → (Flags.resolve (parse a)).upTo118) ∧
    (AtMost a b → (Flags.resolve (parse a)).from120 → (Flags.resolve (parse b)).from120) ∧
    ¬ ((Flags.resolve (parse a)).upTo118 ∧ (Flags.resolve (parse a)).from120) ∧
    (¬ IsVersion a →
      (∀ v, Flags.first120 ≤ v → Flags.resolve (parse a) = Flags.resolve (.ok v)) ∧
      (AtMost "go1.20rc1" b → Flags.resolve (parse a) = Flags.resolve (parse b))) := by
  refine ⟨exists_compareTexts_eq_ok_iff, compareTexts_of_not_left, compareTexts_of_not_right,
    ?_, ?_, ?_, ?_, ?_, flags_of_isVersion, fun h => h.flags_follow.1, fun h => h.flags_follow.2,
    not_both_flags a, ?_⟩
  · intro o
    refine ⟨compareTexts_swap, fun h => ?_⟩
    simpa using compareTexts_swap h
  · rintro ⟨v, hv⟩
    rw [compareTexts_of_parse hv hv, order_eq_eq_iff.mpr rfl]
  · intro o o' hab hbc hle hle'
    obtain ⟨u, v, hu, hv, rfl⟩ := compareTexts_eq_ok_iff.mp hab
    obtain ⟨v', w, hv', hw, rfl⟩ := compareTexts_eq_ok_iff.mp hbc
    -- The text in the middle is read as one version.
    obtain rfl : v = v' := Except.ok.inj (hv.symm.trans hv')
    rw [compareTexts_of_parse hu hw, order_eq_then hle hle']
  · intro major minor patch m n ha hb
    have hrank : (Stage.beta m).rank < (Stage.candidate n).rank := Nat.zero_lt_one
    rw [compareTexts_of_parse ha hb, order_of_rank_lt hrank]
  · intro major minor patch n ha hb
    have hrank : (Stage.candidate n).rank < Stage.release.rank := Nat.lt_succ_self 1
    rw [compareTexts_of_parse ha hb, order_of_rank_lt hrank]
  · intro ha
    -- What is no version is taken for a newer one, and all of these have the same flags.
    have hnewer : ∀ v, Flags.first120 ≤ v → Flags.resolve (parse a) = Flags.resolve (.ok v) := by
      intro v hv
      rw [parse_of_not_isVersion ha]
      exact (Flags.ofVersion_eq_newer hv).symm
    refine ⟨hnewer, fun hb => ?_⟩
    obtain ⟨u, w, hu, hw, hle⟩ := hb.exists_le
    obtain rfl : Flags.first120 = u := Except.ok.inj hu
    rw [hw]
    exact hnewer w hle

/-- A beta, a candidate and the release of one version.  What is no version has the flags of the
latter two. -/
theorem texts_compare_and_flags_follow_up_to_release :
    let beta := " go1.20beta2"
    let candidate := "go1.20rc1"
    let release := "go1.20.0 linux"
    let other := "devel +abcdef"
    parse beta = .ok ⟨1, 20, 0, .beta 2⟩ ∧ parse candidate = .ok ⟨1, 20, 0, .candidate 1⟩ ∧
      parse release = .ok ⟨1, 20, 0, .release⟩ ∧ ¬ IsVersion other ∧
      compareTexts beta candidate = .ok .lt ∧ compareTexts candidate release = .ok .lt ∧
      compareTexts beta release = .ok .lt ∧
      compareTexts beta other = .error (.invalidVersion other) ∧
      compareTexts other candidate = .error (.invalidVersion other) ∧
      (Flags.resolve (parse beta)).from120 = false ∧
      Flags.resolve (parse other) = Flags.resolve (parse candidate) ∧
      Flags.resolve (parse candidate) = Flags.resolve (parse release) := by
  intro beta candidate release other
  have hbeta : parse " go1.20beta2" = .ok ⟨1, 20, 0, .beta 2⟩ := rfl
  have hcandidate : parse "go1.20rc1" = .ok ⟨1, 20, 0, .candidate 1⟩ := rfl
  have hrelease : parse "go1.20.0 linux" = .ok ⟨1, 20, 0, .release⟩ := rfl
  have hother : ¬ IsVersion "devel +abcdef" := by
    have herror : parse "devel +abcdef" = .error (.invalidVersion "devel +abcdef") := rfl
    rintro ⟨v, hv⟩
    rw [herror] at hv
    cases hv
  have hlower : AtMost "go1.20rc1" candidate :=
    (atMost_iff_of_parse hcandidate hcandidate).mpr (by decide)
  obtain ⟨-, -, -, -, -, htrans, hlt, -⟩ := texts_compare_and_flags_follow beta candidate release
  obtain ⟨-, -, -, -, -, -, -, hlt', -⟩ := texts_compare_and_flags_follow candidate release other
  obtain ⟨-, -, hrefused, -⟩ := texts_compare_and_flags_follow beta other release
  obtain ⟨-, hrefused', -, -, -, -, -, -, -, -, -, -, hflags⟩ :=
    texts_compare_and_flags_follow other candidate release
  have hfirst := hlt _ _ _ _ _ hbeta hcandidate
  have hsecond := hlt' _ _ _ _ hcandidate hrelease
  obtain ⟨hnewer, hsame⟩ := hflags hother
  refine ⟨hbeta, hcandidate, hrelease, hother, hfirst, hsecond, ?_, hrefused ⟨_, hbeta⟩ hother,
    hrefused' hother, ?_, hsame hlower, ?_⟩
  · exact htrans _ _ hfirst hsecond rfl rfl
  · rw [hbeta]
    rfl
  · rw [← hsame hlower, hnewer ⟨1, 20, 0, .release⟩ (by decide), hrelease]

end Version

end ByteCensus
