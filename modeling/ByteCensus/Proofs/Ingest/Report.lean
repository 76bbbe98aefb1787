import ByteCensus.Ingest

/-!
# What reports say together

A report that is final ends the gathering, so what stands behind it does not count
(`gather_cons_of_isFinal`).  Without a final report the answer is a tally or the list of all
conflicts; with one it is an error of another form (`conclude_of_no_final`, `conclude_of_final`).
-/

namespace ByteCensus.Report

variable {policy : ConflictPolicy} {tally : Tally} {conflicts : List Conflict} {r : Report}
  {reports : List Report}

/-- A failure is a duplicate that a store refused. -/
def FailsOnDuplicate (r : Report) : Prop :=
  ∀ err, r.failure = some err → ∃ start kept refused, err = .duplicateStart start kept refused

/-- A report is not final if nothing failed and, to abort, nothing is in conflict. -/
theorem isFinal_eq_false_iff :
    r.isFinal policy = false ↔ r.failure = none ∧ (policy = .abort → r.conflicts = []) := by
  unfold isFinal
  cases r.failure <;> cases policy <;> simp

/-- Everything was taken in. -/
structure IsClean (r : Report) : Prop where
  failure : r.failure = none
  conflicts : r.conflicts = []

theorem IsClean.isFinal_eq_false (h : r.IsClean) (policy : ConflictPolicy) :
    r.isFinal policy = false :=
  isFinal_eq_false_iff.2 ⟨h.failure, fun _ => h.conflicts⟩

/-! ### Gathering -/

/-- What stands behind a final report does not count. -/
theorem gather_cons_of_isFinal (h : r.isFinal policy = true) (rest : List Report) :
    gather policy tally conflicts (r :: rest) = gather policy tally conflicts [r] := by
  unfold gather
  cases r.failure with
  | some err => rfl
  | none =>
    dsimp only
    rw [if_pos h, if_pos h]

theorem gather_cons_of_not_isFinal (h : r.isFinal policy = false) (rest : List Report) :
    gather policy tally conflicts (r :: rest) =
      gather policy (tally + r.tally) (conflicts ++ r.conflicts) rest := by
  rw [gather, (isFinal_eq_false_iff.1 h).1]
  dsimp only
  rw [h, if_neg Bool.false_ne_true]

/-- Without a final report all conflicts are gathered, in the order of the reports. -/
theorem gather_of_no_final (tally : Tally) (conflicts : List Conflict)
    (h : ∀ r ∈ reports, r.isFinal policy = false) :
    ∃ total, gather policy tally conflicts reports =
      .ok (total, conflicts ++ reports.flatMap (·.conflicts)) := by
  induction reports generalizing tally conflicts with
  | nil =>
    rw [List.flatMap_nil, List.append_nil]
    exact ⟨tally, rfl⟩
  | cons r rest ih =>
    obtain ⟨hr, hrest⟩ := List.forall_mem_cons.1 h
    rw [gather_cons_of_not_isFinal hr, List.flatMap_cons, ← List.append_assoc]
    exact ih _ _ hrest

/-- With a final report, gathering fails as the report does, or ends with conflicts to abort on. -/
theorem gather_of_final (tally : Tally) (conflicts : List Conflict)
    (h : ∃ r ∈ reports, r.isFinal policy = true) :
    (∃ r ∈ reports, ∃ err, r.failure = some err ∧
      gather policy tally conflicts reports = .error err) ∨
    policy = .abort ∧ ∃ total all, all ≠ [] ∧
      gather policy tally conflicts reports = .ok (total, all) := by
  induction reports generalizing tally conflicts with
  | nil =>
    obtain ⟨r, hr, -⟩ := h
    cases hr
  | cons r rest ih =>
    -- The first report is final, or one of the others is.
    by_cases hfinal : r.isFinal policy = true
    · rw [gather_cons_of_isFinal hfinal]
      cases hfailure : r.failure with
      | some err =>
        left
        refine ⟨r, List.mem_cons_self, err, hfailure, ?_⟩
        rw [gather, hfailure]
      | none =>
        right
        have hdef := hfinal
        unfold isFinal at hdef
        rw [hfailure] at hdef
        obtain ⟨habort, hne⟩ : policy = .abort ∧ r.conflicts ≠ [] := by simpa using hdef
        refine ⟨habort, tally + r.tally, conflicts ++ r.conflicts, ?_, ?_⟩
        · exact List.append_ne_nil_of_right_ne_nil conflicts hne
        · rw [gather, hfailure]
          dsimp only
          rw [if_pos hfinal]
    · have hnot : r.isFinal policy = false := Bool.eq_false_iff.2 hfinal
      rw [gather_cons_of_not_isFinal hnot]
      obtain ⟨x, hx, hxfinal⟩ := h
      rcases List.mem_cons.1 hx with rfl | hx
      · exact absurd hxfinal hfinal
      · rcases ih (tally + r.tally) (conflicts ++ r.conflicts) ⟨x, hx, hxfinal⟩ with
          ⟨y, hy, herr⟩ | hok
        · exact .inl ⟨y, List.mem_cons_of_mem r hy, herr⟩
        · exact .inr hok

/-! ### The answer -/

/-- Without a final report the answer is a tally or the list of all conflicts. -/
theorem conclude_of_no_final (h : ∀ r ∈ reports, r.isFinal policy = false) :
    (∃ total, conclude policy reports = .ok total) ∨
      ∃ all, conclude policy reports = .error (.conflicts all) := by
  obtain ⟨total, hgather⟩ := gather_of_no_final {} [] h
  rw [List.nil_append] at hgather
  unfold conclude
  cases hall : reports.flatMap (·.conflicts) with
  | nil =>
    left
    rw [hgather, hall]
    exact ⟨total, rfl⟩
  | cons first others =>
    cases policy with
    | collect =>
      right
      rw [hgather, hall]
      exact ⟨first :: others, rfl⟩
    | abort =>
      -- Under this policy a report with a conflict would be final.
      have hnil : reports.flatMap (·.conflicts) = [] := by
        rw [List.flatMap_eq_nil_iff]
        intro r hr
        exact (isFinal_eq_false_iff.1 (h r hr)).2 rfl
      rw [hall] at hnil
      cases hnil

/-- Collecting answers with all conflicts where nothing else went wrong. -/
theorem conclude_collect (h : ∀ r ∈ reports, r.failure = none) :
    (reports.flatMap (·.conflicts) = [] ∧ ∃ total, conclude .collect reports = .ok total) ∨
      reports.flatMap (·.conflicts) ≠ [] ∧
        conclude .collect reports = .error (.conflicts (reports.flatMap (·.conflicts))) := by
  have hno_final : ∀ r ∈ reports, r.isFinal .collect = false := by
    intro r hr
    exact isFinal_eq_false_iff.2 ⟨h r hr, fun habort => nomatch habort⟩
  obtain ⟨total, hgather⟩ := gather_of_no_final {} [] hno_final
  rw [List.nil_append] at hgather
  unfold conclude
  rw [hgather]
  cases reports.flatMap (·.conflicts) with
  | nil => exact .inl ⟨rfl, total, rfl⟩
  | cons first others => exact .inr ⟨List.cons_ne_nil _ _, rfl⟩

/-- With a final report the answer is an error, but not the list of all conflicts. -/
theorem conclude_of_final (h : ∃ r ∈ reports, r.isFinal policy = true)
    (hfails : ∀ r ∈ reports, r.FailsOnDuplicate) :
    ∃ err, conclude policy reports = .error err ∧ ∀ all, err ≠ .conflicts all := by
  unfold conclude
  rcases gather_of_final {} [] h with
    ⟨r, hr, err, hfailure, hgather⟩ | ⟨rfl, total, all, hne, hgather⟩
  · refine ⟨err, ?_, ?_⟩
    · rw [hgather]
      rfl
    · obtain ⟨_, _, _, rfl⟩ := hfails r hr err hfailure
      intro all heq
      cases heq
  · obtain ⟨first, others, rfl⟩ := List.exists_cons_of_ne_nil hne
    refine ⟨.conflict first, ?_, ?_⟩
    · rw [hgather]
      rfl
    · intro all heq
      cases heq

/-- There is a tally only if nothing went wrong anywhere. -/
theorem isClean_of_conclude_eq_ok {total : Tally} (h : conclude policy reports = .ok total)
    (hfails : ∀ r ∈ reports, r.FailsOnDuplicate) : ∀ r ∈ reports, r.IsClean := by
  have hno_final : ∀ r ∈ reports, r.isFinal policy = false := by
    intro r hr
    rw [← Bool.not_eq_true]
    intro hfinal
    obtain ⟨err, herr, -⟩ := conclude_of_final ⟨r, hr, hfinal⟩ hfails
    rw [h] at herr
    cases herr
  -- Conflicts would have been the answer.
  have hnil : reports.flatMap (·.conflicts) = [] := by
    obtain ⟨total', hgather⟩ := gather_of_no_final {} [] hno_final
    rw [List.nil_append] at hgather
    unfold conclude at h
    cases hall : reports.flatMap (·.conflicts) with
    | nil => rfl
    | cons first others =>
      rw [hgather, hall] at h
      cases policy <;> cases h
  intro r hr
  exact ⟨(isFinal_eq_false_iff.1 (hno_final r hr)).1, List.flatMap_eq_nil_iff.1 hnil r hr⟩

end ByteCensus.Report
