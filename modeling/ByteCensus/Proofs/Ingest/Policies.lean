import ByteCensus.Proofs.Ingest.Answered

/-!
# The two conflict policies tell the same story

Aborting and collecting go the same way up to the first conflict.  There aborting ends, while
collecting goes on, and may meet more conflicts or a duplicate that a store refuses.

So of one task either both policies leave the same, without a conflict, or their reports have
*parted* behind the same first conflict (`Task.finish_eq_or_parted`).  `Report.Agree` says this of
two reports, and is all that putting reports together needs: behind two lists of reports that agree
stand two answers that do (`Report.agree_conclude`).

`Program.policies_agree` says what this means for a batch.
-/

namespace ByteCensus

variable {a : Arbiter}

/-! ### Tasks -/

/-- The reports are of one task, the first from aborting at the first conflict, where the second
went on. -/
structure Report.Parted (c : Conflict) (r r' : Report) : Prop where
  failure : r.failure = none
  conflicts : r.conflicts = [c]
  collected : ∃ more, r'.conflicts = c :: more

namespace Task

/-- Conflicts that were noted stay noted, in front of those that follow. -/
theorem conflicts_finish (policy : ConflictPolicy) (t : Task) :
    ∃ more, (t.finish a policy).report.conflicts = t.report.conflicts ++ more := by
  apply finish_induction
    (motive := fun u => ∃ more, u.report.conflicts = t.report.conflicts ++ more)
  · exact ⟨[], (List.append_nil _).symm⟩
  · rintro u ⟨more, hmore⟩
    obtain ⟨-, hstep⟩ | ⟨_, _, -, ⟨_, _, -, hstep⟩ | ⟨c, -, hstep⟩ | ⟨_, _, _, -, hstep⟩⟩ :=
      step_cases a policy u
    all_goals rw [hstep]
    · exact ⟨more, hmore⟩
    · exact ⟨more, hmore⟩
    · refine ⟨more ++ [c], ?_⟩
      show u.report.conflicts ++ [c] = _
      rw [hmore, List.append_assoc]
    · exact ⟨more, hmore⟩

/-- **Up to the first conflict the policy makes no difference to a task.** -/
theorem finish_eq_or_parted (f : Program.Function) (pending : List Finding) (r : Report)
    (hfailure : r.failure = none) (hconflicts : r.conflicts = []) :
    let aborted := (⟨f, pending, r⟩ : Task).finish a .abort
    let collected := (⟨f, pending, r⟩ : Task).finish a .collect
    (aborted = collected ∧ aborted.report.conflicts = []) ∨
      ∃ c, aborted.report.Parted c collected.report := by
  dsimp only
  -- On the findings still to come; as long as both policies go on they go on from the same state.
  induction pending generalizing f r with
  | nil =>
    left
    rw [finish_of_pending_nil rfl, finish_of_pending_nil rfl]
    exact ⟨rfl, hconflicts⟩
  | cons finding rest ih =>
    obtain ⟨_, g, hrule⟩ | ⟨c, hrule⟩ | ⟨_, _, _, hrule⟩ := a.rule_outcome f finding
    · rw [finish_of_rule_ok hrule, finish_of_rule_ok hrule]
      exact ih g _ hfailure hconflicts
    -- The first conflict: aborting ends here, and collecting never forgets it.
    · right
      rw [finish_of_rule_conflict hrule, finish_of_rule_conflict hrule, hconflicts,
        if_pos rfl, finish_of_pending_nil rfl]
      exact ⟨c, hfailure, rfl, conflicts_finish .collect _⟩
    · left
      rw [finish_of_rule_duplicate hrule, finish_of_rule_duplicate hrule]
      exact ⟨rfl, hconflicts⟩

theorem finish_ofFindings_eq_or_parted (f : Program.Function) (findings : List Finding) :
    let aborted := (ofFindings f findings).finish a .abort
    let collected := (ofFindings f findings).finish a .collect
    (aborted = collected ∧ aborted.report.conflicts = []) ∨
      ∃ c, aborted.report.Parted c collected.report :=
  finish_eq_or_parted f (arrange findings) _ rfl rfl

end Task

/-! ### Reports -/

namespace Report

variable {r r' : Report} {reports reports' : List Report} {tally : Tally}

/-- The reports are of one task, the first from aborting, the second from collecting. -/
inductive Agree : Report → Report → Prop
  | same {r : Report} (h : r.conflicts = []) : Agree r r
  | parted {r r' : Report} (c : Conflict) (h : r.Parted c r') : Agree r r'

/-- Without a report that ends the gathering, collecting gathers all conflicts. -/
theorem gather_collect_cases (tally : Tally) (conflicts : List Conflict)
    (hfails : ∀ r ∈ reports, r.FailsOnDuplicate) :
    (∃ total, gather .collect tally conflicts reports =
      .ok (total, conflicts ++ reports.flatMap (·.conflicts))) ∨
    ∃ start kept refused, gather .collect tally conflicts reports =
      .error (.duplicateStart start kept refused) := by
  by_cases hfinal : ∃ r ∈ reports, r.isFinal .collect = true
  · right
    obtain ⟨r, hr, err, hfailure, hgather⟩ | ⟨habort, -⟩ :=
      gather_of_final tally conflicts hfinal
    · obtain ⟨start, kept, refused, rfl⟩ := hfails r hr err hfailure
      exact ⟨start, kept, refused, hgather⟩
    · cases habort
  · left
    apply gather_of_no_final
    intro r hr
    rw [← Bool.not_eq_true]
    exact fun h => hfinal ⟨r, hr, h⟩

/-- What is gathered from the reports of both policies: the same, without a conflict, or there is a
first conflict in both. -/
theorem gather_of_agree (h : List.Forall₂ Agree reports reports')
    (hfails : ∀ r ∈ reports', r.FailsOnDuplicate) (tally : Tally) :
    let aborted := gather .abort tally [] reports
    let collected := gather .collect tally [] reports'
    (aborted = collected ∧ ∀ total conflicts, aborted = .ok (total, conflicts) → conflicts = []) ∨
      ∃ c total, aborted = .ok (total, [c]) ∧
        ((∃ total' more, collected = .ok (total', c :: more)) ∨
          ∃ start kept refused, collected = .error (.duplicateStart start kept refused)) := by
  dsimp only
  induction h generalizing tally with
  | nil =>
    left
    refine ⟨rfl, ?_⟩
    intro total conflicts hok
    cases hok
    rfl
  | @cons r r' rest rest' hagree _ ih =>
    obtain ⟨hfirst, hrest⟩ := List.forall_mem_cons.1 hfails
    cases hagree with
    | same hnone =>
      cases hfailure : r.failure with
      | some err =>
        left
        rw [gather, gather, hfailure]
        refine ⟨rfl, ?_⟩
        intro total conflicts hok
        cases hok
      | none =>
        -- A clean report ends neither gathering.
        have hclean : r.IsClean := ⟨hfailure, hnone⟩
        rw [gather_cons_of_not_isFinal (hclean.isFinal_eq_false _),
          gather_cons_of_not_isFinal (hclean.isFinal_eq_false _), hnone]
        exact ih hrest _
    | parted c hparted =>
      right
      -- Aborting never sees the reports behind this one, so its answer is known already.
      have hfinal : r.isFinal .abort = true := by
        rw [isFinal, hparted.conflicts]
        exact Bool.or_true _
      have haborted : gather .abort tally [] (r :: rest) = .ok (tally + r.tally, [c]) := by
        rw [gather, hparted.failure]
        dsimp only
        rw [if_pos hfinal, hparted.conflicts, List.nil_append]
      refine ⟨c, tally + r.tally, haborted, ?_⟩
      obtain ⟨more, hmore⟩ := hparted.collected
      rcases gather_collect_cases tally [] hfails with ⟨total, hcollected⟩ | hduplicate
      · left
        rw [hcollected, List.nil_append, List.flatMap_cons, hmore, List.cons_append]
        exact ⟨total, _, rfl⟩
      · exact .inr hduplicate

/-- How an answer from aborting goes together with one from collecting. -/
inductive AnswersAgree : Except Error Tally → Except Error Tally → Prop
  | tally (total : Tally) : AnswersAgree (.ok total) (.ok total)
  /-- The batch names an unknown function. -/
  | unknown (id : FunctionId) :
      AnswersAgree (.error (.invalidInput (.unknownFunction id)))
        (.error (.invalidInput (.unknownFunction id)))
  /-- A duplicate was refused before any conflict. -/
  | duplicate (start : Address) (kept refused : ByteKind) :
      AnswersAgree (.error (.duplicateStart start kept refused))
        (.error (.duplicateStart start kept refused))
  | conflicts (c : Conflict) (more : List Conflict) :
      AnswersAgree (.error (.conflict c)) (.error (.conflicts (c :: more)))
  /-- A duplicate was refused behind the first conflict. -/
  | masked (c : Conflict) (start : Address) (kept refused : ByteKind) :
      AnswersAgree (.error (.conflict c)) (.error (.duplicateStart start kept refused))

section

variable {aborted collected : Except Error Tally}

theorem AnswersAgree.eq_ok_iff (h : AnswersAgree aborted collected) (total : Tally) :
    aborted = .ok total ↔ collected = .ok total := by
  cases h <;> simp

theorem AnswersAgree.first_of_conflicts (h : AnswersAgree aborted collected)
    {conflicts : List Conflict} (hcollected : collected = .error (.conflicts conflicts)) :
    ∃ c, conflicts.head? = some c ∧ aborted = .error (.conflict c) := by
  cases h with
  | conflicts c more =>
    cases hcollected
    exact ⟨c, rfl, rfl⟩
  | _ => cases hcollected

theorem AnswersAgree.conflicts_of_first (h : AnswersAgree aborted collected) {c : Conflict}
    (haborted : aborted = .error (.conflict c)) :
    (∃ more, collected = .error (.conflicts (c :: more))) ∨
      ∃ start kept refused, collected = .error (.duplicateStart start kept refused) := by
  cases h with
  | conflicts _ more =>
    cases haborted
    exact .inl ⟨more, rfl⟩
  | masked _ start kept refused => exact .inr ⟨start, kept, refused, rfl⟩
  | _ => cases haborted

end

/-- Reports that agree give answers that agree. -/
theorem agree_conclude (h : List.Forall₂ Agree reports reports')
    (hfails : ∀ r ∈ reports', r.FailsOnDuplicate) :
    AnswersAgree (conclude .abort reports) (conclude .collect reports') := by
  unfold conclude
  rcases gather_of_agree h hfails {} with
    ⟨hsame, hnone⟩ | ⟨c, total, haborted, ⟨total', more, hcollected⟩ | ⟨_, _, _, hcollected⟩⟩
  · rcases gather_collect_cases {} [] hfails with ⟨total, hgather⟩ | ⟨_, _, _, hgather⟩
    · have hempty := hnone total _ (hsame.trans hgather)
      rw [hsame, hgather, hempty]
      exact .tally total
    · rw [hsame, hgather]
      exact .duplicate _ _ _
  · rw [haborted, hcollected]
    exact .conflicts c more
  · rw [haborted, hcollected]
    exact .masked c _ _ _

end Report

/-! ### Batches -/

namespace Program

variable {p : Program} {b : Batch}

/-- The reports of the two policies agree, function by function. -/
theorem agree_finishedPool (functions : List Function) :
    List.Forall₂ Report.Agree
      ((finishedPool a .abort b functions).filterMap Worker.report?)
      ((finishedPool a .collect b functions).filterMap Worker.report?) := by
  induction functions with
  | nil => exact .nil
  | cons f rest ih =>
    cases hfind : b.find? f.id with
    | none =>
      rw [finishedPool_cons_idle hfind, finishedPool_cons_idle hfind]
      exact ih
    | some findings =>
      rw [finishedPool_cons_busy hfind, finishedPool_cons_busy hfind,
        List.filterMap_cons_some (Worker.report?_busy _),
        List.filterMap_cons_some (Worker.report?_busy _)]
      refine .cons ?_ ih
      rcases Task.finish_ofFindings_eq_or_parted f findings with ⟨hsame, hnone⟩ | ⟨c, hparted⟩
      · rw [← hsame]
        exact .same hnone
      · exact .parted c hparted

/-- Where aborting finds nothing to report, collecting does the same. -/
theorem finishedPool_abort_eq_collect {functions : List Function}
    (hclean : ∀ r ∈ (finishedPool a .abort b functions).filterMap Worker.report?, r.IsClean) :
    finishedPool a .abort b functions = finishedPool a .collect b functions := by
  apply List.map_congr_left
  intro f hf
  cases hfind : b.find? f.id with
  | none =>
    rw [Worker.start, hfind]
    rfl
  | some findings =>
    have hworker : (Worker.start b f).finish a .abort =
        .busy ((Task.ofFindings f findings).finish a .abort) := by
      rw [Worker.start, hfind]
      rfl
    have hreport := hclean _ (List.mem_filterMap.2
      ⟨_, List.mem_map.2 ⟨f, hf, hworker⟩, Worker.report?_busy _⟩)
    rcases Task.finish_ofFindings_eq_or_parted (a := a) f findings with ⟨hsame, -⟩ | ⟨c, hparted⟩
    · rw [hworker, Worker.start, hfind]
      exact congrArg Worker.busy hsame
    -- A parted report would not be clean.
    · have hnone := hreport.conflicts
      rw [hparted.conflicts] at hnone
      cases hnone

/-- A batch with an unknown function is refused under any configuration. -/
theorem ingest_of_unknown {config : IngestConfig} {id : FunctionId} (h : b.unknown? p = some id) :
    p.ingest a config b = (.error (.invalidInput (.unknownFunction id)), p) := by
  unfold ingest
  rw [h]

/-- For any two thresholds the answers of the policies agree. -/
theorem answers_agree (p : Program) (a : Arbiter) (b : Batch) (threshold threshold' : UInt64) :
    Report.AnswersAgree (p.ingest a ⟨.abort, threshold⟩ b).1
      (p.ingest a ⟨.collect, threshold'⟩ b).1 := by
  cases hunknown : b.unknown? p with
  | some id =>
    rw [ingest_of_unknown hunknown, ingest_of_unknown hunknown]
    exact .unknown id
  | none =>
    have hknown := unknown?_eq_none_iff.1 hunknown
    rw [answer_ingest hknown, answer_ingest hknown]
    apply Report.agree_conclude (agree_finishedPool p.functions)
    exact fun r hr => failsOnDuplicate_of_mem_finishedPool hr

/-- Both policies leave the same program where they give a tally. -/
theorem program_abort_eq_collect {threshold threshold' : UInt64} {total : Tally}
    (haborted : (p.ingest a ⟨.abort, threshold⟩ b).1 = .ok total)
    (hcollected : (p.ingest a ⟨.collect, threshold'⟩ b).1 = .ok total) :
    (p.ingest a ⟨.abort, threshold⟩ b).2 = (p.ingest a ⟨.collect, threshold'⟩ b).2 := by
  obtain ⟨-, hpackages, hpolicy⟩ := rulings_ingest (a := a) (b := b) p ⟨.abort, threshold⟩
  obtain ⟨-, hpackages', hpolicy'⟩ := rulings_ingest (a := a) (b := b) p ⟨.collect, threshold'⟩
  -- Packages and policy are out of reach of a batch; the functions come from one pool.
  have hfunctions : (p.ingest a ⟨.abort, threshold⟩ b).2.functions =
      (p.ingest a ⟨.collect, threshold'⟩ b).2.functions := by
    rw [functions_of_ingest_eq_ok haborted, functions_of_ingest_eq_ok hcollected]
    exact congrArg (List.map Worker.function)
      (finishedPool_abort_eq_collect (isClean_of_ingest_eq_ok haborted))
  rw [Program.mk.injEq]
  exact ⟨hpackages.trans hpackages'.symm, hfunctions, hpolicy.trans hpolicy'.symm⟩

/-- **The two conflict policies tell the same story.**  A batch is taken in by the same program
under either policy, each time with any threshold.

* Both answer with the same tally, or neither answers with one.
* With a tally they leave the same program.
* Where collecting ends in conflicts, aborting ends in the first of them.
* Where aborting ends in a conflict, collecting ends in conflicts of which that is the first, or in
  a duplicate that a store refuses. -/
theorem policies_agree (p : Program) (a : Arbiter) (b : Batch) (threshold threshold' : UInt64) :
    let aborted := p.ingest a ⟨.abort, threshold⟩ b
    let collected := p.ingest a ⟨.collect, threshold'⟩ b
    (∀ total, aborted.1 = .ok total ↔ collected.1 = .ok total) ∧
    (∀ total, aborted.1 = .ok total → aborted.2 = collected.2) ∧
    (∀ conflicts, collected.1 = .error (.conflicts conflicts) →
      ∃ c, conflicts.head? = some c ∧ aborted.1 = .error (.conflict c)) ∧
    ∀ c, aborted.1 = .error (.conflict c) →
      (∃ more, collected.1 = .error (.conflicts (c :: more))) ∨
        ∃ start kept refused, collected.1 = .error (.duplicateStart start kept refused) := by
  intro aborted collected
  have hagree : Report.AnswersAgree aborted.1 collected.1 :=
    answers_agree p a b threshold threshold'
  refine ⟨hagree.eq_ok_iff, ?_, fun _ => hagree.first_of_conflicts,
    fun _ => hagree.conflicts_of_first⟩
  intro total hok
  exact program_abort_eq_collect hok ((hagree.eq_ok_iff total).1 hok)

/-- Behind a conflict a store refuses a duplicate: aborting ends in the one, collecting in the
other. -/
theorem policies_agree_with_duplicate_behind_conflict :
    let symbols := (Store.empty .keepFirst).put (.ofSymbol ⟨32, 16⟩ .text ⟨0⟩ ⟨"code"⟩)
    let a := Ledger.freeze { Ledger.empty default with symbols }
    let p : Program := ⟨[], [⟨⟨0⟩, "f", ⟨0⟩, .function, "", .empty .reject⟩], .reject⟩
    let b := Batch.ofList
      [(⟨0⟩, [⟨⟨64, 8⟩, default⟩, ⟨⟨40, 4⟩, default⟩, ⟨⟨64, 4⟩, default⟩])]
    let c : Conflict := ⟨⟨40, 4⟩, .text, .data⟩
    (p.ingest a ⟨.abort, 1⟩ b).1 = .error (.conflict c) ∧
      (p.ingest a ⟨.collect, 128⟩ b).1 = .error (.duplicateStart 64 .data .data) ∧
      ∃ start kept refused,
        (p.ingest a ⟨.collect, 128⟩ b).1 = .error (.duplicateStart start kept refused) := by
  intro symbols a p b c
  have haborted : (p.ingest a ⟨.abort, 1⟩ b).1 = .error (.conflict c) := by
    unfold p a b
    decide_cbv
  have hcollected :
      (p.ingest a ⟨.collect, 128⟩ b).1 = .error (.duplicateStart 64 .data .data) := by
    unfold p a b
    decide_cbv
  refine ⟨haborted, hcollected, ?_⟩
  obtain ⟨-, -, -, hfirst⟩ := policies_agree p a b 1 128
  rcases hfirst c haborted with ⟨more, hconflicts⟩ | hduplicate
  · rw [hcollected] at hconflicts
    cases hconflicts
  · exact hduplicate

end Program

end ByteCensus
