import ByteCensus.Proofs.Ingest.Rulings
import ByteCensus.Proofs.Ingest.Schedule

/-!
# What an answered batch has done

A batch that is answered with a tally went through without a conflict or another error in any
function.  So it does not matter whether the functions were gone through in turn, and each one is
as its own task has left it (`Program.functions_of_ingest_eq_ok`).

In particular every finding of the batch was ruled on (`Program.ruledOn_ingest`): its function was
taken to some state by rulings, then came the ruling on that finding, and then other rulings.
-/

namespace ByteCensus

open Relation (ReflTransGen)

variable {a : Arbiter} {policy : ConflictPolicy} {b : Batch} {f g : Program.Function}
  {finding : Finding} {findings : List Finding}

/-- The function `g` comes from `f` by rulings, one of them on the finding. -/
def Arbiter.RuledOn (a : Arbiter) (finding : Finding) (f g : Program.Function) : Prop :=
  ∃ f' ruling g', ReflTransGen a.Rules f f' ∧ a.rule f' finding = .ok (ruling, g') ∧
    ReflTransGen a.Rules g' g

theorem Arbiter.RuledOn.rulings (hruled : a.RuledOn finding f g) : ReflTransGen a.Rules f g := by
  obtain ⟨f', ruling, g', hbefore, hrule, hafter⟩ := hruled
  exact (hbefore.tail ⟨finding, ruling, hrule⟩).trans hafter

theorem Arbiter.RuledOn.trans {h : Program.Function} (hruled : a.RuledOn finding f g)
    (hmore : ReflTransGen a.Rules g h) : a.RuledOn finding f h := by
  obtain ⟨f', ruling, g', hbefore, hrule, hafter⟩ := hruled
  exact ⟨f', ruling, g', hbefore, hrule, hafter.trans hmore⟩

/-! ### Tasks -/

namespace Task

/-- A task that began with the function `f` is under way.  Its function comes from there by rulings,
and unless there is something to report, the finding is pending or was ruled on. -/
structure Underway (a : Arbiter) (f : Program.Function) (finding : Finding) (t : Task) :
    Prop where
  rulings : ReflTransGen a.Rules f t.function
  ruledOn : t.report.IsClean → finding ∈ t.pending ∨ a.RuledOn finding f t.function

theorem Underway.step {t : Task} (h : t.Underway a f finding) :
    (t.step a policy).Underway a f finding := by
  refine ⟨h.rulings.trans (rulings_step t), fun hclean => ?_⟩
  obtain ⟨-, hstep⟩ | ⟨next, rest, hpending, ⟨ruling, g, hrule, hstep⟩ | ⟨c, -, hstep⟩ |
      ⟨_, _, _, -, hstep⟩⟩ := step_cases a policy t
  · rw [hstep] at hclean ⊢
    exact h.ruledOn hclean
  · rw [hstep] at hclean ⊢
    have hbefore := h.ruledOn ⟨hclean.failure, hclean.conflicts⟩
    rw [hpending] at hbefore
    rcases hbefore with hmem | hdone
    · rcases List.mem_cons.1 hmem with rfl | hmem
      · exact .inr ⟨t.function, ruling, g, h.rulings, hrule, .refl⟩
      · exact .inl hmem
    · exact .inr (hdone.trans (.single ⟨next, ruling, hrule⟩))
  -- A conflict or another error is reported, and the report is not clean.
  · rw [hstep] at hclean
    exact absurd hclean.conflicts (List.append_ne_nil_of_right_ne_nil _ (List.cons_ne_nil c []))
  · rw [hstep] at hclean
    cases hclean.failure

/-- A task with nothing to report has ruled on all its findings. -/
theorem ruledOn_finish (f : Program.Function) (hmem : finding ∈ findings)
    (hclean : ((ofFindings f findings).finish a policy).report.IsClean) :
    a.RuledOn finding f ((ofFindings f findings).finish a policy).function := by
  have hstart : (ofFindings f findings).Underway a f finding :=
    ⟨.refl, fun _ => .inl ((arrange_perm findings).mem_iff.2 hmem)⟩
  have hend : ((ofFindings f findings).finish a policy).Underway a f finding :=
    finish_induction _ hstart fun _ h => h.step
  rcases hend.ruledOn hclean with hpending | hruled
  · rw [pending_finish] at hpending
    cases hpending
  · exact hruled

end Task

/-! ### Batches -/

theorem Batch.find?_of_mem {id : FunctionId} (h : (id, findings) ∈ b.groups) :
    b.find? id = some findings := by
  unfold find?
  have hsome : (b.groups.find? (·.1 = id)).isSome :=
    List.find?_isSome.2 ⟨(id, findings), h, decide_eq_true rfl⟩
  obtain ⟨group, hgroup⟩ := Option.isSome_iff_exists.1 hsome
  have hid : group.1 = id := by simpa using List.find?_some hgroup
  -- No function has two groups, so the one that is found is this one.
  have hsame : group = (id, findings) :=
    List.inj_on_of_nodup_map b.nodup_functions (List.mem_of_find?_eq_some hgroup) h hid
  rw [hgroup, hsame]
  rfl

namespace Program

variable {p : Program} {config : IngestConfig} {total : Tally}

/-- A batch that is answered names functions of the program only. -/
theorem known_of_ingest_eq_ok (h : (p.ingest a config b).1 = .ok total) :
    ∀ group ∈ b.groups, (p.function? group.1).isSome := by
  rw [← unknown?_eq_none_iff]
  unfold ingest at h
  split at h
  · cases h
  · assumption

/-- The answer to a batch is the one that its finished tasks give together. -/
theorem answer_ingest (hknown : ∀ group ∈ b.groups, (p.function? group.1).isSome) :
    (p.ingest a config b).1 = Report.conclude config.conflictPolicy
      ((finishedPool a config.conflictPolicy b p.functions).filterMap Worker.report?) := by
  obtain ⟨schedule, hdone⟩ := p.exists_schedule a config.conflictPolicy b
  rw [ingest_eq hknown hdone, onSchedule_eq hdone, inTurn_eq]
  split <;> rfl

/-- Without a final report every task of a batch is carried out. -/
theorem functions_ingest_of_no_final (hknown : ∀ group ∈ b.groups, (p.function? group.1).isSome)
    (hfinal : ∀ r ∈ (finishedPool a config.conflictPolicy b p.functions).filterMap Worker.report?,
      r.isFinal config.conflictPolicy = false) :
    (p.ingest a config b).2.functions =
      (finishedPool a config.conflictPolicy b p.functions).map Worker.function := by
  have hnone : (finishedPool a config.conflictPolicy b p.functions).findIdx?
      (·.isFinal config.conflictPolicy) = none := by
    rw [List.findIdx?_eq_none_iff]
    intro w hw
    cases hreport : w.report? with
    | none =>
      unfold Worker.isFinal
      rw [hreport]
      rfl
    | some r =>
      rw [Worker.isFinal_of_report? hreport]
      exact hfinal r (List.mem_filterMap.2 ⟨w, hw, hreport⟩)
  obtain ⟨schedule, hdone⟩ := p.exists_schedule a config.conflictPolicy b
  rw [ingest_eq hknown hdone, onSchedule_eq hdone, inTurn_eq, hnone]
  split <;> rfl

/-- With a tally as their answer all finished tasks are clean. -/
theorem isClean_of_ingest_eq_ok (h : (p.ingest a config b).1 = .ok total) :
    ∀ r ∈ (finishedPool a config.conflictPolicy b p.functions).filterMap Worker.report?,
      r.IsClean := by
  rw [answer_ingest (known_of_ingest_eq_ok h)] at h
  exact Report.isClean_of_conclude_eq_ok h fun r hr => failsOnDuplicate_of_mem_finishedPool hr

/-- **After an answered batch each function is as its own task has left it.** -/
theorem functions_of_ingest_eq_ok (h : (p.ingest a config b).1 = .ok total) :
    (p.ingest a config b).2.functions =
      (finishedPool a config.conflictPolicy b p.functions).map Worker.function := by
  apply functions_ingest_of_no_final (known_of_ingest_eq_ok h)
  intro r hr
  exact (isClean_of_ingest_eq_ok h r hr).isFinal_eq_false _

/-- **An answered batch has ruled on all its findings.** -/
theorem ruledOn_ingest {i : Nat} (h : (p.ingest a config b).1 = .ok total)
    (hf : p.functions[i]? = some f) (hfind : b.find? f.id = some findings)
    (hmem : finding ∈ findings) :
    ∃ g, (p.ingest a config b).2.functions[i]? = some g ∧ a.RuledOn finding f g := by
  have hworker : (finishedPool a config.conflictPolicy b p.functions)[i]? =
      some (.busy ((Task.ofFindings f findings).finish a config.conflictPolicy)) := by
    unfold finishedPool
    rw [List.getElem?_map, hf, Option.map_some, Worker.start, hfind]
    rfl
  refine ⟨((Task.ofFindings f findings).finish a config.conflictPolicy).function, ?_, ?_⟩
  · rw [functions_of_ingest_eq_ok h, List.getElem?_map, hworker]
    rfl
  · apply Task.ruledOn_finish f hmem
    apply isClean_of_ingest_eq_ok h
    exact List.mem_filterMap.2 ⟨_, List.mem_of_getElem? hworker, Worker.report?_busy _⟩

end Program

end ByteCensus
