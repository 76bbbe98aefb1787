import ByteCensus.Proofs.Ingest.Applied
import ByteCensus.Proofs.Ingest.Extents
import ByteCensus.Proofs.Ingest.Tallies

/-!
# Taking in a batch again

A finding is *settled* for a function if ruling on it would leave the function as it is and insert
nothing: it is a duplicate, shadowed, or in conflict (`Arbiter.Settled`).  Where older entries stay,
a finding that was handed over is settled from then on, since of all sizes at its start the greatest
is stored.

So a batch that is taken in again finds all its findings settled, and changes nothing.  Its answer
tells the same conflicts as before, or a tally of the same functions and shadowed findings, in which
all others are duplicates (`Session.ingest_again_changes_nothing`).
-/

namespace ByteCensus

variable {a : Arbiter} {policy : ConflictPolicy} {b : Batch} {f g : Program.Function}
  {finding : Finding} {findings : List Finding}

/-! ### Settled findings -/

namespace Arbiter

/-- A ruling on the finding would leave the function as it is, and insert nothing. -/
def Settled (a : Arbiter) (f : Program.Function) (finding : Finding) : Prop :=
  a.rule f finding = .ok (.recorded .duplicate, f) ∨ a.rule f finding = .ok (.shadowed, f) ∨
    ∃ c, a.rule f finding = .error (.conflict c)

theorem Settled.handOver (h : a.Settled f finding) : a.handOver f finding = f := by
  obtain hrule | hrule | ⟨_, hrule⟩ := h
  · exact handOver_of_rule_ok hrule
  · exact handOver_of_rule_ok hrule
  · exact handOver_of_rule_error hrule

theorem handAll_of_settled (h : ∀ x ∈ findings, a.Settled f x) : a.handAll f findings = f := by
  induction findings with
  | nil => rfl
  | cons finding rest ih =>
    obtain ⟨hfinding, hrest⟩ := List.forall_mem_cons.1 h
    show a.handAll (a.handOver f finding) rest = f
    rw [hfinding.handOver]
    exact ih hrest

/-- A task whose findings are settled leaves its function as it is, wherever it ends. -/
theorem carryOut_of_settled (h : ∀ x ∈ b.findingsOf f.id, a.Settled f x) :
    a.carryOut policy b f = f := by
  apply handAll_of_settled
  intro x hx
  have hpre := (a.applies_applied policy f (Task.arrange (b.findingsOf f.id))).isPrefix
  exact h x ((Task.arrange_perm _).mem_iff.1 (hpre.subset hx))

end Arbiter

namespace Program.Function.KeepsData

/-- The store has an entry at least as large as any finding that was handed over and admitted. -/
theorem exists_kept_of_mem (h : f.KeepsData) (hmem : finding ∈ findings)
    (hadmits : a.Admits finding.span) :
    ∃ kept, (a.handAll f findings).findings.get? finding.span.start = some kept ∧
      finding.span.size ≤ kept.span.size := by
  have hgreatest := h.isGreatestOf_handAll (a := a) findings finding.span.start
  have hsize : finding.span.size ∈ a.sizesAt f findings finding.span.start :=
    .inr ⟨finding, hmem, rfl, hadmits⟩
  cases hkept : (a.handAll f findings).findings.get? finding.span.start with
  | none =>
    rw [Store.extent?, hkept] at hgreatest
    exact absurd hsize (Set.eq_empty_iff_forall_notMem.1 hgreatest _)
  | some kept =>
    rw [Store.extent?, hkept] at hgreatest
    exact ⟨kept, rfl, hgreatest.2 hsize⟩

/-- **What was handed over is settled.** -/
theorem settled_handAll (h : f.KeepsData) (hmem : finding ∈ findings) :
    a.Settled (a.handAll f findings) finding := by
  have hafter : (a.handAll f findings).KeepsData := h.handAll findings
  obtain ⟨ruling, g, hrule, -, -⟩ | ⟨c, hrule, -⟩ := hafter.takesFindings.rule_cases a finding
  · obtain ⟨hadmits, outcome, stored, rfl, hinsert, rfl⟩ | ⟨-, rfl, rfl⟩ :=
      Arbiter.rule_eq_ok_cases hrule
    · -- Of all outcomes only a duplicate agrees with an entry that is at least as large.
      obtain ⟨kept, hkept, hle⟩ := h.exists_kept_of_mem hmem hadmits
      obtain ⟨hfree, -, -⟩ | ⟨kept', hkept', ⟨hreplace, -, -⟩ | ⟨-, -, ⟨-, rfl, rfl⟩ |
        ⟨hlt, -, -⟩⟩⟩ := Store.insert_eq_ok hinsert
      · have hfree' : (a.handAll f findings).findings.get? finding.span.start = none := hfree
        rw [hkept] at hfree'
        cases hfree'
      · rw [hafter.policy_eq] at hreplace
        cases hreplace
      · exact .inl hrule
      · obtain rfl : kept = kept' := Option.some.inj (hkept.symm.trans hkept')
        exact absurd hlt (UInt64.not_lt.2 hle)
    · exact .inr (.inl hrule)
  · exact .inr (.inr ⟨c, hrule⟩)

end Program.Function.KeepsData

namespace Task

/-- A task under way has left the function `f` as it was and inserted nothing, and what is pending
is settled. -/
structure Rests (a : Arbiter) (f : Program.Function) (t : Task) : Prop where
  function_eq : t.function = f
  settled : ∀ x ∈ t.pending, a.Settled f x
  inserted_eq : t.report.tally.inserted = 0
  extended_eq : t.report.tally.extended = 0

theorem Rests.step {t : Task} (h : t.Rests a f) : (t.step a policy).Rests a f := by
  obtain ⟨-, hstep⟩ | ⟨finding, rest, hpending, hcases⟩ := step_cases a policy t
  · rw [hstep]
    exact h
  · have hsettled := h.settled
    rw [hpending, List.forall_mem_cons, ← h.function_eq] at hsettled
    obtain ⟨hfinding, hrest⟩ := hsettled
    rw [h.function_eq] at hrest
    obtain ⟨ruling, g, hrule, hstep⟩ | ⟨c, -, hstep⟩ | ⟨_, _, _, -, hstep⟩ := hcases
    all_goals rw [hstep]
    · -- Of the rulings on a settled finding none inserts or extends.
      obtain hdone | hdone | ⟨_, hdone⟩ := hfinding
      all_goals
        rw [hdone] at hrule
        cases hrule
      · exact ⟨h.function_eq, hrest, h.inserted_eq, h.extended_eq⟩
      · exact ⟨h.function_eq, hrest, h.inserted_eq, h.extended_eq⟩
    -- A conflict counts nothing; under the policy to abort it leaves nothing pending.
    · refine ⟨h.function_eq, ?_, h.inserted_eq, h.extended_eq⟩
      dsimp only
      split
      · exact List.forall_mem_nil _
      · exact hrest
    · exact ⟨h.function_eq, List.forall_mem_nil _, h.inserted_eq, h.extended_eq⟩

theorem rests_finish (policy : ConflictPolicy) (h : ∀ x ∈ findings, a.Settled f x) :
    ((ofFindings f findings).finish a policy).Rests a f := by
  have hstart : (ofFindings f findings).Rests a f :=
    ⟨rfl, fun x hx => h x ((arrange_perm findings).mem_iff.1 hx), rfl, rfl⟩
  exact finish_induction _ hstart fun _ h => h.step

end Task

/-! ### Batches -/

namespace Program

variable {p q : Program} {config again : IngestConfig} {total : Tally}
  {conflicts : List Conflict}

/-- In turn, tasks that change nothing leave the functions as they are, wherever the turn ends. -/
theorem ingestInTurn_of_carryOut {functions : List Function}
    (h : ∀ f ∈ functions, a.carryOut policy b f = f) :
    (ingestInTurn a policy b functions).1 = functions := by
  induction functions with
  | nil => rfl
  | cons f rest ih =>
    obtain ⟨hf, hrest⟩ := List.forall_mem_cons.1 h
    by_cases hends : a.EndsEarly policy b f
    · rw [ingestInTurn_of_endsEarly hends, hf]
    · rw [ingestInTurn_of_not_endsEarly hends, hf, ih hrest]

/-- Where no task changes its function, the batch changes nothing. -/
theorem ingest_of_carryOut
    (h : ∀ f ∈ p.functions, a.carryOut config.conflictPolicy b f = f) :
    (p.ingest a config b).2 = p := by
  cases hunknown : b.unknown? p with
  | some id => rw [ingest_of_unknown hunknown]
  | none =>
    obtain ⟨-, hpackages, hpolicy⟩ := rulings_ingest (a := a) (b := b) p config
    rw [Program.mk.injEq]
    refine ⟨hpackages, ?_, hpolicy⟩
    rw [functions_ingest (unknown?_eq_none_iff.1 hunknown)]
    split
    · rw [functions_ingestEach, List.map_congr_left h, List.map_id']
    · exact ingestInTurn_of_carryOut h

/-- Whether a batch is answered with a tally, and with which, does not depend on the
configuration. -/
theorem ingest_eq_ok_congr (config again : IngestConfig)
    (h : (p.ingest a config b).1 = .ok total) : (p.ingest a again b).1 = .ok total := by
  have hiff (threshold threshold' : UInt64) :=
    (answers_agree p a b threshold threshold').eq_ok_iff total
  obtain ⟨policy, threshold⟩ := config
  obtain ⟨policy', threshold'⟩ := again
  -- By way of aborting, with which any other configuration can be compared.
  have haborted : (p.ingest a ⟨.abort, threshold'⟩ b).1 = .ok total := by
    cases policy with
    | abort => exact (hiff threshold' 0).2 ((hiff threshold 0).1 h)
    | collect => exact (hiff threshold' threshold).2 h
  cases policy' with
  | abort => exact haborted
  | collect => exact (hiff threshold' threshold').1 haborted

theorem known_of_ingest_eq_conflicts (h : (p.ingest a config b).1 = .error (.conflicts conflicts)) :
    ∀ group ∈ b.groups, (p.function? group.1).isSome := by
  rw [← unknown?_eq_none_iff]
  unfold ingest at h
  split at h
  · cases h
  · assumption

/-- The program `q` is `p` after each function was handed its findings of the batch. -/
structure HandedOver (a : Arbiter) (b : Batch) (p q : Program) : Prop where
  functions_eq : q.functions = p.functions.map fun f =>
    a.handAll f (Task.arrange (b.findingsOf f.id))
  keeps : ∀ f ∈ p.functions, f.KeepsData

namespace HandedOver

theorem keeps_after (h : HandedOver a b p q) : ∀ g ∈ q.functions, g.KeepsData := by
  rw [h.functions_eq, List.forall_mem_map]
  exact fun f hf => (h.keeps f hf).handAll _

theorem settled (h : HandedOver a b p q) :
    ∀ g ∈ q.functions, ∀ x ∈ b.findingsOf g.id, a.Settled g x := by
  rw [h.functions_eq, List.forall_mem_map]
  intro f hf x hx
  rw [Arbiter.id_handAll] at hx
  exact (h.keeps f hf).settled_handAll ((Task.arrange_perm _).mem_iff.2 hx)

theorem known (h : HandedOver a b p q)
    (hknown : ∀ group ∈ b.groups, (p.function? group.1).isSome) :
    ∀ group ∈ b.groups, (q.function? group.1).isSome := by
  intro group hgroup
  unfold function?
  rw [h.functions_eq, List.getElem?_map, Option.isSome_map]
  exact hknown group hgroup

theorem findingsInOrder_eq (h : HandedOver a b p q) :
    q.findingsInOrder b = p.findingsInOrder b := by
  unfold findingsInOrder
  rw [h.functions_eq, List.flatMap_map]
  simp only [Arbiter.id_handAll]

theorem ingest_eq (h : HandedOver a b p q) : (q.ingest a again b).2 = q :=
  ingest_of_carryOut fun g hg => Arbiter.carryOut_of_settled (h.settled g hg)

/-- Collected twice, the conflicts are those of the same findings. -/
theorem answers_collect (h : HandedOver a b p q) (threshold threshold' : UInt64)
    (hknown : ∀ group ∈ b.groups, (p.function? group.1).isSome) :
    let before := (p.ingest a ⟨.collect, threshold⟩ b).1
    let after := (q.ingest a ⟨.collect, threshold'⟩ b).1
    (∃ total total', before = .ok total ∧ after = .ok total') ∨
      ∃ conflicts, before = .error (.conflicts conflicts) ∧
        after = .error (.conflicts conflicts) := by
  intro before after
  let conflicts := (p.findingsInOrder b).filterMap (a.conflict? ·.2)
  have hbefore : (conflicts = [] ∧ ∃ total, before = .ok total) ∨
      conflicts ≠ [] ∧ before = .error (.conflicts conflicts) :=
    answer_collect_inOrder hknown fun f hf => (h.keeps f hf).takesFindings
  have hafter : (conflicts = [] ∧ ∃ total, after = .ok total) ∨
      conflicts ≠ [] ∧ after = .error (.conflicts conflicts) := by
    dsimp only [conflicts]
    rw [← h.findingsInOrder_eq]
    exact answer_collect_inOrder (h.known hknown) fun g hg => (h.keeps_after g hg).takesFindings
  by_cases hnil : conflicts = []
  · simp only [hnil, true_and, ne_eq, not_true, false_and, or_false] at hbefore hafter
    obtain ⟨total, hbefore⟩ := hbefore
    obtain ⟨total', hafter⟩ := hafter
    exact .inl ⟨total, total', hbefore, hafter⟩
  · simp only [hnil, false_and, false_or, ne_eq, not_false_iff, true_and] at hbefore hafter
    exact .inr ⟨conflicts, hbefore, hafter⟩

/-- Nothing is inserted or extended. -/
theorem inserted_extended_eq_zero (h : HandedOver a b p q)
    (hok : (q.ingest a again b).1 = .ok total) : total.inserted = 0 ∧ total.extended = 0 := by
  -- No worker counts any, and the tally is the sum over the workers.
  have hworker (g : Function) (hg : g ∈ q.functions) :
      (workerAfter a again.conflictPolicy b g).tally.inserted = 0 ∧
        (workerAfter a again.conflictPolicy b g).tally.extended = 0 := by
    have hsettled := h.settled g hg
    rw [workerAfter, Worker.start]
    cases hfind : b.find? g.id with
    | none => exact ⟨rfl, rfl⟩
    | some findings =>
      rw [findingsOf_of_find? hfind] at hsettled
      have hrests := Task.rests_finish again.conflictPolicy hsettled
      exact ⟨hrests.inserted_eq, hrests.extended_eq⟩
  rw [measure_of_ingest_eq_ok (m := Tally.inserted) rfl (fun _ _ => rfl) hok,
    measure_of_ingest_eq_ok (m := Tally.extended) rfl (fun _ _ => rfl) hok, List.sum_eq_zero_iff,
    List.sum_eq_zero_iff, List.forall_mem_map, List.forall_mem_map]
  exact ⟨fun g hg => (hworker g hg).1, fun g hg => (hworker g hg).2⟩

end HandedOver

/-- After a batch that nothing ended early, its findings are handed over. -/
theorem handedOver_of_ingest (hkeeps : ∀ f ∈ p.functions, f.KeepsData)
    (hknown : ∀ group ∈ b.groups, (p.function? group.1).isSome)
    (hall : config.conflictPolicy = .collect ∨ ∃ total, (p.ingest a config b).1 = .ok total) :
    HandedOver a b p (p.ingest a config b).2 := by
  refine ⟨?_, hkeeps⟩
  rw [ingest_eq_collect hall]
  exact functions_collect hknown fun f hf => (hkeeps f hf).takesFindings

/-- **A batch that was answered with a tally has nothing new** when it is taken in again. -/
theorem ingest_again_of_eq_ok (hkeeps : ∀ f ∈ p.functions, f.KeepsData)
    (hok : (p.ingest a config b).1 = .ok total) (again : IngestConfig) :
    let after := (p.ingest a config b).2
    after.ingest a again b =
      (.ok ⟨total.functions, 0, total.recorded, 0, total.shadowed⟩, after) := by
  intro after
  have hknown := known_of_ingest_eq_ok hok
  have hhanded : HandedOver a b p after := handedOver_of_ingest hkeeps hknown (.inr ⟨total, hok⟩)
  -- Without a conflict before there is none now.
  obtain ⟨total', hok'⟩ : ∃ total', (after.ingest a again b).1 = .ok total' := by
    obtain ⟨_, total', -, hok'⟩ | ⟨_, herror, -⟩ := hhanded.answers_collect 0 0 hknown
    · exact ⟨total', ingest_eq_ok_congr _ again hok'⟩
    · rw [ingest_eq_ok_congr config _ hok] at herror
      cases herror
  obtain ⟨hinserted, hextended⟩ := hhanded.inserted_extended_eq_zero hok'
  obtain ⟨hfunctions, hrecorded, hshadowed⟩ := tally_of_ingest_eq_ok hok
  obtain ⟨hfunctions', hrecorded', hshadowed'⟩ := tally_of_ingest_eq_ok hok'
  have hsame : total' = ⟨total.functions, 0, total.recorded, 0, total.shadowed⟩ := by
    rw [hhanded.findingsInOrder_eq] at hrecorded' hshadowed'
    have hnamed : total'.functions = total.functions := by
      rw [hfunctions', hfunctions, hhanded.functions_eq, List.countP_map]
      simp only [Function.comp_def, Arbiter.id_handAll]
    -- As many findings are recorded as before, and now all of them are duplicates.
    have hduplicates : total'.duplicates = total.recorded := by
      rw [hrecorded, ← hrecorded', Tally.recorded, hinserted, hextended]
      omega
    rw [Tally.mk.injEq]
    exact ⟨hnamed, hinserted, hduplicates, hextended, hshadowed'.trans hshadowed.symm⟩
  rw [← hsame]
  exact Prod.ext hok' hhanded.ingest_eq

/-- **A batch that was answered with conflicts meets them again**, and nothing else. -/
theorem ingest_again_of_eq_conflicts (hkeeps : ∀ f ∈ p.functions, f.KeepsData)
    (herror : (p.ingest a config b).1 = .error (.conflicts conflicts))
    (hcollect : config.conflictPolicy = .collect) (hagain : again.conflictPolicy = .collect) :
    let after := (p.ingest a config b).2
    after.ingest a again b = (.error (.conflicts conflicts), after) := by
  intro after
  have hknown := known_of_ingest_eq_conflicts herror
  have hhanded : HandedOver a b p after := handedOver_of_ingest hkeeps hknown (.inl hcollect)
  obtain ⟨policy, threshold⟩ := config
  obtain ⟨policy', threshold'⟩ := again
  obtain rfl : policy = .collect := hcollect
  obtain rfl : policy' = .collect := hagain
  refine Prod.ext ?_ hhanded.ingest_eq
  obtain ⟨total, -, hok, -⟩ | ⟨_, hbefore, hafter⟩ :=
    hhanded.answers_collect threshold threshold' hknown
  · rw [hok] at herror
    cases herror
  · rw [hbefore] at herror
    cases herror
    exact hafter

end Program

/-! ### Sessions -/

namespace Session

/-- **Taking in a batch again changes nothing.**  A session begins with an empty program and takes
any steps.  Then its program, whose stores keep older entries, takes in a batch by any arbiter, and
takes it in again, each time in any configuration.

* If the first answer is a tally, the second one is a tally of as many functions and shadowed
  findings, in which all other findings are duplicates: as many as no symbol overlaps.
* If the first answer is a list of conflicts, the second one is the same list, as long as both times
  conflicts are collected.

In both cases the program is left exactly as it was after the first time. -/
theorem ingest_again_changes_nothing (s : Session) (policy : DuplicatePolicy) (whats : List Step)
    (a : Arbiter) (b : Batch) (config again : IngestConfig) (hnew : s.run.program = .empty policy)
    (hpolicy : ∀ f ∈ (s.steps whats).2.run.program.functions, f.findings.policy = .keepFirst) :
    let p := (s.steps whats).2.run.program
    let after := (p.ingest a config b).2
    (∀ total, (p.ingest a config b).1 = .ok total →
      ∃ duplicates, after.ingest a again b =
          (.ok ⟨total.functions, 0, duplicates, 0, total.shadowed⟩, after) ∧
        duplicates = total.inserted + total.duplicates + total.extended ∧
        duplicates = (p.findingsInOrder b).countP (a.Admits ·.2.span) ∧
        (p.functions.length ≤ UInt32.size →
          duplicates = b.findings.countP (a.Admits ·.2.span))) ∧
    ∀ conflicts, (p.ingest a config b).1 = .error (.conflicts conflicts) →
      config.conflictPolicy = .collect → again.conflictPolicy = .collect →
      after.ingest a again b = (.error (.conflicts conflicts), after) := by
  intro p after
  obtain ⟨policy', hevolves⟩ := hasEvolved_steps hnew whats
  have hkeeps : ∀ f ∈ p.functions, f.KeepsData :=
    fun f hf => ⟨hpolicy f hf, hevolves.kind_of_empty hf⟩
  refine ⟨?_, ?_⟩
  · intro total hok
    obtain ⟨-, hrecorded, -⟩ := Program.tally_of_ingest_eq_ok hok
    refine ⟨total.recorded, Program.ingest_again_of_eq_ok hkeeps hok again, rfl, hrecorded, ?_⟩
    intro hcount
    rw [hrecorded]
    exact (Program.perm_findingsInOrder hevolves.numbered_of_empty
      (Program.known_of_ingest_eq_ok hok) hcount).countP_eq _
  · intro conflicts herror hcollect hagain
    exact Program.ingest_again_of_eq_conflicts hkeeps herror hcollect hagain

/-- A finding widens an entry twice, and another one is over data; then the batch is taken in again
under the other policy.  With a finding in conflict it is collected twice. -/
theorem ingest_again_changes_nothing_of_widened :
    let symbols := ((Store.empty .keepFirst).put (.ofSymbol ⟨32, 16⟩ .data ⟨0⟩ ⟨"table"⟩)).put
      (.ofSymbol ⟨128, 16⟩ .text ⟨0⟩ ⟨"code"⟩)
    let a := Ledger.freeze { Ledger.empty default with symbols }
    let s : Session := ⟨.start 4096 none default, .arbitrating a, []⟩
    let whats : List Step := [.addPackage "p", .addFunction "f" ⟨0⟩ .function "",
      .finding ⟨0⟩ ⟨⟨64, 2⟩, default⟩]
    let findings : List Finding :=
      [⟨⟨64, 8⟩, ⟨some "s"⟩⟩, ⟨⟨40, 16⟩, default⟩, ⟨⟨64, 4⟩, default⟩, ⟨⟨80, 4⟩, default⟩]
    let b := Batch.ofList [(⟨0⟩, findings)]
    let b' := Batch.ofList [(⟨0⟩, ⟨⟨120, 16⟩, default⟩ :: findings)]
    let p := (s.steps whats).2.run.program
    let after := (p.ingest a ⟨.abort, 128⟩ b).2
    let after' := (p.ingest a ⟨.collect, 1⟩ b').2
    s.run.program = .empty .keepFirst ∧
      (∀ f ∈ p.functions, f.findings.policy = .keepFirst) ∧
      (p.ingest a ⟨.abort, 128⟩ b).1 = .ok ⟨1, 1, 0, 2, 1⟩ ∧
      after.ingest a ⟨.collect, 1⟩ b = (.ok ⟨1, 0, 3, 0, 1⟩, after) ∧
      (p.ingest a ⟨.collect, 1⟩ b').1 = .error (.conflicts [⟨⟨120, 16⟩, .text, .data⟩]) ∧
      after'.ingest a ⟨.collect, 1⟩ b' =
        (.error (.conflicts [⟨⟨120, 16⟩, .text, .data⟩]), after') := by
  intro symbols a s whats findings b b' p after after'
  have hnew : s.run.program = .empty .keepFirst := rfl
  have hkeeps : ∀ what ∈ whats, what.keepsProgram := by decide
  have hbuilt : s.run.program.Evolves p := evolves_steps hkeeps
  have hpolicy : ∀ f ∈ p.functions, f.findings.policy = .keepFirst :=
    hbuilt.forall_policy_of_empty
  have hok : (p.ingest a ⟨.abort, 128⟩ b).1 = .ok ⟨1, 1, 0, 2, 1⟩ := by
    unfold p s whats a b findings
    decide_cbv
  have herror : (p.ingest a ⟨.collect, 1⟩ b').1 =
      .error (.conflicts [⟨⟨120, 16⟩, .text, .data⟩]) := by
    unfold p s whats a b' findings
    decide_cbv
  obtain ⟨hagain, -⟩ := ingest_again_changes_nothing s .keepFirst whats a b ⟨.abort, 128⟩
    ⟨.collect, 1⟩ hnew hpolicy
  obtain ⟨_, hanswer, rfl, -⟩ := hagain _ hok
  obtain ⟨-, hagain'⟩ := ingest_again_changes_nothing s .keepFirst whats a b' ⟨.collect, 1⟩
    ⟨.collect, 1⟩ hnew hpolicy
  exact ⟨hnew, hpolicy, hok, hanswer, herror, hagain' _ herror rfl rfl⟩

end Session

end ByteCensus
