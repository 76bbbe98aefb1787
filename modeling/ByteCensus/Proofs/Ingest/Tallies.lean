import Mathlib.Algebra.Order.BigOperators.Group.List
import Mathlib.Algebra.Order.Ring.Nat
import ByteCensus.Proofs.History
import ByteCensus.Proofs.Ingest.Conflicts

/-!
# A tally accounts for every finding

A finding that is ruled on is shadowed or recorded, as the symbol table says, and the tally of its
task counts it once (`Task.Accounts`).  What is recorded is a new entry of the store, or an older
one stays, is widened or is overwritten; only the last of these is counted as an insertion too, so
a store grows by what was inserted unless newer entries replace older ones in it (`Task.Grows`).

The tally of a batch adds up those of its tasks, hence so do all numbers in it
(`Program.measure_of_ingest_eq_ok`).  `Session.tally_accounts_for_findings` says what they are.
-/

namespace ByteCensus

/-! ### Stores -/

namespace Store

variable {s s' : Store} {e : Evidence} {outcome : InsertOutcome}

theorem size_put (s : Store) (e : Evidence) :
    (s.put e).size = if (s.get? e.start).isSome then s.size else s.size + 1 := by
  -- An entry may go anywhere in the list, so count the set of starts instead.
  have hstarts : ((s.put e).entries.map Evidence.start).toFinset =
      Insert.insert e.start (s.entries.map Evidence.start).toFinset := by
    ext x
    rw [Finset.mem_insert, List.mem_toFinset, List.mem_toFinset, mem_starts_iff, mem_starts_iff,
      get?_put]
    by_cases hx : e.start = x
    · simp [hx]
    · simp [hx, Ne.symm hx]
  rw [size_eq_card, hstarts, Finset.card_insert_eq_ite, size_eq_card]
  simp only [List.mem_toFinset, mem_starts_iff]

/-- A store grows by the entries whose start was free. -/
theorem size_of_insert (h : s.insert e = .ok (outcome, s')) :
    s'.size = s.size + if outcome = .inserted then 1 else 0 := by
  obtain ⟨hfree, rfl, rfl⟩ | ⟨kept, hkept, ⟨-, rfl, rfl⟩ | ⟨-, -, ⟨-, rfl, rfl⟩ | ⟨-, rfl, rfl⟩⟩⟩ :=
    insert_eq_ok h
  · simp [size_put, hfree]
  · simp [size_put, hkept]
  · simp
  · have hstart : (widen kept e).start = e.start := rfl
    simp [size_put, hstart, hkept]

/-- Only a store that replaces older entries overwrites one, and it does nothing else with them. -/
theorem outcome_of_insert (h : s.insert e = .ok (outcome, s')) :
    (outcome = .replaced → s.policy = .replace) ∧
      (s.policy = .replace → outcome = .inserted ∨ outcome = .replaced) := by
  obtain ⟨-, rfl, -⟩ | ⟨_, -, ⟨hpolicy, rfl, -⟩ | ⟨hpolicy, -, ⟨-, rfl, -⟩ | ⟨-, rfl, -⟩⟩⟩ :=
    insert_eq_ok h
  · simp
  all_goals simp [hpolicy]

end Store

/-! ### Tallies -/

namespace Tally

/-- The findings that a store took, of whatever outcome. -/
def recorded (t : Tally) : Nat := t.inserted + t.duplicates + t.extended

theorem recorded_add (t u : Tally) : (t + u).recorded = t.recorded + u.recorded := by
  show t.inserted + u.inserted + (t.duplicates + u.duplicates) + (t.extended + u.extended) =
    t.inserted + t.duplicates + t.extended + (u.inserted + u.duplicates + u.extended)
  omega

theorem functions_count (t : Tally) (ruling : Ruling) :
    (t.count ruling).functions = t.functions := by
  cases ruling with
  | shadowed => rfl
  | recorded outcome => cases outcome <;> rfl

theorem shadowed_count_recorded (t : Tally) (outcome : InsertOutcome) :
    (t.count (.recorded outcome)).shadowed = t.shadowed := by
  cases outcome <;> rfl

theorem recorded_count_recorded (t : Tally) (outcome : InsertOutcome) :
    (t.count (.recorded outcome)).recorded = t.recorded + 1 := by
  cases outcome <;> simp only [count, recorded] <;> omega

theorem inserted_count_recorded (t : Tally) (outcome : InsertOutcome) :
    (t.count (.recorded outcome)).inserted =
      t.inserted + if outcome = .inserted ∨ outcome = .replaced then 1 else 0 := by
  cases outcome <;> rfl

end Tally

variable {a : Arbiter} {policy : ConflictPolicy} {b : Batch} {f g : Program.Function}
  {finding : Finding} {findings : List Finding}

namespace Arbiter

instance (a : Arbiter) (span : Span) : Decidable (a.Admits span) :=
  inferInstanceAs (Decidable (∀ q ∈ a.symbolCoverage.parts, ¬ span.Overlaps q.span))

/-- A finding that is ruled on is stored if the symbol table admits it, and shadowed otherwise. -/
theorem rule_eq_ok_cases {ruling : Ruling} (h : a.rule f finding = .ok (ruling, g)) :
    (a.Admits finding.span ∧ ∃ outcome findings, ruling = .recorded outcome ∧
      f.findings.insert (.ofFinding finding.span f.package f.id finding.detail) =
        .ok (outcome, findings) ∧ g = { f with findings }) ∨
    ¬ a.Admits finding.span ∧ ruling = .shadowed ∧ g = f := by
  obtain ⟨outcome, findings, hverdict, hinsert, hrule⟩ | ⟨_, -, -, hrule⟩ | ⟨hverdict, hrule⟩ |
      ⟨_, -, -, hrule⟩ := rule_cases a f finding
  all_goals
    rw [hrule] at h
    cases h
  · exact .inl ⟨admits_iff.2 hverdict, outcome, findings, rfl, hinsert, rfl⟩
  · right
    rw [admits_iff, hverdict]
    exact ⟨nofun, rfl, rfl⟩

/-- A ruling counts once, as recorded or as shadowed. -/
theorem count_of_rule_eq_ok {ruling : Ruling} (h : a.rule f finding = .ok (ruling, g))
    (t : Tally) :
    (t.count ruling).functions = t.functions ∧
      (t.count ruling).recorded = t.recorded + (if a.Admits finding.span then 1 else 0) ∧
      (t.count ruling).shadowed = t.shadowed + (if ¬ a.Admits finding.span then 1 else 0) := by
  obtain ⟨hadmits, outcome, -, rfl, -, -⟩ | ⟨hnot, rfl, -⟩ := rule_eq_ok_cases h
  · rw [if_pos hadmits, if_neg (not_not.2 hadmits)]
    exact ⟨t.functions_count _, t.recorded_count_recorded outcome,
      t.shadowed_count_recorded outcome⟩
  · rw [if_neg hnot, if_pos hnot]
    exact ⟨rfl, rfl, rfl⟩

end Arbiter

/-! ### Tasks -/

namespace Task

variable {t : Task}

/-- A task under way counts the findings that are no longer pending, unless there is something to
report. -/
structure Accounts (a : Arbiter) (findings : List Finding) (t : Task) : Prop where
  functions_eq : t.report.tally.functions = 1
  recorded_eq : t.report.IsClean → t.report.tally.recorded + t.pending.countP (a.Admits ·.span) =
    findings.countP (a.Admits ·.span)
  shadowed_eq : t.report.IsClean → t.report.tally.shadowed + t.pending.countP (¬ a.Admits ·.span) =
    findings.countP (¬ a.Admits ·.span)

theorem Accounts.step (h : t.Accounts a findings) : (t.step a policy).Accounts a findings := by
  obtain ⟨-, hstep⟩ | ⟨finding, rest, hpending, ⟨ruling, g, hrule, hstep⟩ | ⟨c, -, hstep⟩ |
      ⟨_, _, _, -, hstep⟩⟩ := step_cases a policy t
  · rw [hstep]
    exact h
  · rw [hstep]
    obtain ⟨hfunctions, hrecorded, hshadowed⟩ :=
      Arbiter.count_of_rule_eq_ok hrule t.report.tally
    refine ⟨hfunctions.trans h.functions_eq, ?_, ?_⟩
    all_goals
      intro hclean
      -- A ruling adds nothing to report, so there was nothing before it.
      have hclean' : t.report.IsClean := ⟨hclean.failure, hclean.conflicts⟩
      dsimp only
    · have hbefore := h.recorded_eq hclean'
      rw [hpending, List.countP_cons] at hbefore
      simp only [decide_eq_true_eq] at hbefore
      omega
    · have hbefore := h.shadowed_eq hclean'
      rw [hpending, List.countP_cons] at hbefore
      simp only [decide_eq_true_eq] at hbefore
      omega
  -- A conflict or another error is reported, and the report is not clean.
  · rw [hstep]
    have hnot (conflicts : List Conflict) : conflicts ++ [c] ≠ [] :=
      List.append_ne_nil_of_right_ne_nil _ (List.cons_ne_nil c [])
    exact ⟨h.functions_eq, fun hclean => absurd hclean.conflicts (hnot _),
      fun hclean => absurd hclean.conflicts (hnot _)⟩
  · rw [hstep]
    have hnot (err : Error) : some err ≠ none := nofun
    exact ⟨h.functions_eq, fun hclean => absurd hclean.failure (hnot _),
      fun hclean => absurd hclean.failure (hnot _)⟩

/-- The tally of a task that has come to its end with nothing to report. -/
theorem accounts_finish (a : Arbiter) (policy : ConflictPolicy) (f : Program.Function)
    (findings : List Finding) :
    let done := (ofFindings f findings).finish a policy
    done.report.tally.functions = 1 ∧ (done.report.IsClean →
      done.report.tally.recorded = findings.countP (a.Admits ·.span) ∧
      done.report.tally.shadowed = findings.countP (¬ a.Admits ·.span)) := by
  intro done
  have hstart : (ofFindings f findings).Accounts a findings := by
    have hperm := arrange_perm findings
    refine ⟨rfl, fun _ => ?_, fun _ => ?_⟩
    · show 0 + (arrange findings).countP _ = _
      rw [Nat.zero_add, hperm.countP_eq]
    · show 0 + (arrange findings).countP _ = _
      rw [Nat.zero_add, hperm.countP_eq]
  have hend : done.Accounts a findings := finish_induction _ hstart fun _ h => h.step
  have hpending : done.pending = [] := pending_finish a policy _
  refine ⟨hend.functions_eq, fun hclean => ⟨?_, ?_⟩⟩
  · simpa [hpending] using hend.recorded_eq hclean
  · simpa [hpending] using hend.shadowed_eq hclean

/-- The store of the function `f` has grown, since the task began with it, as the tally says. -/
structure Grows (f : Program.Function) (t : Task) : Prop where
  policy_eq : t.function.findings.policy = f.findings.policy
  size_le : t.function.findings.size ≤ f.findings.size + t.report.tally.inserted
  size_eq : f.findings.policy ≠ .replace →
    t.function.findings.size = f.findings.size + t.report.tally.inserted
  replaces : f.findings.policy = .replace →
    t.report.tally.duplicates = 0 ∧ t.report.tally.extended = 0

theorem Grows.step (h : t.Grows f) : (t.step a policy).Grows f := by
  obtain ⟨-, hstep⟩ | ⟨finding, rest, -, ⟨ruling, g, hrule, hstep⟩ | ⟨c, -, hstep⟩ |
      ⟨_, _, _, -, hstep⟩⟩ := step_cases a policy t
  · rw [hstep]
    exact h
  · rw [hstep]
    obtain ⟨-, outcome, findings, rfl, hinsert, rfl⟩ | ⟨-, rfl, rfl⟩ :=
      Arbiter.rule_eq_ok_cases hrule
    · obtain ⟨hreplaced, hreplace⟩ := Store.outcome_of_insert hinsert
      have hsize := Store.size_of_insert hinsert
      have hcount := Tally.inserted_count_recorded t.report.tally outcome
      refine ⟨(Store.policy_of_insert hinsert).trans h.policy_eq, ?_, ?_, ?_⟩
      · -- An entry that is overwritten is counted, but the store does not grow by it.
        have hle := h.size_le
        dsimp only
        rw [hcount]
        cases outcome <;> simp at hsize ⊢ <;> omega
      · -- Nothing is overwritten here, so the outcome is counted iff the start was free.
        intro hpolicy
        have heq := h.size_eq hpolicy
        have hnot : outcome ≠ .replaced :=
          fun houtcome => hpolicy (h.policy_eq.symm.trans (hreplaced houtcome))
        dsimp only
        rw [hcount]
        cases outcome <;> simp at hsize hnot ⊢ <;> omega
      · intro hpolicy
        obtain rfl | rfl := hreplace (h.policy_eq.trans hpolicy)
        all_goals exact h.replaces hpolicy
    · exact ⟨h.policy_eq, h.size_le, h.size_eq, h.replaces⟩
  · rw [hstep]
    exact ⟨h.policy_eq, h.size_le, h.size_eq, h.replaces⟩
  · rw [hstep]
    exact ⟨h.policy_eq, h.size_le, h.size_eq, h.replaces⟩

theorem grows_finish (a : Arbiter) (policy : ConflictPolicy) (f : Program.Function)
    (findings : List Finding) :
    ((ofFindings f findings).finish a policy).Grows f := by
  have hstart : (ofFindings f findings).Grows f :=
    ⟨rfl, Nat.le_refl _, fun _ => rfl, fun _ => ⟨rfl, rfl⟩⟩
  exact finish_induction _ hstart fun _ h => h.step

end Task

/-! ### Reports -/

namespace Report

variable {reports : List Report}

theorem gather_of_isClean (h : ∀ r ∈ reports, r.IsClean) (tally : Tally) :
    gather policy tally [] reports = .ok (reports.foldl (fun t r => t + r.tally) tally, []) := by
  induction reports generalizing tally with
  | nil => rfl
  | cons r rest ih =>
    obtain ⟨hr, hrest⟩ := List.forall_mem_cons.1 h
    rw [gather_cons_of_not_isFinal (hr.isFinal_eq_false _), hr.conflicts]
    exact ih hrest _

/-- With nothing to report the answer is the sum of the tallies. -/
theorem conclude_of_isClean (h : ∀ r ∈ reports, r.IsClean) :
    conclude policy reports = .ok (reports.foldl (fun t r => t + r.tally) {}) := by
  unfold conclude
  rw [gather_of_isClean h]
  rfl

end Report

/-! ### Batches -/

namespace Worker

/-- The tally of the worker's task; nothing is counted for a function without findings. -/
def tally : Worker → Tally
  | idle _ => {}
  | busy t => t.report.tally

variable {m : Tally → Nat}

/-- What adds up over tallies adds up over the workers of a pool. -/
theorem measure_foldl_report (hzero : m {} = 0) (hadd : ∀ t u, m (t + u) = m t + m u)
    (pool : List Worker) (tally : Tally) :
    m ((pool.filterMap report?).foldl (fun t r => t + r.tally) tally) =
      m tally + (pool.map fun w => m w.tally).sum := by
  -- Workers without a task hand in no report, and measure nothing.
  induction pool generalizing tally with
  | nil => rfl
  | cons w rest ih =>
    cases w with
    | idle f =>
      have hidle : m (idle f).tally = 0 := hzero
      rw [List.filterMap_cons_none rfl, ih, List.map_cons, List.sum_cons, hidle, Nat.zero_add]
    | busy t =>
      have hbusy : m (busy t).tally = m t.report.tally := rfl
      rw [List.filterMap_cons_some (report?_busy t), List.foldl_cons, ih, hadd, List.map_cons,
        List.sum_cons, hbusy, Nat.add_assoc]

end Worker

namespace Program

variable {p : Program} {config : IngestConfig} {total : Tally}

/-- The worker for a function, after its task was carried out. -/
def workerAfter (a : Arbiter) (policy : ConflictPolicy) (b : Batch) (f : Function) : Worker :=
  (Worker.start b f).finish a policy

/-- **What adds up over tallies adds up over the functions of an answered batch.** -/
theorem measure_of_ingest_eq_ok {m : Tally → Nat} (hzero : m {} = 0)
    (hadd : ∀ t u, m (t + u) = m t + m u) (h : (p.ingest a config b).1 = .ok total) :
    m total = (p.functions.map fun f => m (workerAfter a config.conflictPolicy b f).tally).sum := by
  have hanswer : (p.ingest a config b).1 = _ := answer_ingest (known_of_ingest_eq_ok h)
  rw [h, Report.conclude_of_isClean (isClean_of_ingest_eq_ok h)] at hanswer
  rw [Except.ok.inj hanswer, Worker.measure_foldl_report hzero hadd, hzero, Nat.zero_add,
    finishedPool, List.map_map]
  rfl

/-- What the tally of an answered batch counts for one of the functions. -/
theorem tally_workerAfter (h : (p.ingest a config b).1 = .ok total) (hf : f ∈ p.functions) :
    let w := workerAfter a config.conflictPolicy b f
    w.tally.functions = (if (b.find? f.id).isSome then 1 else 0) ∧
      w.tally.recorded = (b.findingsOf f.id).countP (a.Admits ·.span) ∧
      w.tally.shadowed = (b.findingsOf f.id).countP (¬ a.Admits ·.span) := by
  dsimp only
  cases hfind : b.find? f.id with
  | none =>
    rw [workerAfter, Worker.start, Batch.findingsOf, hfind]
    exact ⟨rfl, rfl, rfl⟩
  | some findings =>
    have hworker : workerAfter a config.conflictPolicy b f =
        .busy ((Task.ofFindings f findings).finish a config.conflictPolicy) := by
      rw [workerAfter, Worker.start, hfind]
      rfl
    have hclean := isClean_of_ingest_eq_ok h _ (List.mem_filterMap.2
      ⟨_, List.mem_map.2 ⟨f, hf, hworker⟩, Worker.report?_busy _⟩)
    obtain ⟨hfunctions, hcounts⟩ := Task.accounts_finish a config.conflictPolicy f findings
    rw [hworker, findingsOf_of_find? hfind]
    exact ⟨hfunctions, hcounts hclean⟩

/-- The findings for all functions, counted. -/
theorem countP_findingsInOrder (p : Program) (b : Batch) (P : Finding → Bool) :
    (p.findingsInOrder b).countP (P ·.2) =
      (p.functions.map fun f => (b.findingsOf f.id).countP P).sum := by
  unfold findingsInOrder
  rw [List.countP_flatMap]
  congr 1
  apply List.map_congr_left
  intro f _
  rw [Function.comp_apply, List.countP_map]
  exact (Task.arrange_perm _).countP_eq P

theorem sum_map_ite_eq_countP (functions : List Function) (P : Function → Bool) :
    (functions.map fun f => if P f then 1 else 0).sum = functions.countP P := by
  induction functions with
  | nil => rfl
  | cons f rest ih =>
    rw [List.map_cons, List.sum_cons, ih, List.countP_cons, Nat.add_comm]

/-- **What the tally of an answered batch counts.** -/
theorem tally_of_ingest_eq_ok (h : (p.ingest a config b).1 = .ok total) :
    total.functions = p.functions.countP (fun f => (b.find? f.id).isSome) ∧
      total.recorded = (p.findingsInOrder b).countP (a.Admits ·.2.span) ∧
      total.shadowed = (p.findingsInOrder b).countP (¬ a.Admits ·.2.span) := by
  have hworker (f : Function) (hf : f ∈ p.functions) := tally_workerAfter h hf
  refine ⟨?_, ?_, ?_⟩
  · rw [measure_of_ingest_eq_ok (m := Tally.functions) rfl (fun _ _ => rfl) h,
      List.map_congr_left fun f hf => (hworker f hf).1]
    exact sum_map_ite_eq_countP _ _
  · rw [measure_of_ingest_eq_ok rfl Tally.recorded_add h,
      List.map_congr_left fun f hf => (hworker f hf).2.1,
      countP_findingsInOrder p b (a.Admits ·.span)]
  · rw [measure_of_ingest_eq_ok (m := Tally.shadowed) rfl (fun _ _ => rfl) h,
      List.map_congr_left fun f hf => (hworker f hf).2.2,
      countP_findingsInOrder p b (¬ a.Admits ·.span)]

/-- Every finding is recorded or shadowed. -/
theorem recorded_add_shadowed (h : (p.ingest a config b).1 = .ok total) :
    total.recorded + total.shadowed = (p.findingsInOrder b).length := by
  obtain ⟨-, hrecorded, hshadowed⟩ := tally_of_ingest_eq_ok h
  rw [hrecorded, hshadowed, List.length_eq_countP_add_countP (a.Admits ·.2.span)]
  simp only [decide_eq_true_eq]

/-! ### Growth -/

/-- The number of entries in the stores of all functions. -/
def storedEntries (p : Program) : Nat := (p.functions.map (·.findings.size)).sum

/-- How the store of a function has grown in an answered batch. -/
theorem size_workerAfter (a : Arbiter) (policy : ConflictPolicy) (b : Batch) (f : Function) :
    let w := workerAfter a policy b f
    w.function.findings.size ≤ f.findings.size + w.tally.inserted ∧
      (f.findings.policy ≠ .replace →
        w.function.findings.size = f.findings.size + w.tally.inserted) ∧
      (f.findings.policy = .replace → w.tally.duplicates = 0 ∧ w.tally.extended = 0) := by
  dsimp only
  rw [workerAfter, Worker.start]
  cases b.find? f.id with
  | none => exact ⟨Nat.le_refl _, fun _ => rfl, fun _ => ⟨rfl, rfl⟩⟩
  | some findings =>
    have hgrows := Task.grows_finish a policy f findings
    exact ⟨hgrows.size_le, hgrows.size_eq, hgrows.replaces⟩

theorem storedEntries_of_ingest_eq_ok (h : (p.ingest a config b).1 = .ok total) :
    (p.ingest a config b).2.storedEntries = (p.functions.map fun f =>
      (workerAfter a config.conflictPolicy b f).function.findings.size).sum := by
  rw [storedEntries, functions_of_ingest_eq_ok h, finishedPool, List.map_map, List.map_map]
  rfl

theorem storedEntries_le (h : (p.ingest a config b).1 = .ok total) :
    (p.ingest a config b).2.storedEntries ≤ p.storedEntries + total.inserted := by
  rw [storedEntries_of_ingest_eq_ok h, storedEntries,
    measure_of_ingest_eq_ok (m := Tally.inserted) rfl (fun _ _ => rfl) h, ← List.sum_map_add]
  apply List.sum_le_sum
  intro f _
  exact (size_workerAfter a _ b f).1

/-- Where newer entries do not replace older ones, the stores grow by what was inserted. -/
theorem storedEntries_eq (h : (p.ingest a config b).1 = .ok total)
    (hpolicy : ∀ f ∈ p.functions, f.findings.policy ≠ .replace) :
    (p.ingest a config b).2.storedEntries = p.storedEntries + total.inserted := by
  rw [storedEntries_of_ingest_eq_ok h, storedEntries,
    measure_of_ingest_eq_ok (m := Tally.inserted) rfl (fun _ _ => rfl) h, ← List.sum_map_add]
  congr 1
  apply List.map_congr_left
  intro f hf
  exact (size_workerAfter a _ b f).2.1 (hpolicy f hf)

/-- Where newer entries replace older ones, nothing is a duplicate or an extension. -/
theorem duplicates_extended_eq_zero (h : (p.ingest a config b).1 = .ok total)
    (hpolicy : ∀ f ∈ p.functions, f.findings.policy = .replace) :
    total.duplicates = 0 ∧ total.extended = 0 := by
  -- No function counts any, so their sums are zero.
  have hworker (f : Function) (hf : f ∈ p.functions) :=
    (size_workerAfter a config.conflictPolicy b f).2.2 (hpolicy f hf)
  rw [measure_of_ingest_eq_ok (m := Tally.duplicates) rfl (fun _ _ => rfl) h,
    measure_of_ingest_eq_ok (m := Tally.extended) rfl (fun _ _ => rfl) h, List.sum_eq_zero_iff,
    List.sum_eq_zero_iff]
  constructor
  all_goals
    rintro n hn
    obtain ⟨f, hf, rfl⟩ := List.mem_map.1 hn
  · exact (hworker f hf).1
  · exact (hworker f hf).2

/-! ### Functions with findings -/

/-- With a handle for each function, a batch for known functions has as many groups as the program
has functions with findings. -/
theorem countP_named (hnumbered : p.Numbered)
    (hknown : ∀ group ∈ b.groups, (p.function? group.1).isSome)
    (hcount : p.functions.length ≤ UInt32.size) :
    p.functions.countP (fun f => (b.find? f.id).isSome) = b.size := by
  have hnodup : ((p.functions.map (·.id)).filter fun id => (b.find? id).isSome).Nodup :=
    (hnumbered.nodup_ids hcount).sublist List.filter_sublist
  -- The functions with findings and the groups are the same handles, none of them twice.
  have hperm : ((p.functions.map (·.id)).filter fun id => (b.find? id).isSome).Perm
      (b.groups.map (·.1)) := by
    rw [List.perm_ext_iff_of_nodup hnodup b.nodup_functions]
    intro id
    rw [List.mem_filter, List.mem_map, List.mem_map]
    constructor
    · rintro ⟨-, hnamed⟩
      obtain ⟨findings, hfind⟩ := Option.isSome_iff_exists.1 hnamed
      exact ⟨_, Batch.find?_eq_some_iff.1 hfind, rfl⟩
    · rintro ⟨group, hgroup, rfl⟩
      obtain ⟨f, hf⟩ := Option.isSome_iff_exists.1 (hknown group hgroup)
      refine ⟨⟨f, mem_of_function? hf, hnumbered.id_eq hf⟩, ?_⟩
      rw [Batch.find?_of_mem hgroup]
      rfl
  rw [Batch.size, ← List.length_map (·.1), ← hperm.length_eq, ← List.countP_eq_length_filter,
    List.countP_map]
  rfl

end Program

/-! ### Sessions -/

namespace Session

/-- **A tally accounts for every finding.**  A session begins with an empty program and takes any
steps.  Then its program takes in a batch by any arbiter, in any configuration, and answers with a
tally.

* The functions are those with findings, every finding is inserted, a duplicate, an extension or
  shadowed, and the shadowed ones are those that overlap a part of the symbol coverage.  As long as
  there are enough handles for all functions, this counts the groups and the findings of the batch.
* The stores of all functions together grow by what was inserted, where newer entries do not replace
  older ones.
* Where they do, the stores grow by no more than that, and nothing is a duplicate or an
  extension. -/
theorem tally_accounts_for_findings (s : Session) (policy : DuplicatePolicy) (whats : List Step)
    (a : Arbiter) (config : IngestConfig) (b : Batch) (total : Tally)
    (hnew : s.run.program = .empty policy)
    (hok : ((s.steps whats).2.run.program.ingest a config b).1 = .ok total) :
    let p := (s.steps whats).2.run.program
    let after := (p.ingest a config b).2
    let handled := total.inserted + total.duplicates + total.extended + total.shadowed
    let overlapsSymbol (x : FunctionId × Finding) : Bool :=
      ∃ q ∈ a.symbolCoverage.parts, x.2.span.Overlaps q.span
    (total.functions = p.functions.countP (fun f => (b.find? f.id).isSome) ∧
      handled = (p.findingsInOrder b).length ∧
      total.shadowed = (p.findingsInOrder b).countP overlapsSymbol) ∧
    (p.functions.length ≤ UInt32.size →
      total.functions = b.size ∧ handled = b.findings.length ∧
      total.shadowed = b.findings.countP overlapsSymbol) ∧
    ((∀ f ∈ p.functions, f.findings.policy ≠ .replace) →
      after.storedEntries = p.storedEntries + total.inserted) ∧
    ((∀ f ∈ p.functions, f.findings.policy = .replace) →
      after.storedEntries ≤ p.storedEntries + total.inserted ∧
      total.duplicates = 0 ∧ total.extended = 0) := by
  intro p after handled overlapsSymbol
  obtain ⟨policy', hevolves⟩ := hasEvolved_steps hnew whats
  have hnumbered : p.Numbered := hevolves.numbered_of_empty
  have hknown := Program.known_of_ingest_eq_ok hok
  obtain ⟨hfunctions, -, hshadowed⟩ := Program.tally_of_ingest_eq_ok hok
  have hhandled : handled = (p.findingsInOrder b).length := Program.recorded_add_shadowed hok
  have hoverlaps : (fun x : FunctionId × Finding => decide (¬ a.Admits x.2.span)) =
      overlapsSymbol := by
    funext x
    simp [Arbiter.Admits, overlapsSymbol]
  rw [hoverlaps] at hshadowed
  refine ⟨⟨hfunctions, hhandled, hshadowed⟩, ?_, ?_, ?_⟩
  · intro hcount
    have hperm := Program.perm_findingsInOrder hnumbered hknown hcount
    refine ⟨?_, ?_, ?_⟩
    · rw [hfunctions]
      exact Program.countP_named hnumbered hknown hcount
    · rw [hhandled, hperm.length_eq]
    · rw [hshadowed, hperm.countP_eq]
  · exact Program.storedEntries_eq hok
  · intro hpolicy
    exact ⟨Program.storedEntries_le hok, Program.duplicates_extended_eq_zero hok hpolicy⟩

/-- Two functions have findings of every outcome: one has an entry already that is widened, and the
other one a finding over data and a duplicate. -/
theorem tally_accounts_for_findings_of_all_outcomes :
    let symbols := (Store.empty .keepFirst).put (.ofSymbol ⟨32, 16⟩ .data ⟨0⟩ ⟨"table"⟩)
    let a := Ledger.freeze { Ledger.empty default with symbols }
    let s : Session := ⟨.start 4096 none default, .arbitrating a, []⟩
    let whats : List Step := [.addPackage "p", .addFunction "f" ⟨0⟩ .function "",
      .addFunction "g" ⟨0⟩ .function "", .finding ⟨0⟩ ⟨⟨64, 4⟩, default⟩]
    let b := Batch.ofList [(⟨0⟩, [⟨⟨64, 8⟩, default⟩, ⟨⟨80, 4⟩, default⟩]),
      (⟨1⟩, [⟨⟨96, 4⟩, default⟩, ⟨⟨40, 16⟩, default⟩, ⟨⟨96, 4⟩, default⟩])]
    let p := (s.steps whats).2.run.program
    s.run.program = .empty .keepFirst ∧ (p.ingest a ⟨.abort, 1⟩ b).1 = .ok ⟨2, 2, 1, 1, 1⟩ ∧
      b.size = 2 ∧ b.findings.length = 5 ∧
      (p.ingest a ⟨.abort, 1⟩ b).2.storedEntries = p.storedEntries + 2 := by
  intro symbols a s whats b p
  have hnew : s.run.program = .empty .keepFirst := rfl
  have hok : (p.ingest a ⟨.abort, 1⟩ b).1 = .ok ⟨2, 2, 1, 1, 1⟩ := by
    unfold p s whats a b
    decide_cbv
  have hkeeps : ∀ what ∈ whats, what.keepsProgram := by decide
  have hbuilt : s.run.program.Evolves p := evolves_steps hkeeps
  have hpolicy : ∀ f ∈ p.functions, f.findings.policy ≠ .replace := by
    intro f hf
    rw [hbuilt.forall_policy_of_empty f hf]
    exact DuplicatePolicy.noConfusion
  have hcount : p.functions.length ≤ UInt32.size := by
    unfold p s whats a
    decide_cbv
  obtain ⟨-, hcounts, hgrowth, -⟩ :=
    tally_accounts_for_findings s .keepFirst whats a ⟨.abort, 1⟩ b _ hnew hok
  obtain ⟨hfunctions, hhandled, -⟩ := hcounts hcount
  exact ⟨hnew, hok, hfunctions.symm, hhandled.symm, hgrowth hpolicy⟩

end Session

end ByteCensus
