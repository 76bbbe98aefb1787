import ByteCensus.Proofs.Ingest.Answered

/-!
# Collecting goes through all findings

A function *takes findings* if its store rejects no duplicates and holds nothing but data
(`Program.Function.TakesFindings`).  The store of such a function never refuses a finding, so all
that can stand against one is the symbol table, and collecting goes on behind a conflict.

What a batch that collects leaves of such functions is therefore in closed form: each has been
handed its findings in order, where a conflict changes nothing (`Program.functions_collect`), and
the answer is the list of all conflicts, or a tally if there are none (`Program.answer_collect`).
-/

namespace ByteCensus

variable {a : Arbiter} {b : Batch} {f g : Program.Function} {finding : Finding}

/-! ### The findings of a batch -/

namespace Batch

/-- The findings of the function; none if there is no group for it. -/
def findingsOf (b : Batch) (id : FunctionId) : List Finding := (b.find? id).getD []

/-- All findings of a batch, each with the function it is for. -/
def findings (b : Batch) : List (FunctionId × Finding) :=
  b.groups.flatMap fun group => group.2.map (group.1, ·)

/-- The findings of a function are those of its group. -/
theorem find?_eq_some_iff {id : FunctionId} {findings : List Finding} :
    b.find? id = some findings ↔ (id, findings) ∈ b.groups := by
  refine ⟨?_, find?_of_mem⟩
  unfold find?
  intro h
  obtain ⟨group, hgroup, rfl⟩ := Option.map_eq_some_iff.1 h
  have hid : group.1 = id := by simpa using List.find?_some hgroup
  rw [← hid]
  exact List.mem_of_find?_eq_some hgroup

theorem mem_findings {id : FunctionId} {finding : Finding} :
    (id, finding) ∈ b.findings ↔ finding ∈ b.findingsOf id := by
  unfold findings findingsOf
  constructor
  · intro h
    obtain ⟨group, hgroup, hx⟩ := List.mem_flatMap.1 h
    obtain ⟨finding', hmem, heq⟩ := List.mem_map.1 hx
    cases heq
    rw [find?_of_mem hgroup]
    exact hmem
  · cases hfind : b.find? id with
    | none => exact fun h => absurd h List.not_mem_nil
    | some findings =>
      intro hmem
      have hgroup := find?_eq_some_iff.1 hfind
      exact List.mem_flatMap.2 ⟨_, hgroup, List.mem_map.2 ⟨finding, hmem, rfl⟩⟩

end Batch

/-! ### Handing findings over -/

namespace Arbiter

/-- The function after a finding was handed over; what is refused changes nothing. -/
def handOver (a : Arbiter) (f : Program.Function) (finding : Finding) : Program.Function :=
  match a.rule f finding with
  | .ok (_, g) => g
  | .error _ => f

/-- The function after findings were handed over one by one. -/
def handAll (a : Arbiter) (f : Program.Function) (findings : List Finding) : Program.Function :=
  findings.foldl a.handOver f

/-- The findings were ruled on one after the other, each one without an error. -/
inductive RuledInTurn (a : Arbiter) : Program.Function → List Finding → Program.Function → Prop
  | nil (f : Program.Function) : RuledInTurn a f [] f
  | cons {f g h : Program.Function} {finding : Finding} {rest : List Finding} {ruling : Ruling}
      (hrule : a.rule f finding = .ok (ruling, g)) (hrest : RuledInTurn a g rest h) :
      RuledInTurn a f (finding :: rest) h

theorem handOver_of_rule_ok {ruling : Ruling} (hrule : a.rule f finding = .ok (ruling, g)) :
    a.handOver f finding = g := by
  unfold handOver
  rw [hrule]

theorem handOver_of_rule_error {err : Error} (hrule : a.rule f finding = .error err) :
    a.handOver f finding = f := by
  unfold handOver
  rw [hrule]

/-- Handing a finding over is a ruling, or changes nothing. -/
theorem handOver_eq_or_rules (a : Arbiter) (f : Program.Function) (finding : Finding) :
    a.handOver f finding = f ∨ a.Rules f (a.handOver f finding) := by
  cases hrule : a.rule f finding with
  | ok ruled =>
    right
    rw [handOver_of_rule_ok hrule]
    exact ⟨finding, ruled.1, hrule⟩
  | error err => exact .inl (handOver_of_rule_error hrule)

theorem id_handOver (a : Arbiter) (f : Program.Function) (finding : Finding) :
    (a.handOver f finding).id = f.id := by
  rcases a.handOver_eq_or_rules f finding with hsame | hrules
  · rw [hsame]
  · exact hrules.id_eq

theorem id_handAll (f : Program.Function) (findings : List Finding) :
    (a.handAll f findings).id = f.id := by
  induction findings generalizing f with
  | nil => rfl
  | cons finding rest ih => exact (ih _).trans (id_handOver a f finding)

theorem handAll_append (f : Program.Function) (findings more : List Finding) :
    a.handAll f (findings ++ more) = a.handAll (a.handAll f findings) more :=
  List.foldl_append

end Arbiter

/-! ### Functions that take findings -/

/-- The store of the function never refuses a finding. -/
structure Program.Function.TakesFindings (f : Program.Function) : Prop where
  policy_ne : f.findings.policy ≠ .reject
  kind_eq : ∀ e ∈ f.findings.entries, e.kind = .data

namespace Program.Function.TakesFindings

theorem rules (h : f.TakesFindings) (hrules : a.Rules f g) : g.TakesFindings :=
  ⟨hrules.policy_eq ▸ h.policy_ne, hrules.kind_eq h.kind_eq⟩

/-- Such a function has a finding ruled on unless it is in conflict. -/
theorem rule_cases (h : f.TakesFindings) (a : Arbiter) (finding : Finding) :
    (∃ ruling g, a.rule f finding = .ok (ruling, g) ∧ g.TakesFindings ∧
      a.conflict? finding = none) ∨
    ∃ c, a.rule f finding = .error (.conflict c) ∧ a.conflict? finding = some c := by
  cases hconflict : a.conflict? finding with
  | some c => exact .inr ⟨c, Arbiter.conflict?_eq_some_iff.1 hconflict, rfl⟩
  | none =>
    left
    obtain ⟨ruling, g, hrule⟩ | ⟨c, hrule⟩ | ⟨_, _, _, hrule⟩ := a.rule_outcome f finding
    · exact ⟨ruling, g, hrule, h.rules ⟨finding, ruling, hrule⟩, rfl⟩
    · rw [Arbiter.conflict?_eq_some_iff.2 hrule] at hconflict
      cases hconflict
    · -- The store would have refused it.
      obtain ⟨outcome, findings, hinsert⟩ := Store.exists_insert_eq_ok
        (e := .ofFinding finding.span f.package f.id finding.detail) h.policy_ne h.kind_eq
      obtain ⟨_, _, -, -, hrule'⟩ | ⟨_, hverdict, -, -⟩ | ⟨-, hrule'⟩ | ⟨_, -, -, hrule'⟩ :=
        Arbiter.rule_cases a f finding
      · rw [hrule] at hrule'
        cases hrule'
      · rw [Arbiter.rule_of_verdict_none hverdict, hinsert] at hrule
        cases hrule
      · rw [hrule] at hrule'
        cases hrule'
      · rw [hrule] at hrule'
        cases hrule'

/-- All findings that are not in conflict are ruled on. -/
theorem ruledInTurn (h : f.TakesFindings) (findings : List Finding) :
    a.RuledInTurn f (findings.filter fun finding => (a.conflict? finding).isNone)
      (a.handAll f findings) := by
  induction findings generalizing f with
  | nil => exact .nil f
  | cons finding rest ih =>
    rw [Arbiter.handAll, List.foldl_cons]
    -- A finding in conflict is left out on both sides.
    obtain ⟨_, _, hrule, hg, hconflict⟩ | ⟨_, hrule, hconflict⟩ := h.rule_cases a finding
    · have hkept : (a.conflict? finding).isNone = true := Option.isNone_iff_eq_none.2 hconflict
      rw [List.filter_cons, if_pos hkept, Arbiter.handOver_of_rule_ok hrule]
      exact .cons hrule (ih hg)
    · have hskipped : ¬ (a.conflict? finding).isNone = true := by
        rw [hconflict]
        exact Bool.false_ne_true
      rw [List.filter_cons, if_neg hskipped, Arbiter.handOver_of_rule_error hrule]
      exact ih h

/-- Collecting from such a function, in closed form. -/
theorem finish_collect (h : f.TakesFindings) (pending : List Finding) (r : Report) :
    let done := (⟨f, pending, r⟩ : Task).finish a .collect
    done.function = a.handAll f pending ∧ done.report.failure = r.failure ∧
      done.report.conflicts = r.conflicts ++ pending.filterMap a.conflict? := by
  dsimp only
  induction pending generalizing f r with
  | nil =>
    rw [Task.finish_of_pending_nil rfl, List.filterMap_nil, List.append_nil]
    exact ⟨rfl, rfl, rfl⟩
  | cons finding rest ih =>
    rw [Arbiter.handAll, List.foldl_cons]
    -- Collecting goes on behind a conflict.
    obtain ⟨_, _, hrule, hg, hconflict⟩ | ⟨c, hrule, hconflict⟩ := h.rule_cases a finding
    · rw [Task.finish_of_rule_ok hrule, Arbiter.handOver_of_rule_ok hrule,
        List.filterMap_cons_none hconflict]
      exact ih hg _
    · rw [Task.finish_of_rule_conflict hrule, Arbiter.handOver_of_rule_error hrule,
        List.filterMap_cons_some hconflict, if_neg (nomatch ·)]
      obtain ⟨hfunction, hfailure, hconflicts⟩ :=
        ih h { r with conflicts := r.conflicts ++ [c] }
      exact ⟨hfunction, hfailure, hconflicts.trans (List.append_assoc _ [c] _)⟩

end Program.Function.TakesFindings

/-! ### Batches -/

namespace Program

variable {p : Program} {functions : List Function}

theorem findingsOf_of_find? {id : FunctionId} {findings : List Finding}
    (h : b.find? id = some findings) : b.findingsOf id = findings := by
  rw [Batch.findingsOf, h]
  rfl

theorem arrange_findingsOf_of_find? {id : FunctionId} (h : b.find? id = none) :
    Task.arrange (b.findingsOf id) = [] := by
  rw [Batch.findingsOf, h]
  exact List.mergeSort_nil

/-- The pool of functions that take findings, after collecting. -/
theorem finishedPool_collect (htakes : ∀ f ∈ functions, f.TakesFindings) :
    let pool := finishedPool a .collect b functions
    pool.map Worker.function =
      functions.map (fun f => a.handAll f (Task.arrange (b.findingsOf f.id))) ∧
    (∀ r ∈ pool.filterMap Worker.report?, r.failure = none) ∧
    (pool.filterMap Worker.report?).flatMap (·.conflicts) =
      functions.flatMap fun f => (Task.arrange (b.findingsOf f.id)).filterMap a.conflict? := by
  dsimp only
  induction functions with
  | nil => exact ⟨rfl, List.forall_mem_nil _, rfl⟩
  | cons f rest ih =>
    obtain ⟨hf, hrest⟩ := List.forall_mem_cons.1 htakes
    obtain ⟨hfunctions, hfailures, hconflicts⟩ := ih hrest
    rw [List.map_cons, List.flatMap_cons]
    -- A function without a group has nothing to be handed.
    cases hfind : b.find? f.id with
    | none =>
      rw [finishedPool_cons_idle hfind, List.map_cons, hfunctions,
        List.filterMap_cons_none rfl, hconflicts, arrange_findingsOf_of_find? hfind]
      exact ⟨rfl, hfailures, rfl⟩
    | some findings =>
      obtain ⟨hfunction, hfailure, hnoted⟩ :=
        hf.finish_collect (a := a) (Task.arrange findings) ⟨{ functions := 1 }, [], none⟩
      rw [finishedPool_cons_busy hfind, List.map_cons, hfunctions,
        List.filterMap_cons_some (Worker.report?_busy _), List.flatMap_cons, hconflicts,
        findingsOf_of_find? hfind, List.forall_mem_cons]
      refine ⟨?_, ⟨hfailure, hfailures⟩, ?_⟩
      · exact congrArg (· :: _) hfunction
      · exact congrArg (· ++ _) hnoted

variable {threshold : UInt64}

/-- **What collecting leaves of functions that take findings.** -/
theorem functions_collect (hknown : ∀ group ∈ b.groups, (p.function? group.1).isSome)
    (htakes : ∀ f ∈ p.functions, f.TakesFindings) :
    (p.ingest a ⟨.collect, threshold⟩ b).2.functions =
      p.functions.map fun f => a.handAll f (Task.arrange (b.findingsOf f.id)) := by
  obtain ⟨hfunctions, hfailures, -⟩ := finishedPool_collect (a := a) (b := b) htakes
  rw [functions_ingest_of_no_final hknown]
  · exact hfunctions
  -- No report fails, so none is final.
  · intro r hr
    exact Report.isFinal_eq_false_iff.2 ⟨hfailures r hr, fun habort => nomatch habort⟩

/-- **What collecting from functions that take findings answers.** -/
theorem answer_collect (hknown : ∀ group ∈ b.groups, (p.function? group.1).isSome)
    (htakes : ∀ f ∈ p.functions, f.TakesFindings) :
    let answer := (p.ingest a ⟨.collect, threshold⟩ b).1
    let conflicts :=
      p.functions.flatMap fun f => (Task.arrange (b.findingsOf f.id)).filterMap a.conflict?
    (conflicts = [] ∧ ∃ total, answer = .ok total) ∨
      conflicts ≠ [] ∧ answer = .error (.conflicts conflicts) := by
  obtain ⟨-, hfailures, hconflicts⟩ := finishedPool_collect (a := a) (b := b) htakes
  dsimp only
  rw [answer_ingest hknown, ← hconflicts]
  exact Report.conclude_collect hfailures

end Program

end ByteCensus
