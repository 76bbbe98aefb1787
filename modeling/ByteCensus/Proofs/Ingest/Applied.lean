import ByteCensus.Proofs.Ingest.Collect
import ByteCensus.Proofs.Ingest.Policies

/-!
# What a batch leaves behind

A batch is not taken back where it ends in an error, so what it leaves behind is what was done until
then.  Of one function that is the findings before the first one that `Arbiter.Ends` its task, in
order and each one handed over as if by itself.  `Arbiter.Applies` says so, and `Arbiter.applied`
computes these findings, the only ones of which it holds (`Arbiter.applies_iff`).

A task has come to an early end iff its report is final (`Task.finish_eq_applied`).  So going
through the functions in turn leaves those behind the first early end as they were, and nothing else
depends on the way of going through them: `Program.ingest_leaves_applied`.
-/

namespace ByteCensus

variable {a : Arbiter} {policy : ConflictPolicy} {b : Batch} {f : Program.Function}
  {finding : Finding} {findings before rest : List Finding}

/-! ### The findings before the end of a task -/

namespace Arbiter

/-- The answer to a finding ends the task of its function: it is an error, and if it is a conflict
the policy is to abort. -/
def Ends (policy : ConflictPolicy) : Except Error (Ruling × Program.Function) → Prop
  | .ok _ => False
  | .error (.conflict _) => policy = .abort
  | .error _ => True

instance (policy : ConflictPolicy) (answer : Except Error (Ruling × Program.Function)) :
    Decidable (Ends policy answer) :=
  match answer with
  | .ok _ => inferInstanceAs (Decidable False)
  | .error err =>
    match err with
    | .conflict _ => inferInstanceAs (Decidable (policy = .abort))
    | .conflicts _ | .coverageConflict .. | .duplicateStart .. | .missingMetadata _
    | .invalidVersion _ | .invalidInput _ | .config _ | .io _ | .serialization _ =>
      inferInstanceAs (Decidable True)

/-- Of the findings for a function these come before the first one that ends its task. -/
structure Applies (a : Arbiter) (policy : ConflictPolicy) (f : Program.Function)
    (findings before : List Finding) : Prop where
  isPrefix : before <+: findings
  goes_on : ∀ earlier finding, earlier ++ [finding] <+: before →
    ¬ Ends policy (a.rule (a.handAll f earlier) finding)
  ends : ∀ finding, before ++ [finding] <+: findings →
    Ends policy (a.rule (a.handAll f before) finding)

/-- The findings for a function before the first one that ends its task. -/
def applied (a : Arbiter) (policy : ConflictPolicy) (f : Program.Function) :
    List Finding → List Finding
  | [] => []
  | finding :: rest =>
    if Ends policy (a.rule f finding) then []
    else finding :: applied a policy (a.handOver f finding) rest

theorem Applies.cons (hgoes : ¬ Ends policy (a.rule f finding))
    (h : a.Applies policy (a.handOver f finding) rest before) :
    a.Applies policy f (finding :: rest) (finding :: before) := by
  refine ⟨?_, ?_, ?_⟩
  · exact List.cons_prefix_cons.2 ⟨rfl, h.isPrefix⟩
  · intro earlier next hearlier
    cases earlier with
    | nil =>
      obtain ⟨rfl, -⟩ := List.cons_prefix_cons.1 hearlier
      exact hgoes
    | cons first earlier =>
      obtain ⟨rfl, hmore⟩ := List.cons_prefix_cons.1 hearlier
      exact h.goes_on earlier next hmore
  · intro next hnext
    obtain ⟨-, hmore⟩ := List.cons_prefix_cons.1 hnext
    exact h.ends next hmore

theorem Applies.nil (hends : ∀ finding ∈ findings.head?, Ends policy (a.rule f finding)) :
    a.Applies policy f findings [] := by
  refine ⟨List.nil_prefix, ?_, ?_⟩
  · intro earlier next hearlier
    have := List.prefix_nil.1 hearlier
    simp at this
  · intro next hnext
    obtain ⟨more, rfl⟩ := hnext
    exact hends next rfl

theorem applies_applied (a : Arbiter) (policy : ConflictPolicy) (f : Program.Function)
    (findings : List Finding) : a.Applies policy f findings (a.applied policy f findings) := by
  induction findings generalizing f with
  | nil => exact .nil fun _ h => nomatch h
  | cons finding rest ih =>
    rw [applied]
    split
    · next hends =>
      apply Applies.nil
      rintro _ h
      rwa [← Option.some.inj h]
    · next hgoes => exact .cons hgoes (ih _)

/-- There is only one way to stop at the first finding that ends the task. -/
theorem applies_iff :
    a.Applies policy f findings before ↔ before = a.applied policy f findings := by
  constructor
  · intro h
    -- The first finding settles whether `before` is empty, the rest is up to the induction.
    induction findings generalizing f before with
    | nil => exact List.prefix_nil.1 h.isPrefix
    | cons finding rest ih =>
      rw [applied]
      cases before with
      | nil =>
        have hends : Ends policy (a.rule f finding) := h.ends finding ⟨rest, rfl⟩
        rw [if_pos hends]
      | cons first before =>
        obtain ⟨rfl, hstart⟩ := List.cons_prefix_cons.1 h.isPrefix
        have hgoes : ¬ Ends policy (a.rule f first) := h.goes_on [] first ⟨before, rfl⟩
        rw [if_neg hgoes]
        congr 1
        apply ih
        refine ⟨hstart, ?_, ?_⟩
        · intro earlier next hearlier
          exact h.goes_on (first :: earlier) next (List.cons_prefix_cons.2 ⟨rfl, hearlier⟩)
        · intro next hnext
          exact h.ends next (List.cons_prefix_cons.2 ⟨rfl, hnext⟩)
  · rintro rfl
    exact applies_applied a policy f findings

end Arbiter

/-! ### Tasks -/

namespace Task

variable {r : Report}

/-- A finding that does not end the task is handed over, and the task goes on. -/
theorem finish_of_not_ends (hr : r.isFinal policy = false)
    (hgoes : ¬ Arbiter.Ends policy (a.rule f finding)) :
    ∃ r', r'.isFinal policy = false ∧ (⟨f, finding :: rest, r⟩ : Task).finish a policy =
      (⟨a.handOver f finding, rest, r'⟩ : Task).finish a policy := by
  obtain ⟨hfailure, hconflicts⟩ := Report.isFinal_eq_false_iff.1 hr
  obtain ⟨_, g, hrule⟩ | ⟨c, hrule⟩ | ⟨_, _, _, hrule⟩ := a.rule_outcome f finding
  · rw [Arbiter.handOver_of_rule_ok hrule]
    refine ⟨_, ?_, finish_of_rule_ok hrule⟩
    exact Report.isFinal_eq_false_iff.2 ⟨hfailure, hconflicts⟩
  · rw [hrule] at hgoes
    -- A conflict that does not end the task is being collected.
    have hcollect : ¬ policy = .abort := hgoes
    rw [Arbiter.handOver_of_rule_error hrule, finish_of_rule_conflict hrule, if_neg hcollect]
    refine ⟨_, ?_, rfl⟩
    exact Report.isFinal_eq_false_iff.2 ⟨hfailure, fun h => absurd h hcollect⟩
  · rw [hrule] at hgoes
    exact absurd trivial hgoes

/-- A finding that ends the task leaves the function as it was. -/
theorem finish_of_ends (hends : Arbiter.Ends policy (a.rule f finding)) :
    ∃ r', r'.isFinal policy = true ∧
      (⟨f, finding :: rest, r⟩ : Task).finish a policy = ⟨f, [], r'⟩ := by
  obtain ⟨_, g, hrule⟩ | ⟨c, hrule⟩ | ⟨_, _, _, hrule⟩ := a.rule_outcome f finding
  · rw [hrule] at hends
    exact hends.elim
  · rw [hrule] at hends
    obtain rfl : policy = .abort := hends
    rw [finish_of_rule_conflict hrule, if_pos rfl, finish_of_pending_nil rfl]
    exact ⟨_, by simp [Report.isFinal], rfl⟩
  · rw [finish_of_rule_duplicate hrule]
    exact ⟨_, rfl, rfl⟩

/-- **A task hands over the findings before its end**, and its report is final iff some are left. -/
theorem finish_eq_applied (f : Program.Function) (pending : List Finding)
    (hr : r.isFinal policy = false) :
    let done := (⟨f, pending, r⟩ : Task).finish a policy
    let before := a.applied policy f pending
    done.function = a.handAll f before ∧
      (done.report.isFinal policy = true ↔ before ≠ pending) := by
  dsimp only
  -- Handing over one finding changes function and report, and the report stays without an end.
  induction pending generalizing f r with
  | nil =>
    rw [finish_of_pending_nil rfl, hr]
    exact ⟨rfl, iff_of_false Bool.false_ne_true (not_not.2 rfl)⟩
  | cons finding rest ih =>
    rw [Arbiter.applied]
    by_cases hends : Arbiter.Ends policy (a.rule f finding)
    · obtain ⟨r', hfinal, hfinish⟩ : ∃ r', r'.isFinal policy = true ∧
          (⟨f, finding :: rest, r⟩ : Task).finish a policy = ⟨f, [], r'⟩ := finish_of_ends hends
      rw [if_pos hends, hfinish]
      exact ⟨rfl, iff_of_true hfinal (List.cons_ne_nil _ _).symm⟩
    · obtain ⟨r', hfinal, hfinish⟩ : ∃ r', r'.isFinal policy = false ∧
          (⟨f, finding :: rest, r⟩ : Task).finish a policy =
            (⟨a.handOver f finding, rest, r'⟩ : Task).finish a policy :=
        finish_of_not_ends hr hends
      obtain ⟨hfunction, hiff⟩ := ih (a.handOver f finding) hfinal
      rw [if_neg hends, hfinish]
      exact ⟨hfunction, hiff.trans (not_congr (List.cons_inj_right finding).symm)⟩

end Task

/-! ### Batches -/

namespace Arbiter

/-- The task of the function comes to an end before all of its findings are taken in. -/
def EndsEarly (a : Arbiter) (policy : ConflictPolicy) (b : Batch) (f : Program.Function) : Prop :=
  ∃ before, a.Applies policy f (Task.arrange (b.findingsOf f.id)) before ∧
    before ≠ Task.arrange (b.findingsOf f.id)

/-- The function after its task was carried out. -/
def carryOut (a : Arbiter) (policy : ConflictPolicy) (b : Batch) (f : Program.Function) :
    Program.Function :=
  a.handAll f (a.applied policy f (Task.arrange (b.findingsOf f.id)))

theorem endsEarly_iff : a.EndsEarly policy b f ↔
    a.applied policy f (Task.arrange (b.findingsOf f.id)) ≠ Task.arrange (b.findingsOf f.id) := by
  simp only [EndsEarly, applies_iff, exists_eq_left]

theorem carryOut_of_find? (h : b.find? f.id = none) : a.carryOut policy b f = f := by
  rw [carryOut, Program.arrange_findingsOf_of_find? h]
  rfl

theorem not_endsEarly_of_find? (h : b.find? f.id = none) : ¬ a.EndsEarly policy b f := by
  rw [endsEarly_iff, Program.arrange_findingsOf_of_find? h]
  exact not_not.2 rfl

/-- Findings that are handed over change nothing of a function but its store. -/
theorem handAll_withFindings (a : Arbiter) (f : Program.Function) (findings : List Finding) :
    a.handAll f findings = { f with findings := (a.handAll f findings).findings } := by
  induction findings generalizing f with
  | nil => rfl
  | cons finding rest ih =>
    have hover : a.handOver f finding = { f with findings := (a.handOver f finding).findings } := by
      rcases a.handOver_eq_or_rules f finding with hsame | hrules
      · rw [hsame]
      · obtain hsame | ⟨_, _, _, -, -, hstored⟩ := hrules.eq_or_insert
        · rw [hsame]
        · rw [hstored]
    have hrest := ih (a.handOver f finding)
    show a.handAll (a.handOver f finding) rest =
      { f with findings := (a.handAll (a.handOver f finding) rest).findings }
    generalize a.handOver f finding = g at hover hrest
    rw [hrest, hover]

theorem finish_ofFindings (a : Arbiter) (policy : ConflictPolicy)
    (h : b.find? f.id = some findings) :
    let done := (Task.ofFindings f findings).finish a policy
    done.function = a.carryOut policy b f ∧
      (done.report.isFinal policy = true ↔ a.EndsEarly policy b f) := by
  rw [carryOut, endsEarly_iff, Program.findingsOf_of_find? h]
  exact Task.finish_eq_applied f (Task.arrange findings)
    (Report.isFinal_eq_false_iff.2 ⟨rfl, fun _ => rfl⟩)

end Arbiter

namespace Program

variable {functions : List Function}

/-- Each function carries out its own task. -/
theorem functions_ingestEach (functions : List Function) :
    (ingestEach a policy b functions).1 = functions.map (a.carryOut policy b) := by
  induction functions with
  | nil => rfl
  | cons f rest ih =>
    rw [ingestEach, List.map_cons, ← ih]
    cases hfind : b.find? f.id with
    | none => rw [Arbiter.carryOut_of_find? hfind]
    | some findings => rw [← (Arbiter.finish_ofFindings a policy hfind).1]

/-- Functions behind an early end are left alone. -/
theorem ingestInTurn_of_endsEarly (h : a.EndsEarly policy b f) (rest : List Function) :
    (ingestInTurn a policy b (f :: rest)).1 = a.carryOut policy b f :: rest := by
  cases hfind : b.find? f.id with
  | none => exact absurd h (Arbiter.not_endsEarly_of_find? hfind)
  | some findings =>
    obtain ⟨hfunction, hfinal⟩ := Arbiter.finish_ofFindings a policy hfind
    rw [ingestInTurn_cons hfind]
    dsimp only
    rw [if_pos (hfinal.2 h), hfunction]

theorem ingestInTurn_of_not_endsEarly (h : ¬ a.EndsEarly policy b f) (rest : List Function) :
    (ingestInTurn a policy b (f :: rest)).1 =
      a.carryOut policy b f :: (ingestInTurn a policy b rest).1 := by
  cases hfind : b.find? f.id with
  | none => rw [ingestInTurn, hfind, Arbiter.carryOut_of_find? hfind]
  | some findings =>
    obtain ⟨hfunction, hfinal⟩ := Arbiter.finish_ofFindings a policy hfind
    rw [ingestInTurn_cons hfind]
    dsimp only
    rw [if_neg (mt hfinal.1 h), hfunction]

/-- In turn, the tasks are carried out up to the first one that ends early. -/
theorem getElem?_ingestInTurn (a : Arbiter) (policy : ConflictPolicy) (b : Batch)
    (functions : List Function) (i : Nat) :
    ((∀ j < i, ∀ f, functions[j]? = some f → ¬ a.EndsEarly policy b f) →
      (ingestInTurn a policy b functions).1[i]? = functions[i]?.map (a.carryOut policy b)) ∧
    ((∃ j < i, ∃ f, functions[j]? = some f ∧ a.EndsEarly policy b f) →
      (ingestInTurn a policy b functions).1[i]? = functions[i]?) := by
  induction functions generalizing i with
  | nil => exact ⟨fun _ => rfl, fun _ => rfl⟩
  | cons f rest ih =>
    by_cases hends : a.EndsEarly policy b f
    -- The walk is over, so every later place has an early end before it.
    · rw [ingestInTurn_of_endsEarly hends]
      cases i with
      | zero => exact ⟨fun _ => rfl, fun ⟨_, hj, _⟩ => absurd hj (Nat.not_lt_zero _)⟩
      | succ i => exact ⟨fun h => absurd hends (h 0 i.succ_pos f rfl), fun _ => rfl⟩
    · rw [ingestInTurn_of_not_endsEarly hends]
      cases i with
      | zero => exact ⟨fun _ => rfl, fun ⟨_, hj, _⟩ => absurd hj (Nat.not_lt_zero _)⟩
      | succ i =>
        -- Place `i + 1` is place `i` of the rest, and `f` is no early end before it.
        obtain ⟨hran, hleft⟩ := ih i
        refine ⟨?_, ?_⟩
        · intro h
          exact hran fun j hj g hg => h (j + 1) (Nat.succ_lt_succ hj) g hg
        · rintro ⟨j, hj, g, hg, hgends⟩
          apply hleft
          cases j with
          | zero =>
            obtain rfl := Option.some.inj hg
            exact absurd hgends hends
          | succ j => exact ⟨j, Nat.lt_of_succ_lt_succ hj, g, hg, hgends⟩

theorem functions_ingest {p : Program} {config : IngestConfig}
    (hknown : ∀ group ∈ b.groups, (p.function? group.1).isSome) :
    (p.ingest a config b).2.functions =
      if config.parallelThreshold.toNat ≤ b.size
      then (ingestEach a config.conflictPolicy b p.functions).1
      else (ingestInTurn a config.conflictPolicy b p.functions).1 := by
  unfold ingest
  rw [unknown?_eq_none_iff.2 hknown]
  dsimp only
  split <;> rfl

/-- A batch that names an unknown function is refused for one of those. -/
theorem exists_unknown?_eq {p : Program}
    (hunknown : ∃ group ∈ b.groups, p.function? group.1 = none) :
    ∃ group ∈ b.groups, p.function? group.1 = none ∧ b.unknown? p = some group.1 := by
  cases hfirst : b.unknown? p with
  | none =>
    obtain ⟨group, hgroup, hnone⟩ := hunknown
    have hsome := unknown?_eq_none_iff.1 hfirst group hgroup
    rw [hnone] at hsome
    cases hsome
  | some id =>
    unfold Batch.unknown? at hfirst
    have hnone : p.function? id = none := by simpa using List.find?_some hfirst
    obtain ⟨group, hgroup, rfl⟩ := List.mem_map.1 (List.mem_of_find?_eq_some hfirst)
    exact ⟨group, hgroup, hnone, rfl⟩

/-- **What a batch leaves behind**, whatever it is answered.

* If it names unknown functions it is refused for one of them, and the program stays as it was.
* Otherwise nothing changes but the stores of functions with findings.  With as many functions as
  the threshold says, or if no earlier function's task ends early, a function is handed its
  findings in order, up to the first one that ends its task.  With fewer functions those behind
  one whose task ends early stay as they were. -/
theorem ingest_leaves_applied (p : Program) (a : Arbiter) (config : IngestConfig) (b : Batch) :
    let policy := config.conflictPolicy
    let answer := (p.ingest a config b).1
    let after := (p.ingest a config b).2
    ((∃ group ∈ b.groups, p.function? group.1 = none) →
      after = p ∧ ∃ group ∈ b.groups, p.function? group.1 = none ∧
        answer = .error (.invalidInput (.unknownFunction group.1))) ∧
    ((∀ group ∈ b.groups, (p.function? group.1).isSome) →
      after = { p with functions := after.functions } ∧
      after.functions.length = p.functions.length ∧
      ∀ (i : Nat) (f : Function), p.functions[i]? = some f →
        ∃ g, after.functions[i]? = some g ∧ g = { f with findings := g.findings } ∧
          (b.find? f.id = none → g = f) ∧
          ((config.parallelThreshold.toNat ≤ b.size ∨
              ∀ j < i, ∀ f', p.functions[j]? = some f' → ¬ a.EndsEarly policy b f') →
            ∃ before, a.Applies policy f (Task.arrange (b.findingsOf f.id)) before ∧
              g = a.handAll f before) ∧
          (b.size < config.parallelThreshold.toNat →
            (∃ j < i, ∃ f', p.functions[j]? = some f' ∧ a.EndsEarly policy b f') → g = f)) := by
  intro policy answer after
  refine ⟨?_, ?_⟩
  · intro hunknown
    obtain ⟨group, hgroup, hnone, hfirst⟩ := exists_unknown?_eq hunknown
    have hrefused : p.ingest a config b = _ := ingest_of_unknown hfirst
    exact ⟨congrArg Prod.snd hrefused, group, hgroup, hnone, congrArg Prod.fst hrefused⟩
  intro hknown
  obtain ⟨hrulings, hpackages, hpolicy⟩ := rulings_ingest (a := a) (b := b) p config
  have hafter : after.functions = _ := functions_ingest hknown
  refine ⟨?_, hrulings.length_eq.symm, ?_⟩
  · rw [Program.mk.injEq]
    exact ⟨hpackages, rfl, hpolicy⟩
  intro i f hf
  -- What there is to say of a function whose task was carried out, in parallel or in turn.
  have hcarried (h : after.functions[i]? = some (a.carryOut policy b f)) :
      ∃ g, after.functions[i]? = some g ∧ g = { f with findings := g.findings } ∧
        (b.find? f.id = none → g = f) ∧
        ∃ before, a.Applies policy f (Task.arrange (b.findingsOf f.id)) before ∧
          g = a.handAll f before :=
    ⟨_, h, a.handAll_withFindings f _, Arbiter.carryOut_of_find?, _,
      a.applies_applied policy f _, rfl⟩
  by_cases hparallel : config.parallelThreshold.toNat ≤ b.size
  · rw [if_pos hparallel, functions_ingestEach] at hafter
    obtain ⟨g, hg, hsame, hidle, happlied⟩ := hcarried (by rw [hafter, List.getElem?_map, hf]; rfl)
    refine ⟨g, hg, hsame, hidle, fun _ => happlied, ?_⟩
    intro hless
    omega
  · rw [if_neg hparallel] at hafter
    obtain ⟨hran, hleft⟩ := getElem?_ingestInTurn a policy b p.functions i
    by_cases hearly : ∃ j < i, ∃ f', p.functions[j]? = some f' ∧ a.EndsEarly policy b f'
    -- Behind an early end: untouched, and the promise to go on is void.
    · refine ⟨f, ?_, rfl, fun _ => rfl, ?_, fun _ _ => rfl⟩
      · rw [hafter, hleft hearly, hf]
      · obtain ⟨j, hj, f', hf', hends⟩ := hearly
        rintro (hmany | hnone)
        · exact absurd hmany hparallel
        · exact absurd hends (hnone j hj f' hf')
    · have hnone : ∀ j < i, ∀ f', p.functions[j]? = some f' → ¬ a.EndsEarly policy b f' :=
        fun j hj f' hf' hends => hearly ⟨j, hj, f', hf', hends⟩
      obtain ⟨g, hg, hsame, hidle, happlied⟩ := hcarried (by rw [hafter, hran hnone, hf]; rfl)
      exact ⟨g, hg, hsame, hidle, fun _ => happlied, fun _ h => absurd h hearly⟩

/-- Three functions in turn, collecting: the first one skips a finding in conflict, the second one
ends at a duplicate that its store refuses, and the third one stays as it was. -/
theorem ingest_leaves_applied_before_duplicate :
    let symbols := (Store.empty .keepFirst).put (.ofSymbol ⟨32, 16⟩ .text ⟨0⟩ ⟨"code"⟩)
    let a := Ledger.freeze { Ledger.empty default with symbols }
    let skipping : Function := ⟨⟨0⟩, "f", ⟨0⟩, .function, "", .empty .keepFirst⟩
    let refusing : Function := ⟨⟨1⟩, "g", ⟨0⟩, .function, "", .empty .reject⟩
    let behind : Function := ⟨⟨2⟩, "h", ⟨0⟩, .function, "", .empty .keepFirst⟩
    let p : Program := ⟨[], [skipping, refusing, behind], .keepFirst⟩
    let b := Batch.ofList [(⟨0⟩, [⟨⟨64, 8⟩, default⟩, ⟨⟨40, 4⟩, default⟩]),
      (⟨1⟩, [⟨⟨96, 4⟩, default⟩, ⟨⟨80, 8⟩, default⟩, ⟨⟨80, 4⟩, default⟩]),
      (⟨2⟩, [⟨⟨112, 4⟩, default⟩])]
    let after := (p.ingest a ⟨.collect, 128⟩ b).2
    (∀ group ∈ b.groups, (p.function? group.1).isSome) ∧
      a.EndsEarly .collect b refusing ∧
      after.functions.map (·.findings.parts) =
        [[⟨⟨64, 8⟩, .data⟩], [⟨⟨80, 4⟩, .data⟩], []] ∧
      after.functions[2]? = some behind := by
  intro symbols a skipping refusing behind p b after
  have hknown : ∀ group ∈ b.groups, (p.function? group.1).isSome := by decide
  have hends : a.EndsEarly .collect b refusing := by
    rw [Arbiter.endsEarly_iff]
    unfold b refusing
    decide_cbv
  have hparts : after.functions.map (·.findings.parts) =
      [[⟨⟨64, 8⟩, .data⟩], [⟨⟨80, 4⟩, .data⟩], []] := by
    unfold after p b skipping refusing behind
    decide_cbv
  obtain ⟨-, hleaves⟩ := ingest_leaves_applied p a ⟨.collect, 128⟩ b
  obtain ⟨-, -, hfunctions⟩ := hleaves hknown
  obtain ⟨g, hg, -, -, -, hbehind⟩ := hfunctions 2 behind rfl
  obtain rfl : g = behind := hbehind (by decide) ⟨1, by decide, refusing, rfl, hends⟩
  exact ⟨hknown, hends, hparts, hg⟩

end Program

end ByteCensus
