import ByteCensus.Proofs.Ingest.Conflicts

/-!
# The order of findings

Findings are sorted before they are taken in, and the sort is stable: in which order they were given
shows only between findings of the same span, which may differ in their details.

A ruling never looks at details.  So a task that is stripped of them runs like the task itself
(`Task.finish_bare`), and tasks with the same findings in another order are the same ones when
stripped (`Task.ofFindings_bare_of_perm`).  What a batch is answered, and which spans the functions
store, is then the same as well (`Program.ingest_ignores_finding_order`).  What may differ is whose
details are kept, and not even that if no two findings of a function have one span
(`Program.ingest_without_ties`).
-/

namespace ByteCensus

/-! ### Without details -/

/-- The evidence without what only its decoder tells. -/
def Evidence.bare (e : Evidence) : Evidence := { e with detail := .disassembly default }

theorem Evidence.start_bare (e : Evidence) : e.bare.start = e.start := rfl

/-- The finding without its details. -/
def Finding.bare (finding : Finding) : Finding := { finding with detail := default }

namespace Store

/-- Entries are placed by their starts, whatever the details are. -/
theorem placeIn_bare (e : Evidence) (entries : List Evidence) :
    placeIn e.bare (entries.map Evidence.bare) = (placeIn e entries).map Evidence.bare := by
  induction entries with
  | nil => rfl
  | cons x rest ih =>
    rw [List.map_cons, placeIn, placeIn, ih, Evidence.start_bare, Evidence.start_bare]
    split_ifs <;> rfl

/-- The store without the details of its entries. -/
def bare (s : Store) : Store where
  policy := s.policy
  entries := s.entries.map Evidence.bare
  ascending := List.pairwise_map.2 s.ascending

/-- The spans of all entries, ascending by start. -/
def spans (s : Store) : List Span := s.entries.map (·.span)

theorem spans_bare (s : Store) : s.bare.spans = s.spans := by
  unfold spans bare
  rw [List.map_map]
  rfl

theorem put_bare (s : Store) (e : Evidence) : s.bare.put e.bare = (s.put e).bare := by
  unfold put bare
  rw [Store.mk.injEq]
  exact ⟨rfl, placeIn_bare e s.entries⟩

theorem get?_bare (s : Store) (start : Address) :
    s.bare.get? start = (s.get? start).map Evidence.bare := by
  unfold get? bare
  rw [List.find?_map]
  rfl

/-- A store takes or refuses evidence whatever the details are. -/
theorem insert_bare (s : Store) (e : Evidence) :
    s.bare.insert e.bare = (s.insert e).map (Prod.map id bare) := by
  unfold insert
  rw [get?_bare, Evidence.start_bare]
  cases s.get? e.start with
  | none =>
    rw [Option.map_none, put_bare]
    rfl
  | some kept =>
    rw [Option.map_some, show s.bare.policy = s.policy from rfl]
    cases s.policy with
    | replace =>
      dsimp only
      rw [put_bare]
      rfl
    | keepFirst =>
      dsimp only
      -- An entry that is widened keeps its details, which are none here.
      have hwiden : s.bare.put { kept.bare with
            span := e.bare.span, function := kept.bare.function <|> e.bare.function } =
          (s.put { kept with span := e.span, function := kept.function <|> e.function }).bare :=
        put_bare s { kept with span := e.span, function := kept.function <|> e.function }
      rw [hwiden]
      show (if kept.kind ≠ e.kind then _ else if e.span.size ≤ kept.span.size then _ else _) = _
      split_ifs <;> rfl
    | reject => rfl

end Store

/-- The function without the details of its findings. -/
def Program.Function.bare (f : Program.Function) : Program.Function :=
  { f with findings := f.findings.bare }

/-- The program without the details of its findings. -/
def Program.bare (p : Program) : Program := { p with functions := p.functions.map (·.bare) }

variable {a : Arbiter} {policy : ConflictPolicy} {b b' : Batch} {xs ys : List Finding}

/-- A finding is ruled on whatever its details are. -/
theorem Arbiter.rule_bare (a : Arbiter) (f : Program.Function) (finding : Finding) :
    a.rule f.bare finding.bare = (a.rule f finding).map (Prod.map id Program.Function.bare) := by
  have hsame : a.verdict finding.bare.span = a.verdict finding.span := rfl
  cases hverdict : a.verdict finding.span with
  | none =>
    have hinsert : f.bare.findings.insert (.ofFinding finding.bare.span f.bare.package f.bare.id
          finding.bare.detail) =
        (f.findings.insert (.ofFinding finding.span f.package f.id finding.detail)).map
          (Prod.map id Store.bare) :=
      Store.insert_bare f.findings (.ofFinding finding.span f.package f.id finding.detail)
    rw [rule_of_verdict_none (hsame.trans hverdict), rule_of_verdict_none hverdict, hinsert]
    cases f.findings.insert (.ofFinding finding.span f.package f.id finding.detail) <;> rfl
  | some kind =>
    by_cases hkind : kind = .data
    · rw [hkind] at hverdict
      rw [rule_of_verdict_data (hsame.trans hverdict), rule_of_verdict_data hverdict]
      rfl
    · rw [rule_of_verdict_other hkind (hsame.trans hverdict),
        rule_of_verdict_other hkind hverdict]
      rfl

/-! ### Tasks -/

namespace Task

/-- The task without any details. -/
def bare (t : Task) : Task := ⟨t.function.bare, t.pending.map Finding.bare, t.report⟩

/-- A step does not look at details. -/
theorem step_bare (t : Task) : t.bare.step a policy = (t.step a policy).bare := by
  obtain ⟨function, pending, report⟩ := t
  cases pending with
  | nil => rfl
  | cons finding rest =>
    show step a policy ⟨function.bare, finding.bare :: rest.map Finding.bare, report⟩ = _
    unfold step
    dsimp only
    rw [Arbiter.rule_bare]
    -- Ruled on, in conflict or refused: each time the same without details.
    obtain ⟨_, _, hrule⟩ | ⟨_, hrule⟩ | ⟨_, _, _, hrule⟩ := a.rule_outcome function finding
    all_goals rw [hrule]
    · rfl
    · cases policy <;> rfl
    · rfl

/-- A task without details runs like the task itself. -/
theorem finish_bare (t : Task) : t.bare.finish a policy = (t.finish a policy).bare := by
  -- Induction on the number of findings; without details there are as many.
  have hrun (count : Nat) (t : Task) : run a policy count t.bare = (run a policy count t).bare := by
    induction count generalizing t with
    | zero => rfl
    | succ count ih => rw [run, step_bare, ih, run]
  unfold finish
  rw [← hrun]
  exact congrArg (run a policy · t.bare) (List.length_map Finding.bare)

/-- Findings that precede each other have one span. -/
theorem Precedes.span_eq {x y : Finding} (hxy : Precedes x y) (hyx : Precedes y x) :
    x.span = y.span := by
  obtain ⟨⟨start, size⟩, _⟩ := x
  obtain ⟨⟨start', size'⟩, _⟩ := y
  rw [Span.mk.injEq]
  simp only [Precedes, UInt64.lt_iff_toNat_lt, UInt64.le_iff_toNat_le, ← UInt64.toNat_inj] at *
  omega

theorem arrange_perm_arrange (h : xs.Perm ys) : (arrange xs).Perm (arrange ys) :=
  (arrange_perm xs).trans (h.trans (arrange_perm ys).symm)

/-- Sorted findings of different spans are the same whatever order they were given in. -/
theorem arrange_of_perm (h : xs.Perm ys)
    (hties : ∀ x ∈ xs, ∀ y ∈ xs, x.span = y.span → x = y) : arrange xs = arrange ys := by
  refine (arrange_perm_arrange h).eq_of_pairwise ?_ (pairwise_arrange xs) (pairwise_arrange ys)
  intro x y hx hy hxy hyx
  exact hties x ((arrange_perm xs).mem_iff.1 hx) y
    (h.mem_iff.2 ((arrange_perm ys).mem_iff.1 hy)) (hxy.span_eq hyx)

/-- Sorted findings are the same whatever order they were given in, but for their details. -/
theorem map_bare_arrange_of_perm (h : xs.Perm ys) :
    (arrange xs).map Finding.bare = (arrange ys).map Finding.bare := by
  have hsorted (findings : List Finding) :
      ((arrange findings).map Finding.bare).Pairwise Precedes :=
    List.pairwise_map.2 (pairwise_arrange findings)
  refine ((arrange_perm_arrange h).map _).eq_of_pairwise ?_ (hsorted xs) (hsorted ys)
  -- The order is antisymmetric only on findings without details.
  intro x y hx hy hxy hyx
  obtain ⟨x, -, rfl⟩ := List.mem_map.1 hx
  obtain ⟨y, -, rfl⟩ := List.mem_map.1 hy
  have hspan : x.span = y.span := hxy.span_eq hyx
  unfold Finding.bare
  rw [hspan]

/-- Tasks with the same findings in another order differ in details only. -/
theorem ofFindings_bare_of_perm (f : Program.Function) (h : xs.Perm ys) :
    (ofFindings f xs).bare = (ofFindings f ys).bare := by
  unfold ofFindings bare
  rw [map_bare_arrange_of_perm h]

end Task

/-! ### Batches -/

namespace Batch

/-- The batches have the same findings for each function, in any order. -/
def Reorders (b b' : Batch) : Prop :=
  ∀ id, Option.Rel List.Perm (b.find? id) (b'.find? id)

theorem isSome_find?_iff {id : FunctionId} : (b.find? id).isSome ↔ id ∈ b.groups.map (·.1) := by
  unfold find?
  rw [Option.isSome_map, List.find?_isSome, List.mem_map]
  simp only [decide_eq_true_eq]

/-- Batches that differ in the order of findings are for the same functions. -/
theorem Reorders.perm_ids (h : b.Reorders b') :
    (b.groups.map (·.1)).Perm (b'.groups.map (·.1)) := by
  rw [List.perm_ext_iff_of_nodup b.nodup_functions b'.nodup_functions]
  intro id
  rw [← isSome_find?_iff, ← isSome_find?_iff]
  have hid := h id
  generalize b.find? id = given, b'.find? id = given' at hid
  cases hid <;> rfl

theorem Reorders.size_eq (h : b.Reorders b') : b.size = b'.size := by
  have hlength := h.perm_ids.length_eq
  rw [List.length_map, List.length_map] at hlength
  exact hlength

theorem Reorders.known (h : b.Reorders b') {p : Program}
    (hknown : ∀ group ∈ b.groups, (p.function? group.1).isSome) :
    ∀ group ∈ b'.groups, (p.function? group.1).isSome := by
  intro group hgroup
  have hmem : group.1 ∈ b.groups.map (·.1) :=
    h.perm_ids.mem_iff.2 (List.mem_map_of_mem hgroup)
  obtain ⟨group', hgroup', hid⟩ := List.mem_map.1 hmem
  rw [← hid]
  exact hknown group' hgroup'

end Batch

namespace Worker

/-- The worker without any details. -/
def bare : Worker → Worker
  | idle f => idle f.bare
  | busy t => busy t.bare

theorem function_bare (w : Worker) : w.bare.function = w.function.bare := by
  cases w <;> rfl

theorem report?_bare (w : Worker) : w.bare.report? = w.report? := by
  cases w <;> rfl

/-- Details do not show in a report. -/
theorem isFinal_bare (w : Worker) : w.bare.isFinal policy = w.isFinal policy := by
  unfold isFinal
  rw [report?_bare]

theorem finish_bare (w : Worker) : w.bare.finish a policy = (w.finish a policy).bare := by
  cases w with
  | idle f => rfl
  | busy t => exact congrArg busy t.finish_bare

theorem start_bare (h : b.Reorders b') (f : Program.Function) :
    (start b f).bare = (start b' f).bare := by
  have hid := h f.id
  unfold start
  generalize b.find? f.id = given, b'.find? f.id = given' at hid
  cases hid with
  | none => rfl
  | some hperm => exact congrArg busy (Task.ofFindings_bare_of_perm f hperm)

/-! ### What counts of a pool -/

theorem reports_bare (pool : List Worker) :
    (pool.map bare).filterMap report? = pool.filterMap report? := by
  rw [List.filterMap_map]
  exact List.filterMap_congr fun w _ => w.report?_bare

theorem functions_bare (pool : List Worker) :
    (pool.map bare).map function = (pool.map function).map (·.bare) := by
  rw [List.map_map, List.map_map]
  exact List.map_congr_left fun w _ => w.function_bare

theorem findIdx?_bare (pool : List Worker) :
    (pool.map bare).findIdx? (·.isFinal policy) = pool.findIdx? (·.isFinal policy) := by
  rw [List.findIdx?_map]
  congr 1
  funext w
  exact w.isFinal_bare

end Worker

namespace Program

variable {p : Program}

/-- All that a batch does to a program, told by the tasks at their end. -/
theorem ingest_eq_finishedPool {config : IngestConfig}
    (hknown : ∀ group ∈ b.groups, (p.function? group.1).isSome) :
    let pool := finishedPool a config.conflictPolicy b p.functions
    let functions := pool.map Worker.function
    p.ingest a config b =
      (Report.conclude config.conflictPolicy (pool.filterMap Worker.report?),
        { p with functions :=
            if config.parallelThreshold.toNat ≤ b.size then functions
            else match pool.findIdx? (·.isFinal config.conflictPolicy) with
              | none => functions
              | some k => functions.take (k + 1) ++ p.functions.drop (k + 1) }) := by
  obtain ⟨_, hdone⟩ := p.exists_schedule a config.conflictPolicy b
  rw [ingest_eq hknown hdone, onSchedule_eq hdone, inTurn_eq]
  dsimp only
  split <;> rfl

/-- Reordered, the tasks come to the same end but for details. -/
theorem finishedPool_bare (h : b.Reorders b') (functions : List Function) :
    (finishedPool a policy b functions).map Worker.bare =
      (finishedPool a policy b' functions).map Worker.bare := by
  unfold finishedPool
  rw [List.map_map, List.map_map]
  apply List.map_congr_left
  intro f _
  show ((Worker.start b f).finish a policy).bare = ((Worker.start b' f).finish a policy).bare
  rw [← Worker.finish_bare, ← Worker.finish_bare, Worker.start_bare h]

/-- Without details the functions store the same spans. -/
theorem spans_bare (p : Program) :
    p.bare.functions.map (·.findings.spans) = p.functions.map (·.findings.spans) := by
  unfold bare
  rw [List.map_map]
  exact List.map_congr_left fun f _ => f.findings.spans_bare

/-- **The order of a function's findings is irrelevant.**  Two batches have the same findings for
each function, all of them functions of the program, which may be any.  Then they are answered the
same, be it a tally or an error, and leave the same program but for the details of findings; also
after an error every function has stored the same spans. -/
theorem ingest_ignores_finding_order (p : Program) (a : Arbiter) (config : IngestConfig)
    (b b' : Batch) (hknown : ∀ group ∈ b.groups, (p.function? group.1).isSome)
    (horder : b.Reorders b') :
    (p.ingest a config b').1 = (p.ingest a config b).1 ∧
    (p.ingest a config b').2.bare = (p.ingest a config b).2.bare ∧
    (p.ingest a config b').2.functions.map (·.findings.spans) =
      (p.ingest a config b).2.functions.map (·.findings.spans) := by
  suffices hbare : (p.ingest a config b').1 = (p.ingest a config b).1 ∧
      (p.ingest a config b').2.bare = (p.ingest a config b).2.bare by
    obtain ⟨hanswer, hafter⟩ := hbare
    refine ⟨hanswer, hafter, ?_⟩
    rw [← spans_bare, hafter, spans_bare]
  rw [ingest_eq_finishedPool hknown, ingest_eq_finishedPool (horder.known hknown),
    horder.size_eq]
  -- The pools are the same but for details, which is all that is told of them.
  have hpools : (finishedPool a config.conflictPolicy b p.functions).map Worker.bare =
      (finishedPool a config.conflictPolicy b' p.functions).map Worker.bare :=
    finishedPool_bare horder p.functions
  generalize finishedPool a config.conflictPolicy b p.functions = pool,
    finishedPool a config.conflictPolicy b' p.functions = pool' at hpools
  have hreports : pool'.filterMap Worker.report? = pool.filterMap Worker.report? := by
    rw [← Worker.reports_bare, ← hpools, Worker.reports_bare]
  have hfunctions : (pool'.map Worker.function).map Function.bare =
      (pool.map Worker.function).map Function.bare := by
    rw [← Worker.functions_bare, ← hpools, Worker.functions_bare]
  have hfinal : pool'.findIdx? (·.isFinal config.conflictPolicy) =
      pool.findIdx? (·.isFinal config.conflictPolicy) := by
    rw [← Worker.findIdx?_bare, ← hpools, Worker.findIdx?_bare]
  dsimp only
  rw [hreports, hfinal]
  refine ⟨rfl, congrArg (Program.mk p.packages · p.findingPolicy) ?_⟩
  dsimp only
  split_ifs
  · exact hfunctions
  · split
    · exact hfunctions
    · rw [List.map_append, List.map_append, List.map_take, List.map_take, hfunctions]

/-- Of two findings with one span a store that replaces keeps the details of the last one given;
the store of another function rejects the second one. -/
theorem ingest_ignores_finding_order_of_tie :
    let a := Ledger.freeze (.empty default)
    let p : Program := ⟨[], [⟨⟨0⟩, "f", ⟨0⟩, .function, "", .empty .replace⟩,
      ⟨⟨1⟩, "g", ⟨0⟩, .function, "", .empty .reject⟩], .reject⟩
    let x : Finding := ⟨⟨64, 8⟩, ⟨some "x"⟩⟩
    let y : Finding := ⟨⟨64, 8⟩, ⟨some "y"⟩⟩
    let z : Finding := ⟨⟨32, 8⟩, default⟩
    let b := Batch.ofList [(⟨0⟩, [x, z, y]), (⟨1⟩, [x, y, z])]
    let b' := Batch.ofList [(⟨1⟩, [z, y, x]), (⟨0⟩, [y, x, z])]
    (∀ group ∈ b.groups, (p.function? group.1).isSome) ∧ b.Reorders b' ∧
      (p.ingest a default b).1 = .error (.duplicateStart 64 .data .data) ∧
      (p.ingest a default b').1 = .error (.duplicateStart 64 .data .data) ∧
      (p.ingest a default b').2 ≠ (p.ingest a default b).2 ∧
      (p.ingest a default b').2.functions.map (·.findings.spans) =
        (p.ingest a default b).2.functions.map (·.findings.spans) := by
  intro a p x y z b b'
  have hknown : ∀ group ∈ b.groups, (p.function? group.1).isSome := by decide
  have horder : b.Reorders b' := by
    intro id
    by_cases hf : id = ⟨0⟩
    · rw [hf]
      exact .some (show [x, z, y].Perm [y, x, z] by decide)
    by_cases hg : id = ⟨1⟩
    · rw [hg]
      exact .some (show [x, y, z].Perm [z, y, x] by decide)
    · have hnone : b.find? id = none ∧ b'.find? id = none := by
        simp [b, b', Batch.ofList, Batch.add, Batch.empty, Batch.find?, Ne.symm hf, Ne.symm hg]
      rw [hnone.1, hnone.2]
      exact .none
  have herror : (p.ingest a default b).1 = .error (.duplicateStart 64 .data .data) := by
    unfold a p b x y z
    decide_cbv
  have hdiffer : (p.ingest a default b').2 ≠ (p.ingest a default b).2 := by
    unfold a p b b' x y z
    decide_cbv
  obtain ⟨hanswer, -, hspans⟩ := ingest_ignores_finding_order p a default b b' hknown horder
  exact ⟨hknown, horder, herror, hanswer.trans herror, hdiffer, hspans⟩

/-- Without two findings of one span, not even the details depend on the order. -/
theorem ingest_without_ties {config : IngestConfig}
    (hknown : ∀ group ∈ b.groups, (p.function? group.1).isSome) (horder : b.Reorders b')
    (hties : ∀ id findings, b.find? id = some findings →
      ∀ x ∈ findings, ∀ y ∈ findings, x.span = y.span → x = y) :
    p.ingest a config b' = p.ingest a config b := by
  have hstart (f : Function) : Worker.start b' f = Worker.start b f := by
    have hid := horder f.id
    have hdiffer := hties f.id
    unfold Worker.start
    generalize b.find? f.id = given, b'.find? f.id = given' at hid hdiffer
    cases hid with
    | none => rfl
    | some hperm =>
      dsimp only
      rw [Task.ofFindings, Task.ofFindings, Task.arrange_of_perm hperm (hdiffer _ rfl)]
  have hpools : finishedPool a config.conflictPolicy b' p.functions =
      finishedPool a config.conflictPolicy b p.functions :=
    List.map_congr_left fun f _ => congrArg (Worker.finish a config.conflictPolicy) (hstart f)
  rw [ingest_eq_finishedPool hknown, ingest_eq_finishedPool (horder.known hknown),
    horder.size_eq, hpools]

end Program

end ByteCensus
