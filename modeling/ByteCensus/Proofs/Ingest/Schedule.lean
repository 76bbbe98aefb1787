import Mathlib.Data.List.Permutation
import ByteCensus.Proofs.Ingest.Task

/-!
# Batches on any schedule

With many functions the tasks of a batch are carried out side by side.  Here they are, as a pool
of workers, one for each function, and a schedule that says at each moment whose turn it is to
take in its next finding (`Program.onSchedule`).

A worker reads the arbiter, and writes nothing but its own function.  So all that a schedule means
to it is how many turns it gets (`getElem?_play`), and once every task has come to its end the
pool is the one in which each task was carried out by itself (`play_eq_map_finish`).  Schedules
that bring all tasks to their end exist (`Program.exists_schedule`).

What is left is to compare that with going through the functions in turn
(`Program.onSchedule_agrees`): both ways answer the same, since nothing behind the first final
report counts; and they leave the same functions behind up to that report.
-/

namespace ByteCensus

/-- The part of a pool that belongs to one function. -/
inductive Worker where
  /-- The function has no findings. -/
  | idle (function : Program.Function)
  | busy (task : Task)

namespace Worker

variable {a : Arbiter} {policy : ConflictPolicy} {b : Batch}

def start (b : Batch) (f : Program.Function) : Worker :=
  match b.find? f.id with
  | none => idle f
  | some findings => busy (.ofFindings f findings)

def function : Worker → Program.Function
  | idle f => f
  | busy t => t.function

def report? : Worker → Option Report
  | idle _ => none
  | busy t => some t.report

def isFinal (policy : ConflictPolicy) (w : Worker) : Bool := w.report?.any (·.isFinal policy)

def IsDone : Worker → Prop
  | idle _ => True
  | busy t => t.pending = []

instance (w : Worker) : Decidable w.IsDone :=
  match w with
  | idle _ => isTrue trivial
  | busy t => inferInstanceAs (Decidable (t.pending = []))

/-- The number of findings still to be taken in. -/
def remaining : Worker → Nat
  | idle _ => 0
  | busy t => t.pending.length

/-- Takes in the next finding. -/
def step (a : Arbiter) (policy : ConflictPolicy) : Worker → Worker
  | idle f => idle f
  | busy t => busy (t.step a policy)

/-- Takes in all findings. -/
def finish (a : Arbiter) (policy : ConflictPolicy) : Worker → Worker
  | idle f => idle f
  | busy t => busy (t.finish a policy)

/-- The pool after the workers at these positions took their turns, one after the other. -/
def play (a : Arbiter) (policy : ConflictPolicy) (schedule : List Nat) (pool : List Worker) :
    List Worker :=
  schedule.foldl (fun pool i => pool.modify i (step a policy)) pool

theorem report?_busy (t : Task) : (busy t).report? = some t.report := rfl

theorem isFinal_idle (f : Program.Function) : (idle f).isFinal policy = false := rfl

theorem isFinal_busy (t : Task) : (busy t).isFinal policy = t.report.isFinal policy := rfl

/-! ### Interleaving -/

theorem iterate_step_idle (count : Nat) (f : Program.Function) :
    (step a policy)^[count] (idle f) = idle f :=
  Function.iterate_fixed rfl count

theorem iterate_step_busy (count : Nat) (t : Task) :
    (step a policy)^[count] (busy t) = busy ((Task.step a policy)^[count] t) := by
  induction count generalizing t with
  | zero => rfl
  | succ count ih =>
    rw [Function.iterate_succ_apply, Function.iterate_succ_apply, ← ih]
    rfl

/-- A worker that has come to its end has come to the end of its task, in however many turns. -/
theorem iterate_step_eq_finish {count : Nat} {w : Worker}
    (h : ((step a policy)^[count] w).IsDone) : (step a policy)^[count] w = w.finish a policy := by
  cases w with
  | idle f => exact iterate_step_idle count f
  | busy t =>
    rw [iterate_step_busy] at h ⊢
    rw [Task.iterate_step_eq_finish h]
    rfl

/-- A schedule gives each worker its number of turns, and that is all it does. -/
theorem getElem?_play (a : Arbiter) (policy : ConflictPolicy) (schedule : List Nat)
    (pool : List Worker) (i : Nat) :
    (play a policy schedule pool)[i]? = pool[i]?.map (step a policy)^[schedule.count i] := by
  -- Induction on the schedule, from its first turn on.
  induction schedule generalizing pool with
  | nil =>
    show pool[i]? = pool[i]?.map id
    rw [Option.map_id_fun, id]
  | cons j rest ih =>
    show (play a policy rest (pool.modify j (step a policy)))[i]? = _
    rw [ih, List.getElem?_modify]
    -- The turn is that of the worker looked at, or of another one.
    by_cases hij : j = i
    · subst hij
      rw [List.count_cons_self]
      cases pool[j]? with
      | none => rfl
      | some w =>
        show some ((step a policy)^[rest.count j] (if j = j then step a policy w else w)) = _
        rw [if_pos rfl, ← Function.iterate_succ_apply]
        rfl
    · rw [List.count_cons_of_ne hij]
      cases pool[i]? with
      | none => rfl
      | some w =>
        show some ((step a policy)^[rest.count i] (if j = i then step a policy w else w)) = _
        rw [if_neg hij]
        rfl

/-- Once all are done, the pool is the one in which each task was carried out by itself. -/
theorem play_eq_map_finish {schedule : List Nat} {pool : List Worker}
    (hdone : ∀ w ∈ play a policy schedule pool, w.IsDone) :
    play a policy schedule pool = pool.map (finish a policy) := by
  apply List.ext_getElem?
  intro i
  have hplayed := getElem?_play a policy schedule pool i
  rw [List.getElem?_map]
  cases hw : pool[i]? with
  | none =>
    rw [hplayed, hw]
    rfl
  | some w =>
    rw [hw] at hplayed
    have hmem := List.mem_of_getElem? hplayed
    rw [hplayed]
    exact congrArg some (iterate_step_eq_finish (hdone _ hmem))

/-- A schedule is long enough if each worker gets a turn for each of its findings. -/
theorem isDone_play {schedule : List Nat} {pool : List Worker}
    (h : ∀ i w, pool[i]? = some w → w.remaining ≤ schedule.count i) :
    ∀ w ∈ play a policy schedule pool, w.IsDone := by
  intro w hw
  obtain ⟨i, hi⟩ := List.mem_iff_getElem?.1 hw
  rw [getElem?_play] at hi
  obtain ⟨w', hw', rfl⟩ := Option.map_eq_some_iff.1 hi
  have hturns := h i w' hw'
  cases w' with
  | idle f =>
    rw [iterate_step_idle]
    trivial
  | busy t =>
    rw [iterate_step_busy]
    exact Task.pending_iterate_step hturns

/-- Lets one worker after the other take all its turns. -/
def oneByOne (pool : List Worker) : List Nat :=
  (List.range pool.length).flatMap fun i => List.replicate ((pool[i]?.map remaining).getD 0) i

/-- One after the other, each worker gets the turns it needs. -/
theorem remaining_le_count_oneByOne {pool : List Worker} {i : Nat} {w : Worker}
    (hw : pool[i]? = some w) : w.remaining ≤ (oneByOne pool).count i := by
  have hlt : i < pool.length := (List.getElem?_eq_some_iff.1 hw).1
  have hmem : List.replicate w.remaining i ∈ (List.range pool.length).map fun i =>
      List.replicate ((pool[i]?.map remaining).getD 0) i := by
    refine List.mem_map.2 ⟨i, List.mem_range.2 hlt, ?_⟩
    rw [hw]
    rfl
  -- The turns of this worker are among those of all.
  have hsub := (List.sublist_flatten_of_mem hmem).count_le i
  rw [List.count_replicate_self] at hsub
  exact hsub

/-! ### Final reports of a pool -/

theorem isFinal_of_report? {w : Worker} {r : Report} (hr : w.report? = some r) :
    w.isFinal policy = r.isFinal policy := by
  unfold isFinal
  rw [hr, Option.any_some]

theorem reports_not_final {pool : List Worker}
    (h : pool.findIdx? (·.isFinal policy) = none) :
    ∀ r ∈ pool.filterMap report?, r.isFinal policy = false := by
  intro r hr
  obtain ⟨w, hw, hreport⟩ := List.mem_filterMap.1 hr
  rw [← isFinal_of_report? hreport]
  exact List.findIdx?_eq_none_iff.1 h w hw

theorem exists_final_report {pool : List Worker} {k : Nat}
    (h : pool.findIdx? (·.isFinal policy) = some k) :
    ∃ r ∈ pool.filterMap report?, r.isFinal policy = true := by
  obtain ⟨hk, hfinal, -⟩ := List.findIdx?_eq_some_iff_getElem.1 h
  obtain ⟨r, hreport, hr⟩ := (Option.any_eq_true _ _).1 hfinal
  exact ⟨r, List.mem_filterMap.2 ⟨pool[k], List.getElem_mem hk, hreport⟩, hr⟩

end Worker

namespace Program

variable {a : Arbiter} {policy : ConflictPolicy} {b : Batch}

/-- The workers for the functions of a program after a schedule. -/
def poolAfter (p : Program) (a : Arbiter) (policy : ConflictPolicy) (b : Batch)
    (schedule : List Nat) : List Worker :=
  Worker.play a policy schedule (p.functions.map (Worker.start b))

/-- Takes in a batch with all tasks side by side, in the order of a schedule. -/
def onSchedule (p : Program) (a : Arbiter) (policy : ConflictPolicy) (b : Batch)
    (schedule : List Nat) : Except Error Tally × Program :=
  let pool := p.poolAfter a policy b schedule
  (Report.conclude policy (pool.filterMap Worker.report?),
    { p with functions := pool.map Worker.function })

/-- Takes in a batch function by function. -/
def inTurn (p : Program) (a : Arbiter) (policy : ConflictPolicy) (b : Batch) :
    Except Error Tally × Program :=
  let (functions, reports) := ingestInTurn a policy b p.functions
  (Report.conclude policy reports, { p with functions })

/-- There is a schedule that brings all tasks to their end. -/
theorem exists_schedule (p : Program) (a : Arbiter) (policy : ConflictPolicy) (b : Batch) :
    ∃ schedule, ∀ w ∈ p.poolAfter a policy b schedule, w.IsDone := by
  refine ⟨Worker.oneByOne (p.functions.map (Worker.start b)), ?_⟩
  apply Worker.isDone_play
  intro i w hw
  exact Worker.remaining_le_count_oneByOne hw

/-! ### Each by itself and in turn -/

/-- The workers that have carried out the tasks of these functions. -/
def finishedPool (a : Arbiter) (policy : ConflictPolicy) (b : Batch) (functions : List Function) :
    List Worker :=
  functions.map fun f => (Worker.start b f).finish a policy

/-- A schedule that brings all tasks to their end does not show in the pool. -/
theorem poolAfter_eq_finishedPool {p : Program} {schedule : List Nat}
    (hdone : ∀ w ∈ p.poolAfter a policy b schedule, w.IsDone) :
    p.poolAfter a policy b schedule = finishedPool a policy b p.functions := by
  unfold poolAfter at hdone ⊢
  rw [Worker.play_eq_map_finish hdone, List.map_map]
  rfl

theorem finishedPool_cons_idle {f : Function} (h : b.find? f.id = none) (rest : List Function) :
    finishedPool a policy b (f :: rest) = .idle f :: finishedPool a policy b rest := by
  unfold finishedPool
  rw [List.map_cons, Worker.start, h]
  rfl

theorem finishedPool_cons_busy {f : Function} {findings : List Finding}
    (h : b.find? f.id = some findings) (rest : List Function) :
    finishedPool a policy b (f :: rest) =
      .busy ((Task.ofFindings f findings).finish a policy) :: finishedPool a policy b rest := by
  unfold finishedPool
  rw [List.map_cons, Worker.start, h]
  rfl

/-- Taken in side by side, the functions and reports are those of the finished pool. -/
theorem ingestEach_eq (functions : List Function) :
    ingestEach a policy b functions =
      ((finishedPool a policy b functions).map Worker.function,
        (finishedPool a policy b functions).filterMap Worker.report?) := by
  induction functions with
  | nil => rfl
  | cons f rest ih =>
    rw [ingestEach, ih]
    cases hfind : b.find? f.id with
    | none =>
      rw [finishedPool_cons_idle hfind]
      rfl
    | some findings =>
      rw [finishedPool_cons_busy hfind]
      rfl

/-- In turn, the first final report ends the list, and the functions behind it stay. -/
theorem ingestInTurn_cons {f : Function} {findings : List Finding}
    (h : b.find? f.id = some findings) (rest : List Function) :
    ingestInTurn a policy b (f :: rest) =
      let done := (Task.ofFindings f findings).finish a policy
      if done.report.isFinal policy then (done.function :: rest, [done.report])
      else (done.function :: (ingestInTurn a policy b rest).1,
        done.report :: (ingestInTurn a policy b rest).2) := by
  rw [ingestInTurn, h]

/-- What is not carried out behind a final report would not count. -/
theorem gather_ingestInTurn (functions : List Function) (tally : Tally)
    (conflicts : List Conflict) :
    Report.gather policy tally conflicts (ingestInTurn a policy b functions).2 =
      Report.gather policy tally conflicts
        ((finishedPool a policy b functions).filterMap Worker.report?) := by
  induction functions generalizing tally conflicts with
  | nil => rfl
  | cons f rest ih =>
    cases hfind : b.find? f.id with
    | none =>
      rw [finishedPool_cons_idle hfind, ingestInTurn, hfind]
      exact ih tally conflicts
    | some findings =>
      rw [finishedPool_cons_busy hfind, ingestInTurn_cons hfind]
      dsimp only
      rw [List.filterMap_cons_some (Worker.report?_busy _)]
      by_cases hfinal : ((Task.ofFindings f findings).finish a policy).report.isFinal policy = true
      -- A final report ends both gatherings.
      · rw [if_pos hfinal]
        exact (Report.gather_cons_of_isFinal hfinal _).symm
      · have hnot := Bool.eq_false_iff.2 hfinal
        rw [if_neg hfinal, Report.gather_cons_of_not_isFinal hnot,
          Report.gather_cons_of_not_isFinal hnot]
        exact ih _ _

/-- The functions in turn are those of the pool up to the first final report. -/
theorem functions_ingestInTurn (functions : List Function) :
    (ingestInTurn a policy b functions).1 =
      match (finishedPool a policy b functions).findIdx? (·.isFinal policy) with
      | none => (finishedPool a policy b functions).map Worker.function
      | some k => ((finishedPool a policy b functions).map Worker.function).take (k + 1) ++
          functions.drop (k + 1) := by
  induction functions with
  | nil => rfl
  | cons f rest ih =>
    -- With a first report that is not final the search goes on, one place further down.
    have hmore (w : Worker) (hw : w.isFinal policy = false) :
        w.function :: (ingestInTurn a policy b rest).1 =
          match (w :: finishedPool a policy b rest).findIdx? (·.isFinal policy) with
          | none => (w :: finishedPool a policy b rest).map Worker.function
          | some k => ((w :: finishedPool a policy b rest).map Worker.function).take (k + 1) ++
              (f :: rest).drop (k + 1) := by
      rw [List.findIdx?_cons, hw, ih]
      cases (finishedPool a policy b rest).findIdx? (·.isFinal policy) <;> rfl
    cases hfind : b.find? f.id with
    | none =>
      rw [finishedPool_cons_idle hfind, ingestInTurn, hfind]
      exact hmore (.idle f) (Worker.isFinal_idle f)
    | some findings =>
      rw [finishedPool_cons_busy hfind, ingestInTurn_cons hfind]
      dsimp only
      by_cases hfinal : ((Task.ofFindings f findings).finish a policy).report.isFinal policy = true
      · rw [if_pos hfinal, List.findIdx?_cons, Worker.isFinal_busy, if_pos hfinal]
        rfl
      · rw [if_neg hfinal]
        exact hmore (.busy _) (Bool.eq_false_iff.2 hfinal)

/-! ### The two ways -/

/-- On a schedule a batch comes to the finished pool. -/
theorem onSchedule_eq {p : Program} {schedule : List Nat}
    (hdone : ∀ w ∈ p.poolAfter a policy b schedule, w.IsDone) :
    p.onSchedule a policy b schedule =
      (Report.conclude policy ((finishedPool a policy b p.functions).filterMap Worker.report?),
        { p with functions := (finishedPool a policy b p.functions).map Worker.function }) := by
  unfold onSchedule
  rw [poolAfter_eq_finishedPool hdone]

/-- In turn a batch is answered as by the finished pool, and keeps its functions up to the first
final report. -/
theorem inTurn_eq (p : Program) :
    p.inTurn a policy b =
      (Report.conclude policy ((finishedPool a policy b p.functions).filterMap Worker.report?),
        { p with functions :=
            match (finishedPool a policy b p.functions).findIdx? (·.isFinal policy) with
            | none => (finishedPool a policy b p.functions).map Worker.function
            | some k => ((finishedPool a policy b p.functions).map Worker.function).take (k + 1) ++
                p.functions.drop (k + 1) }) := by
  unfold inTurn Report.conclude
  dsimp only
  rw [gather_ingestInTurn, functions_ingestInTurn]

/-- No group is for an unknown function iff all are for known ones. -/
theorem unknown?_eq_none_iff {p : Program} :
    b.unknown? p = none ↔ ∀ group ∈ b.groups, (p.function? group.1).isSome := by
  unfold Batch.unknown?
  rw [List.find?_eq_none, List.forall_mem_map]
  simp only [Bool.not_eq_true, Bool.not_eq_false']

theorem ingest_eq {p : Program} {schedule : List Nat} {config : IngestConfig}
    (hknown : ∀ group ∈ b.groups, (p.function? group.1).isSome)
    (hdone : ∀ w ∈ p.poolAfter a config.conflictPolicy b schedule, w.IsDone) :
    p.ingest a config b =
      if config.parallelThreshold.toNat ≤ b.size
      then p.onSchedule a config.conflictPolicy b schedule
      else p.inTurn a config.conflictPolicy b := by
  rw [onSchedule_eq hdone]
  unfold ingest
  rw [unknown?_eq_none_iff.2 hknown]
  dsimp only
  split
  · rw [ingestEach_eq]
  · rfl

/-! ### The answers -/

/-- Tasks fail on duplicates only. -/
theorem failsOnDuplicate_of_mem_finishedPool {functions : List Function} {r : Report}
    (hr : r ∈ (finishedPool a policy b functions).filterMap Worker.report?) :
    r.FailsOnDuplicate := by
  obtain ⟨w, hw, hreport⟩ := List.mem_filterMap.1 hr
  obtain ⟨f, -, rfl⟩ := List.mem_map.1 hw
  unfold Worker.start at hreport
  cases hfind : b.find? f.id with
  | none =>
    rw [hfind] at hreport
    cases hreport
  | some findings =>
    rw [hfind] at hreport
    obtain rfl := Option.some.inj hreport
    exact Task.failsOnDuplicate_finish f findings

/-- **Taking in a batch side by side, on any schedule, agrees with taking it in function by
function.**  The groups of the batch name functions of the program, and the schedule brings all
tasks to their end.

* The size of the batch decides which of the two ways is taken.
* They give the same answer.
* They leave the same program where the answer is a tally or the list of all conflicts.  Where it
  is another error there is a first function with a final report: up to that one the functions are
  the same, and going in turn leaves those behind it as they were. -/
theorem onSchedule_agrees (p : Program) (a : Arbiter) (policy : ConflictPolicy) (b : Batch)
    (schedule : List Nat)
    (hknown : ∀ group ∈ b.groups, (p.function? group.1).isSome)
    (hdone : ∀ w ∈ p.poolAfter a policy b schedule, w.IsDone) :
    let pool := p.poolAfter a policy b schedule
    let parallel := p.onSchedule a policy b schedule
    let sequential := p.inTurn a policy b
    (∀ config : IngestConfig, config.conflictPolicy = policy →
      p.ingest a config b =
        if config.parallelThreshold.toNat ≤ b.size then parallel else sequential) ∧
    parallel.1 = sequential.1 ∧
    match parallel.1 with
    | .ok _ | .error (.conflicts _) => parallel.2 = sequential.2
    | .error _ => ∃ k, pool.findIdx? (·.isFinal policy) = some k ∧
        sequential.2 = { p with
          functions := parallel.2.functions.take (k + 1) ++ p.functions.drop (k + 1) } := by
  intro pool parallel sequential
  have hpool : pool = finishedPool a policy b p.functions := poolAfter_eq_finishedPool hdone
  have hparallel : parallel = _ := onSchedule_eq hdone
  have hsequential : sequential = _ := inTurn_eq p
  rw [← hpool] at hparallel hsequential
  refine ⟨?_, ?_, ?_⟩
  · rintro config rfl
    exact ingest_eq hknown hdone
  · rw [hparallel, hsequential]
  rw [hparallel, hsequential]
  dsimp only
  -- The first final report, if there is one, decides on the answer.
  cases hfinal : pool.findIdx? (·.isFinal policy) with
  | none =>
    rcases Report.conclude_of_no_final (Worker.reports_not_final hfinal) with
      ⟨total, hconclude⟩ | ⟨all, hconclude⟩
    · rw [hconclude]
    · rw [hconclude]
  | some k =>
    have hfails : ∀ r ∈ pool.filterMap Worker.report?, r.FailsOnDuplicate := by
      intro r hr
      rw [hpool] at hr
      exact failsOnDuplicate_of_mem_finishedPool hr
    -- With a final report the answer is neither a tally nor the list of all conflicts.
    obtain ⟨err, hconclude, hnot⟩ :=
      Report.conclude_of_final (Worker.exists_final_report hfinal) hfails
    rw [hconclude]
    split
    · next heq => cases heq
    · next all heq => exact absurd (Except.error.inj heq) (hnot all)
    · exact ⟨k, rfl, rfl⟩

/-- Two functions take turns, and the second one aborts at its first finding. -/
theorem onSchedule_agrees_alternating :
    let symbols := (Store.empty .keepFirst).put (.ofSymbol ⟨32, 16⟩ .text ⟨0⟩ ⟨"code"⟩)
    let a := Ledger.freeze { Ledger.empty default with symbols }
    let p : Program := ⟨[], [⟨⟨0⟩, "f", ⟨0⟩, .function, "", .empty .keepFirst⟩,
      ⟨⟨1⟩, "g", ⟨0⟩, .function, "", .empty .keepFirst⟩], .keepFirst⟩
    let b := Batch.ofList [(⟨0⟩, [⟨⟨20, 4⟩, default⟩, ⟨⟨16, 4⟩, default⟩]),
      (⟨1⟩, [⟨⟨40, 8⟩, default⟩, ⟨⟨64, 8⟩, default⟩])]
    let schedule := [1, 0, 0, 1]
    (∀ group ∈ b.groups, (p.function? group.1).isSome) ∧
      (∀ w ∈ p.poolAfter a .abort b schedule, w.IsDone) ∧
      (p.onSchedule a .abort b schedule).1 = (p.inTurn a .abort b).1 := by
  intro symbols a p b schedule
  have hknown : ∀ group ∈ b.groups, (p.function? group.1).isSome := by decide
  have hdone : ∀ w ∈ p.poolAfter a .abort b schedule, w.IsDone := by decide_cbv
  exact ⟨hknown, hdone, (onSchedule_agrees p a .abort b schedule hknown hdone).2.1⟩

end Program

end ByteCensus
