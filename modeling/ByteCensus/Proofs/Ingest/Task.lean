import Mathlib.Logic.Function.Iterate
import ByteCensus.Proofs.Arbitration
import ByteCensus.Proofs.Ingest.Report

/-!
# How a task runs

`step_cases` says all that a step of a task can do, and the rest follows from it.

A task with nothing pending stays as it is.  So a task that has come to its end has come to the
same end as under `Task.finish`, however many steps that took (`iterate_step_eq_finish`).

What makes a task fail is a duplicate that the store of its function refuses, never a conflict
(`failsOnDuplicate_finish`).
-/

namespace ByteCensus.Task

variable {a : Arbiter} {policy : ConflictPolicy} {t : Task}

/-- All that a step can do. -/
theorem step_cases (a : Arbiter) (policy : ConflictPolicy) (t : Task) :
    (t.pending = [] ∧ t.step a policy = t) ∨
    ∃ finding rest, t.pending = finding :: rest ∧
      ((∃ ruling g, a.rule t.function finding = .ok (ruling, g) ∧
        t.step a policy = ⟨g, rest, { t.report with tally := t.report.tally.count ruling }⟩) ∨
      (∃ c, a.rule t.function finding = .error (.conflict c) ∧
        t.step a policy = ⟨t.function, if policy = .abort then [] else rest,
          { t.report with conflicts := t.report.conflicts ++ [c] }⟩) ∨
      ∃ start kept refused,
        a.rule t.function finding = .error (.duplicateStart start kept refused) ∧
        t.step a policy = ⟨t.function, [],
          { t.report with failure := some (.duplicateStart start kept refused) }⟩) := by
  unfold step
  cases hpending : t.pending with
  | nil =>
    left
    exact ⟨rfl, rfl⟩
  | cons finding rest =>
    right
    refine ⟨finding, rest, rfl, ?_⟩
    obtain ⟨_, _, hrule⟩ | ⟨_, hrule⟩ | ⟨_, _, _, hrule⟩ := a.rule_outcome t.function finding
    all_goals
      dsimp only
      rw [hrule]
    · left
      exact ⟨_, _, rfl, rfl⟩
    · right; left
      exact ⟨_, rfl, rfl⟩
    · right; right
      exact ⟨_, _, _, rfl, rfl⟩

/-! ### Coming to an end -/

theorem step_of_pending_nil (h : t.pending = []) : t.step a policy = t := by
  unfold step
  rw [h]

theorem run_eq_iterate (count : Nat) (t : Task) :
    run a policy count t = (step a policy)^[count] t := by
  induction count generalizing t with
  | zero => rfl
  | succ count ih =>
    rw [run, ih, Function.iterate_succ_apply]

theorem iterate_step_of_pending_nil (h : t.pending = []) (count : Nat) :
    (step a policy)^[count] t = t :=
  Function.iterate_fixed (step_of_pending_nil h) count

/-- A task ends once it had a step for each of its findings. -/
theorem pending_iterate_step {count : Nat} (h : t.pending.length ≤ count) :
    ((step a policy)^[count] t).pending = [] := by
  have hfinish : ((step a policy)^[t.pending.length] t).pending = [] := by
    rw [← run_eq_iterate]
    exact pending_finish a policy t
  -- The steps beyond that number change nothing.
  obtain ⟨more, hmore⟩ := Nat.exists_eq_add_of_le' h
  rw [hmore, Function.iterate_add_apply, iterate_step_of_pending_nil hfinish]
  exact hfinish

/-- Steps that leave nothing pending come to the end of the task, whatever their number. -/
theorem iterate_step_eq_finish {count : Nat}
    (h : ((step a policy)^[count] t).pending = []) :
    (step a policy)^[count] t = t.finish a policy := by
  have hfinish : t.finish a policy = (step a policy)^[t.pending.length] t := run_eq_iterate _ t
  rw [hfinish]
  -- The larger number of steps is the smaller one, followed by steps that change nothing.
  rcases Nat.le_total count t.pending.length with hle | hle
  · obtain ⟨more, hmore⟩ := Nat.exists_eq_add_of_le' hle
    rw [hmore, Function.iterate_add_apply, iterate_step_of_pending_nil h]
  · obtain ⟨more, hmore⟩ := Nat.exists_eq_add_of_le' hle
    have hpending : ((step a policy)^[t.pending.length] t).pending = [] :=
      pending_iterate_step (Nat.le_refl _)
    rw [hmore, Function.iterate_add_apply, iterate_step_of_pending_nil hpending]

theorem finish_of_pending_nil (h : t.pending = []) : t.finish a policy = t := by
  unfold finish
  rw [h]
  rfl

/-- A task may be carried out by one step and then the rest. -/
theorem finish_step (t : Task) : (t.step a policy).finish a policy = t.finish a policy := by
  -- The step took one finding, at least, off those pending.
  have hlength := length_pending_step a policy t
  have hdone : ((step a policy)^[t.pending.length] (t.step a policy)).pending = [] :=
    pending_iterate_step (by omega)
  rw [← iterate_step_eq_finish hdone, ← Function.iterate_succ_apply]
  rw [← Function.iterate_succ_apply] at hdone
  exact iterate_step_eq_finish hdone

/-! ### The next finding -/

variable {f g : Program.Function} {finding : Finding} {rest : List Finding} {r : Report}

/-- A finding that is ruled on is counted, and the task goes on with the function as it is then. -/
theorem finish_of_rule_ok {ruling : Ruling} (hrule : a.rule f finding = .ok (ruling, g)) :
    (⟨f, finding :: rest, r⟩ : Task).finish a policy =
      (⟨g, rest, { r with tally := r.tally.count ruling }⟩ : Task).finish a policy := by
  rw [← finish_step, step]
  dsimp only
  rw [hrule]

/-- A conflict is noted; it ends the task only under the policy to abort. -/
theorem finish_of_rule_conflict {c : Conflict} (hrule : a.rule f finding = .error (.conflict c)) :
    (⟨f, finding :: rest, r⟩ : Task).finish a policy =
      (⟨f, if policy = .abort then [] else rest,
        { r with conflicts := r.conflicts ++ [c] }⟩ : Task).finish a policy := by
  rw [← finish_step, step]
  dsimp only
  rw [hrule]

/-- A duplicate that the store refuses ends the task. -/
theorem finish_of_rule_duplicate {start : Address} {kept refused : ByteKind}
    (hrule : a.rule f finding = .error (.duplicateStart start kept refused)) :
    (⟨f, finding :: rest, r⟩ : Task).finish a policy =
      ⟨f, [], { r with failure := some (.duplicateStart start kept refused) }⟩ := by
  rw [← finish_step, step]
  dsimp only
  rw [hrule]
  exact finish_of_pending_nil rfl

/-! ### Failures -/

/-- What holds of a task and is kept by a step holds at its end. -/
theorem finish_induction {motive : Task → Prop} (t : Task) (hstart : motive t)
    (hstep : ∀ t, motive t → motive (t.step a policy)) : motive (t.finish a policy) := by
  unfold finish
  generalize t.pending.length = count
  induction count generalizing t with
  | zero => exact hstart
  | succ count ih => exact ih (t.step a policy) (hstep t hstart)

theorem failsOnDuplicate_step (t : Task) (h : t.report.FailsOnDuplicate) :
    (t.step a policy).report.FailsOnDuplicate := by
  obtain ⟨-, hstep⟩ | ⟨_, _, -, ⟨_, _, -, hstep⟩ | ⟨_, -, hstep⟩ |
      ⟨start, kept, refused, -, hstep⟩⟩ := step_cases a policy t
  · rw [hstep]
    exact h
  · rw [hstep]
    exact h
  · rw [hstep]
    exact h
  · rw [hstep]
    intro err herr
    exact ⟨start, kept, refused, (Option.some.inj herr).symm⟩

/-- A task never fails but on a duplicate. -/
theorem failsOnDuplicate_finish (function : Program.Function) (findings : List Finding) :
    ((ofFindings function findings).finish a policy).report.FailsOnDuplicate := by
  apply finish_induction (motive := fun t => t.report.FailsOnDuplicate)
  · intro err herr
    cases herr
  · exact failsOnDuplicate_step

end ByteCensus.Task
