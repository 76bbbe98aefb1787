import ByteCensus.Arbiter

/-!
# The findings of one function

Taking in the findings of a function is a task of its own: it reads the arbiter, and writes
nothing but the function.  Findings are taken in by address, smaller ones first.

A task goes on one finding at a time (`Task.step`), so that tasks can be interleaved in any way,
and ends when nothing is pending.  It ends early at an error that is no conflict, and at a
conflict if the policy is to abort.
-/

namespace ByteCensus

/-- How often each thing happened. -/
structure Tally where
  /-- Functions with findings. -/
  functions : Nat := 0
  /-- Findings that were stored, over another entry or not. -/
  inserted : Nat := 0
  /-- Findings no larger than one already stored at their address. -/
  duplicates : Nat := 0
  /-- Findings that widened a smaller one at their address. -/
  extended : Nat := 0
  /-- Findings that overlap data of the symbol table and nothing else of it; they are not stored. -/
  shadowed : Nat := 0
deriving DecidableEq, Repr, Inhabited

namespace Tally

instance : Add Tally where
  add t u :=
    ⟨t.functions + u.functions, t.inserted + u.inserted, t.duplicates + u.duplicates,
      t.extended + u.extended, t.shadowed + u.shadowed⟩

/-- Counts a ruling. -/
def count (t : Tally) : Ruling → Tally
  | .shadowed => { t with shadowed := t.shadowed + 1 }
  | .recorded .duplicate => { t with duplicates := t.duplicates + 1 }
  | .recorded .extended => { t with extended := t.extended + 1 }
  | .recorded .inserted | .recorded .replaced => { t with inserted := t.inserted + 1 }

end Tally

/-- What came of the findings of one function. -/
structure Report where
  tally : Tally
  /-- The findings in conflict with the symbol table. -/
  conflicts : List Conflict
  /-- The error of another kind that ended the task. -/
  failure : Option Error
deriving DecidableEq, Repr

/-- Nothing after this report counts. -/
def Report.isFinal (r : Report) (policy : ConflictPolicy) : Bool :=
  r.failure.isSome || policy == .abort && !r.conflicts.isEmpty

/-- A function whose findings are being taken in. -/
structure Task where
  function : Program.Function
  /-- The findings still to be taken in, in order. -/
  pending : List Finding
  report : Report
deriving DecidableEq

namespace Task

/-- By address, then by size. -/
def Precedes (x y : Finding) : Prop :=
  x.span.start < y.span.start ∨ x.span.start = y.span.start ∧ x.span.size ≤ y.span.size

instance (x y : Finding) : Decidable (Precedes x y) :=
  inferInstanceAs (Decidable (_ ∨ _))

/-- The findings in the order in which they are taken in; equal ones keep their order. -/
def arrange (findings : List Finding) : List Finding :=
  findings.mergeSort fun x y => decide (Precedes x y)

/-- A task with nothing done yet. -/
def ofFindings (function : Program.Function) (findings : List Finding) : Task :=
  ⟨function, arrange findings, ⟨{ functions := 1 }, [], none⟩⟩

/-- Takes in the next finding. -/
def step (a : Arbiter) (policy : ConflictPolicy) (t : Task) : Task :=
  match t.pending with
  | [] => t
  | finding :: rest =>
    match a.rule t.function finding with
    | .ok (ruling, function) =>
      ⟨function, rest, { t.report with tally := t.report.tally.count ruling }⟩
    -- A conflict is noted and stores nothing; any other error ends the task under both policies.
    | .error (.conflict c) =>
      ⟨t.function, if policy = .abort then [] else rest,
        { t.report with conflicts := t.report.conflicts ++ [c] }⟩
    | .error e => ⟨t.function, [], { t.report with failure := some e }⟩

/-- Takes in the next `count` findings. -/
def run (a : Arbiter) (policy : ConflictPolicy) : Nat → Task → Task
  | 0, t => t
  | count + 1, t => run a policy count (t.step a policy)

/-- Takes in all findings. -/
def finish (a : Arbiter) (policy : ConflictPolicy) (t : Task) : Task :=
  run a policy t.pending.length t

theorem precedes_total (x y : Finding) : Precedes x y ∨ Precedes y x := by
  simp only [Precedes, UInt64.lt_iff_toNat_lt, UInt64.le_iff_toNat_le, ← UInt64.toNat_inj]
  omega

theorem Precedes.trans {x y z : Finding} (hxy : Precedes x y) (hyz : Precedes y z) :
    Precedes x z := by
  simp only [Precedes, UInt64.lt_iff_toNat_lt, UInt64.le_iff_toNat_le, ← UInt64.toNat_inj] at *
  omega

theorem arrange_perm (findings : List Finding) : (arrange findings).Perm findings :=
  List.mergeSort_perm ..

/-- A step leaves fewer findings pending, unless none were. -/
theorem length_pending_step (a : Arbiter) (policy : ConflictPolicy) (t : Task) :
    (t.step a policy).pending.length ≤ t.pending.length - 1 := by
  unfold step
  split
  · next h => simp [h]
  · next h =>
    split
    · simp [h]
    · split <;> simp [h]
    · simp

/-- A finished task has nothing pending. -/
theorem pending_finish (a : Arbiter) (policy : ConflictPolicy) (t : Task) :
    (t.finish a policy).pending = [] := by
  suffices ∀ count (t : Task), t.pending.length ≤ count → (run a policy count t).pending = [] from
    this _ t (Nat.le_refl _)
  intro count
  induction count with
  | zero => exact fun t h => List.length_eq_zero_iff.1 (Nat.le_zero.1 h)
  | succ count ih =>
    intro t h
    have := length_pending_step a policy t
    exact ih _ (by omega)

end Task

end ByteCensus
