import ByteCensus.Ingest.Batch
import ByteCensus.Ingest.Task

/-!
# Taking in a batch

A batch is taken in function by function.  With few functions they are gone through in turn, and
the first final report ends the pass (`ingestInTurn`).  With many, all tasks are carried out
independently of each other (`ingestEach`), and what comes after a final report is only found out
when the reports are put together.

`conclude` puts the reports together in the order of the functions, which makes the answer the
same in both cases; what the functions after a final report have stored may differ.
-/

namespace ByteCensus

namespace Program

/-- Carries out the tasks of all functions with findings. -/
def ingestEach (a : Arbiter) (policy : ConflictPolicy) (b : Batch) :
    List Function → List Function × List Report
  | [] => ([], [])
  | f :: rest =>
    let (functions, reports) := ingestEach a policy b rest
    match b.find? f.id with
    | none => (f :: functions, reports)
    | some findings =>
      let done := (Task.ofFindings f findings).finish a policy
      (done.function :: functions, done.report :: reports)

/-- Carries out the tasks of the functions with findings up to the first final report. -/
def ingestInTurn (a : Arbiter) (policy : ConflictPolicy) (b : Batch) :
    List Function → List Function × List Report
  | [] => ([], [])
  | f :: rest =>
    match b.find? f.id with
    | none =>
      let (functions, reports) := ingestInTurn a policy b rest
      (f :: functions, reports)
    | some findings =>
      let done := (Task.ofFindings f findings).finish a policy
      -- The functions behind a final report stay as they were.
      if done.report.isFinal policy then (done.function :: rest, [done.report])
      else
        let (functions, reports) := ingestInTurn a policy b rest
        (done.function :: functions, done.report :: reports)

end Program

namespace Report

/-- Adds up reports, after those with this tally and these conflicts, up to the first final one. -/
def gather (policy : ConflictPolicy) (tally : Tally) (conflicts : List Conflict) :
    List Report → Except Error (Tally × List Conflict)
  | [] => .ok (tally, conflicts)
  | r :: rest =>
    match r.failure with
    -- A failure hides the conflicts gathered before it.
    | some e => .error e
    | none =>
      if r.isFinal policy then .ok (tally + r.tally, conflicts ++ r.conflicts)
      else gather policy (tally + r.tally) (conflicts ++ r.conflicts) rest

/-- The answer that the reports give together. -/
def conclude (policy : ConflictPolicy) (reports : List Report) : Except Error Tally := do
  let (tally, conflicts) ← gather policy {} [] reports
  match policy, conflicts with
  | _, [] => return tally
  | .abort, first :: _ => throw (.conflict first)
  | .collect, _ :: _ => throw (.conflicts conflicts)

end Report

namespace Program

/-- Takes in a batch.  The program is returned as it is then, also where an error is. -/
def ingest (p : Program) (a : Arbiter) (config : IngestConfig) (b : Batch) :
    Except Error Tally × Program :=
  match b.unknown? p with
  | some id => (.error (.invalidInput (.unknownFunction id)), p)
  | none =>
    let policy := config.conflictPolicy
    let (functions, reports) :=
      if config.parallelThreshold.toNat ≤ b.size then ingestEach a policy b p.functions
      else ingestInTurn a policy b p.functions
    (Report.conclude policy reports, { p with functions })

end Program

end ByteCensus
