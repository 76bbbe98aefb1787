import ByteCensus.Proofs.Ingest.Task
import ByteCensus.Proofs.Session

/-!
# Sessions in lockstep

The evidence of a session can be changed as a whole, by one function on ledgers and one on arbiters
(`Session.mapEvidence`).  A step overlooks the change if what it does to the evidence commutes with
the change (`Session.Step.Overlooks`); then it is answered alike with the change and without, and
the change can as well be made afterwards (`Session.step_mapEvidence`).

Two sessions that differ by a change therefore go in lockstep through all steps that overlook it,
past other steps that it hides (`Session.steps_mapEvidence`).
-/

namespace ByteCensus

/-! ### Batches -/

/-- A batch reads the arbiter through its rulings only. -/
theorem Program.ingest_congr {a a' : Arbiter} (hrule : a.rule = a'.rule) (p : Program)
    (config : IngestConfig) (batch : Batch) :
    p.ingest a config batch = p.ingest a' config batch := by
  have hstep (policy : ConflictPolicy) : Task.step a policy = Task.step a' policy := by
    funext t
    unfold Task.step
    rw [hrule]
  -- A task is finished by iterating its step, which reads nothing but `rule`.
  have hfinish (policy : ConflictPolicy) : Task.finish a policy = Task.finish a' policy := by
    funext t
    unfold Task.finish
    rw [Task.run_eq_iterate, Task.run_eq_iterate, hstep]
  have heach (policy : ConflictPolicy) (functions : List Program.Function) :
      ingestEach a policy batch functions = ingestEach a' policy batch functions := by
    induction functions with
    | nil => rfl
    | cons f rest ih => rw [ingestEach, ingestEach, ih, hfinish]
  have hinTurn (policy : ConflictPolicy) (functions : List Program.Function) :
      ingestInTurn a policy batch functions = ingestInTurn a' policy batch functions := by
    induction functions with
    | nil => rfl
    | cons f rest ih => rw [ingestInTurn, ingestInTurn, ih, hfinish]
  unfold ingest
  simp only [heach, hinTurn]

/-! ### Changed evidence -/

variable {onLedger : Ledger → Ledger} {onArbiter : Arbiter → Arbiter}

namespace Phase

def map (onLedger : Ledger → Ledger) (onArbiter : Arbiter → Arbiter) : Phase → Phase
  | collecting l => collecting (onLedger l)
  | arbitrating a => arbitrating (onArbiter a)

/-- The coverage of the symbol table while it is frozen. -/
def symbolCoverage? : Phase → Option Coverage
  | collecting _ => none
  | arbitrating a => some a.symbolCoverage

end Phase

namespace Session

variable {s t : Session} {what : Step}

/-- The session with its evidence changed, in whichever phase it is. -/
def mapEvidence (onLedger : Ledger → Ledger) (onArbiter : Arbiter → Arbiter) (s : Session) :
    Session :=
  { s with phase := s.phase.map onLedger onArbiter }

/-- What the step does to the evidence commutes with the change. -/
def Step.Overlooks (onLedger : Ledger → Ledger) (onArbiter : Arbiter → Arbiter) : Step → Prop
  | .addPackage .. | .addFunction .. | .newProgram .. | .setBuild .. => True
  | .pcTable span _ detail => ∀ f : Program.Function,
    (∀ l, (onLedger l).recordPcTable span f detail =
      (l.recordPcTable span f detail).map (Prod.map id onLedger)) ∧
    ∀ a, (onArbiter a).recordPcTable span f detail =
      (a.recordPcTable span f detail).map (Prod.map id onArbiter)
  | .symbol span kind package detail => ∀ l, (onLedger l).recordSymbol span kind package detail =
    (l.recordSymbol span kind package detail).map (Prod.map id onLedger)
  | .attach _ f => ∀ l handle, (onLedger l).attach handle f = (l.attach handle f).map onLedger
  | .debugInfo span kind package detail =>
    (∀ l, (onLedger l).recordDebugInfo span kind package detail =
      (l.recordDebugInfo span kind package detail).map (Prod.map id onLedger)) ∧
    ∀ a, (onArbiter a).recordDebugInfo span kind package detail =
      (a.recordDebugInfo span kind package detail).map (Prod.map id onArbiter)
  | .freeze => ∀ l, (onLedger l).freeze = onArbiter l.freeze ∧
    (onArbiter l.freeze).symbolCoverage = l.freeze.symbolCoverage
  | .reopen => ∀ a, (onArbiter a).reopen = onLedger a.reopen
  | .reset _ => ∀ policies, onLedger (.empty policies) = .empty policies
  | .finding .. | .ingest .. => ∀ a, (onArbiter a).rule = a.rule
  | .coverage => ∀ a p, (onArbiter a).authoritativeCoverage p = a.authoritativeCoverage p

/-! ### Steps -/

/-- A computation goes in lockstep with another one if its parts do. -/
theorem bind_lockstep {ε α β γ δ : Type} {x : Except ε α} {y : Except ε β} {f : α → Except ε γ}
    {g : β → Except ε δ} {m : α → β} {n : γ → δ} (hfirst : y = x.map m)
    (hrest : ∀ z, g (m z) = (f z).map n) : y >>= g = (x >>= f).map n := by
  rw [hfirst]
  cases x with
  | error e => rfl
  | ok z => exact hrest z

theorem bind_lockstep_of_eq {ε α γ δ : Type} {x : Except ε α} {f : α → Except ε γ}
    {g : α → Except ε δ} {n : γ → δ} (hrest : ∀ z, g z = (f z).map n) :
    x >>= g = (x >>= f).map n := by
  cases x with
  | error e => rfl
  | ok z => exact hrest z

theorem orRefuse_map {α β : Type} (f : α → β) (x : Except Error α) :
    orRefuse (x.map f) = (orRefuse x).map f := by
  cases x <;> rfl

theorem requireLedger_mapEvidence (s : Session) :
    (s.mapEvidence onLedger onArbiter).requireLedger = s.requireLedger.map onLedger := by
  obtain ⟨run, phase, handles⟩ := s
  cases phase <;> rfl

theorem requireArbiter_mapEvidence (s : Session) :
    (s.mapEvidence onLedger onArbiter).requireArbiter = s.requireArbiter.map onArbiter := by
  obtain ⟨run, phase, handles⟩ := s
  cases phase <;> rfl

theorem recordPcTable_mapEvidence {span : Span} {f : Program.Function} {detail : PcTableDetail}
    (hledger : ∀ l, (onLedger l).recordPcTable span f detail =
      (l.recordPcTable span f detail).map (Prod.map id onLedger))
    (harbiter : ∀ a, (onArbiter a).recordPcTable span f detail =
      (a.recordPcTable span f detail).map (Prod.map id onArbiter)) (s : Session) :
    (s.mapEvidence onLedger onArbiter).recordPcTable span f detail =
      (s.recordPcTable span f detail).map (Prod.map id (mapEvidence onLedger onArbiter)) := by
  obtain ⟨run, phase, handles⟩ := s
  cases phase with
  | collecting l => exact bind_lockstep (hledger l) fun _ => rfl
  | arbitrating a => exact bind_lockstep (harbiter a) fun _ => rfl

theorem recordDebugInfo_mapEvidence {span : Span} {kind : ByteKind} {package : PackageId}
    {detail : DebugInfoDetail}
    (hledger : ∀ l, (onLedger l).recordDebugInfo span kind package detail =
      (l.recordDebugInfo span kind package detail).map (Prod.map id onLedger))
    (harbiter : ∀ a, (onArbiter a).recordDebugInfo span kind package detail =
      (a.recordDebugInfo span kind package detail).map (Prod.map id onArbiter)) (s : Session) :
    (s.mapEvidence onLedger onArbiter).recordDebugInfo span kind package detail =
      (s.recordDebugInfo span kind package detail).map
        (Prod.map id (mapEvidence onLedger onArbiter)) := by
  obtain ⟨run, phase, handles⟩ := s
  cases phase with
  | collecting l => exact bind_lockstep (hledger l) fun _ => rfl
  | arbitrating a => exact bind_lockstep (harbiter a) fun _ => rfl

/-- A batch leaves the evidence alone, and so commutes with its change. -/
theorem ingest_mapEvidence {a : Arbiter} (hrule : (onArbiter a).rule = a.rule) (s : Session)
    (batch : Batch) (config : Option IngestConfig) :
    (s.mapEvidence onLedger onArbiter).ingest (onArbiter a) batch config =
      Prod.map id (mapEvidence onLedger onArbiter) (s.ingest a batch config) := by
  unfold ingest
  rw [Program.ingest_congr hrule]
  rfl

/-- A step that overlooks the change is answered alike. -/
theorem attempt_mapEvidence (h : what.Overlooks onLedger onArbiter) (s : Session) :
    (s.mapEvidence onLedger onArbiter).attempt what =
      (s.attempt what).map (Prod.map id (mapEvidence onLedger onArbiter)) := by
  unfold attempt
  -- Each step is a chain of parts; `bind_lockstep` takes them one at a time.
  cases what with
  | addPackage name => rfl
  | addFunction name package kind receiver => exact bind_lockstep_of_eq fun _ => rfl
  | newProgram policy => rfl
  | pcTable span function detail =>
    refine bind_lockstep_of_eq (x := s.requireFunction function) fun f => ?_
    refine bind_lockstep (m := Prod.map id (mapEvidence onLedger onArbiter)) ?_ fun _ => rfl
    rw [recordPcTable_mapEvidence (h f).1 (h f).2, orRefuse_map]
  | symbol span kind package detail =>
    refine bind_lockstep (requireLedger_mapEvidence s) fun l => ?_
    refine bind_lockstep (m := Prod.map id onLedger) ?_ fun _ => rfl
    rw [h l, orRefuse_map]
  | attach number function =>
    refine bind_lockstep (requireLedger_mapEvidence s) fun l => ?_
    have hhandles : (s.mapEvidence onLedger onArbiter).handles = s.handles := rfl
    rw [hhandles]
    cases s.handles[number]? with
    | none => rfl
    | some handle =>
      refine bind_lockstep (m := onLedger) ?_ fun _ => rfl
      rw [h l handle, orRefuse_map]
  | debugInfo span kind package detail =>
    refine bind_lockstep (m := Prod.map id (mapEvidence onLedger onArbiter)) ?_ fun _ => rfl
    rw [recordDebugInfo_mapEvidence h.1 h.2, orRefuse_map]
  | freeze =>
    refine bind_lockstep (requireLedger_mapEvidence s) fun l => ?_
    dsimp only
    rw [(h l).1, (h l).2]
    rfl
  | reopen =>
    refine bind_lockstep (requireArbiter_mapEvidence s) fun a => ?_
    rw [h a]
    rfl
  | reset policies =>
    cases policies with
    | none =>
      show Except.ok (_, { s with phase := .collecting (.empty s.run.config.spaces) }) = _
      rw [← h s.run.config.spaces]
      rfl
    | some policies =>
      show Except.ok (_, { s with phase := .collecting (.empty policies) }) = _
      rw [← h policies]
      rfl
  | finding function finding =>
    refine bind_lockstep (requireArbiter_mapEvidence s) fun a => ?_
    refine bind_lockstep_of_eq (x := s.requireFunction function) fun f => ?_
    rw [h a]
    exact bind_lockstep_of_eq (x := orRefuse (a.rule f finding)) fun _ => rfl
  | ingest batch config =>
    refine bind_lockstep (requireArbiter_mapEvidence s) fun a => ?_
    rw [ingest_mapEvidence (h a)]
    exact bind_lockstep_of_eq (x := orRefuse (s.ingest a batch config).1) fun _ => rfl
  | coverage =>
    refine bind_lockstep (requireArbiter_mapEvidence s) fun a => ?_
    -- The program is no evidence, so both sessions ask about the same one.
    have hcoverage : s.run.coverage (onArbiter a) = s.run.coverage a := h a s.run.program
    have hrun : (s.mapEvidence onLedger onArbiter).run = s.run := rfl
    rw [hrun, hcoverage]
    exact bind_lockstep_of_eq (x := orRefuse (s.run.coverage a)) fun _ => rfl
  | setBuild build => rfl

/-- What a refused step leaves behind commutes with the change as well. -/
theorem afterRefusal_mapEvidence (h : what.Overlooks onLedger onArbiter) (s : Session) :
    (s.mapEvidence onLedger onArbiter).afterRefusal what =
      (s.afterRefusal what).mapEvidence onLedger onArbiter := by
  cases what with
  -- Of the refused steps only a batch leaves a trace.
  | ingest batch config =>
    unfold afterRefusal
    rw [requireArbiter_mapEvidence]
    cases s.requireArbiter with
    | error refusal => rfl
    | ok a => exact congrArg Prod.snd (ingest_mapEvidence (h a) s batch config)
  | _ => rfl

/-- **A step does not tell whether the change that it overlooks is made before or afterwards.** -/
theorem step_mapEvidence (h : what.Overlooks onLedger onArbiter) (s : Session) :
    (s.mapEvidence onLedger onArbiter).step what =
      Prod.map id (mapEvidence onLedger onArbiter) (s.step what) := by
  unfold step
  rw [attempt_mapEvidence h]
  cases s.attempt what with
  | ok answer => rfl
  | error refusal => exact congrArg _ (afterRefusal_mapEvidence h s)

/-! ### Runs -/

/-- The answers to the steps with that property, in order. -/
def answersTo (p : Step → Bool) (s : Session) (whats : List Step) : List (Except Refusal Reply) :=
  ((whats.zip (s.steps whats).1).filter (p ·.1)).map (·.2)

theorem answersTo_cons (p : Step → Bool) (s : Session) (what : Step) (rest : List Step) :
    s.answersTo p (what :: rest) = if p what
      then (s.step what).1 :: (s.step what).2.answersTo p rest
      else (s.step what).2.answersTo p rest := by
  show (((what, (s.step what).1) :: rest.zip ((s.step what).2.steps rest).1).filter
    (p ·.1)).map (·.2) = _
  rw [List.filter_cons]
  by_cases hp : p what = true
  · rw [if_pos hp, if_pos hp]
    rfl
  · rw [if_neg hp, if_neg hp]
    rfl

/-- **The changed session goes in lockstep with the session** through the steps that overlook the
change, if the change hides the effect of all others. -/
theorem steps_mapEvidence {p : Step → Bool}
    (hoverlooks : ∀ what : Step, p what → what.Overlooks onLedger onArbiter)
    (hhides : ∀ (s : Session) (what : Step), p what = false →
      (s.step what).2.mapEvidence onLedger onArbiter = s.mapEvidence onLedger onArbiter)
    (s : Session) (whats : List Step) :
    (s.mapEvidence onLedger onArbiter).steps (whats.filter p) =
      (s.answersTo p whats, (s.steps whats).2.mapEvidence onLedger onArbiter) := by
  -- At each step either both sessions move, or the first one alone, behind the change.
  induction whats generalizing s with
  | nil => rfl
  | cons what rest ih =>
    rw [answersTo_cons, List.filter_cons]
    by_cases hp : p what = true
    · rw [if_pos hp, if_pos hp, steps, step_mapEvidence (hoverlooks what hp)]
      show ((s.step what).1 :: (((s.step what).2.mapEvidence onLedger onArbiter).steps _).1,
        (((s.step what).2.mapEvidence onLedger onArbiter).steps _).2) = _
      rw [ih]
      rfl
    · rw [if_neg hp, if_neg hp, ← hhides s what (Bool.eq_false_iff.2 hp), ih]
      rfl

end Session

end ByteCensus
