import ByteCensus.Session

/-!
# What a step makes of a session

`Effect` lists all that a step can make of a session, and `effect_step` says that there is nothing
else, whether the step is answered or refused.  A theorem about sessions goes through the effects
and need not open `Session.attempt`.

What recording and attaching make of a ledger is told by `Ledger.insert_of_recordPcTable` and its
siblings, and `Ledger.attach_eq_ok_iff`.

The first theorem about effects is about the phase: once the symbol table is frozen it stays as it
is, until a step leads back to collecting evidence (`Effect.phase_of_staysFrozen`).

What every effect keeps, every run keeps: `steps_induction`.
-/

namespace ByteCensus

namespace Ledger

variable {l l' : Ledger} {span : Span} {package : PackageId} {outcome : InsertOutcome}

/-- Recording inserts into one store, and leaves the others. -/
theorem insert_of_recordPcTable {f : Program.Function} {detail : PcTableDetail}
    (h : l.recordPcTable span f detail = .ok (outcome, l')) :
    ∃ pcTable, l.pcTable.insert (.ofPcTable span f.package f.id detail) = .ok (outcome, pcTable) ∧
      l' = { l with pcTable } := by
  unfold recordPcTable at h
  split at h
  · next pcTable hinsert =>
    cases h
    exact ⟨pcTable, hinsert, rfl⟩
  · cases h

theorem insert_of_recordSymbol {kind : ByteKind} {detail : SymbolDetail} {handle : SymbolHandle}
    (h : l.recordSymbol span kind package detail = .ok (handle, l')) :
    ∃ outcome symbols,
      l.symbols.insert (.ofSymbol span kind package detail) = .ok (outcome, symbols) ∧
      handle = ⟨span.start⟩ ∧ l' = { l with symbols } := by
  unfold recordSymbol at h
  split at h
  · next outcome symbols hinsert =>
    cases h
    exact ⟨outcome, symbols, hinsert, rfl, rfl⟩
  · cases h

theorem insert_of_recordDebugInfo {kind : ByteKind} {detail : DebugInfoDetail}
    (h : l.recordDebugInfo span kind package detail = .ok (outcome, l')) :
    ∃ debugInfo,
      l.debugInfo.insert (.ofDebugInfo span kind package detail) = .ok (outcome, debugInfo) ∧
      l' = { l with debugInfo } := by
  unfold recordDebugInfo at h
  split at h
  · next debugInfo hinsert =>
    cases h
    exact ⟨debugInfo, hinsert, rfl⟩
  · cases h

/-- An attachment changes the owner of one entry, and nothing else. -/
theorem attach_eq_ok_iff {handle : SymbolHandle} {id : FunctionId} :
    l.attach handle id = .ok l' ↔
      ∃ e, l.symbols.get? handle.start = some e ∧
        l' = { l with symbols := l.symbols.put { e with function := some id } } := by
  unfold attach
  constructor
  · intro h
    split at h
    · next symbols hset =>
      cases h
      obtain ⟨e, hget, rfl⟩ := Option.map_eq_some_iff.1 hset
      exact ⟨e, hget, rfl⟩
    · cases h
  · rintro ⟨e, hget, rfl⟩
    rw [Store.setFunction?, hget]
    rfl

end Ledger

namespace Arbiter

variable {a a' : Arbiter} {outcome : InsertOutcome}

theorem ledger_of_recordPcTable {span : Span} {f : Program.Function}
    {detail : PcTableDetail}
    (h : a.recordPcTable span f detail = .ok (outcome, a')) :
    a.ledger.recordPcTable span f detail = .ok (outcome, a'.ledger) := by
  unfold recordPcTable at h
  unfold Ledger.recordPcTable
  cases hinsert : a.ledger.pcTable.insert (.ofPcTable span f.package f.id detail) with
  | error e =>
    rw [hinsert] at h
    cases h
  | ok accepted =>
    rw [hinsert] at h
    cases h
    rfl

theorem ledger_of_recordDebugInfo {span : Span} {kind : ByteKind}
    {package : PackageId} {detail : DebugInfoDetail}
    (h : a.recordDebugInfo span kind package detail = .ok (outcome, a')) :
    a.ledger.recordDebugInfo span kind package detail = .ok (outcome, a'.ledger) := by
  unfold recordDebugInfo at h
  unfold Ledger.recordDebugInfo
  cases hinsert : a.ledger.debugInfo.insert (.ofDebugInfo span kind package detail) with
  | error e =>
    rw [hinsert] at h
    cases h
  | ok accepted =>
    rw [hinsert] at h
    cases h
    rfl

theorem symbols_of_recordPcTable {span : Span} {f : Program.Function} {detail : PcTableDetail}
    (h : a.recordPcTable span f detail = .ok (outcome, a')) :
    a'.ledger.symbols = a.ledger.symbols := by
  obtain ⟨_, -, hledger⟩ := Ledger.insert_of_recordPcTable (ledger_of_recordPcTable h)
  rw [hledger]

theorem symbols_of_recordDebugInfo {span : Span} {kind : ByteKind} {package : PackageId}
    {detail : DebugInfoDetail}
    (h : a.recordDebugInfo span kind package detail = .ok (outcome, a')) :
    a'.ledger.symbols = a.ledger.symbols := by
  obtain ⟨_, -, hledger⟩ := Ledger.insert_of_recordDebugInfo (ledger_of_recordDebugInfo h)
  rw [hledger]

end Arbiter

namespace Session

variable {s t : Session} {what : Step} {reply : Reply} {a : Arbiter} {l : Ledger}

/-! ### Parts of an answered step -/

theorem bind_eq_ok {ε α β : Type} {x : Except ε α} {next : α → Except ε β} {answer : β}
    (h : x >>= next = .ok answer) : ∃ y, x = .ok y ∧ next y = .ok answer := by
  cases x with
  | error e => cases h
  | ok y => exact ⟨y, rfl, h⟩

theorem phase_of_requireArbiter (h : s.requireArbiter = .ok a) : s.phase = .arbitrating a := by
  unfold requireArbiter at h
  split at h
  · cases h
  · next hphase =>
    cases h
    exact hphase

theorem phase_of_requireLedger (h : s.requireLedger = .ok l) : s.phase = .collecting l := by
  unfold requireLedger at h
  split at h
  · next hphase =>
    cases h
    exact hphase
  · cases h

theorem function?_of_requireFunction {id : FunctionId} {f : Program.Function}
    (h : s.requireFunction id = .ok f) : s.run.program.function? id = some f := by
  unfold requireFunction at h
  split at h
  · next hf =>
    cases h
    exact hf
  · cases h

theorem eq_ok_of_orRefuse {α : Type} {x : Except Error α} {answer : α}
    (h : orRefuse x = .ok answer) : x = .ok answer := by
  cases x with
  | error e => cases h
  | ok y =>
    cases h
    rfl

/-! ### Effects -/

/-- What a step can make of the session `s`. -/
inductive Effect (s : Session) : Step → Session → Prop
  /-- The step was refused, or only asks. -/
  | same (what : Step) : Effect s what s
  | package (name : String) :
      Effect s (.addPackage name) (s.withProgram (s.run.program.addPackage name).2)
  | function {name : String} {package : PackageId} {kind : FunctionKind} {receiver : String}
      {id : FunctionId} {p : Program}
      (h : s.run.program.addFunction name package kind receiver = .ok (id, p)) :
      Effect s (.addFunction name package kind receiver) (s.withProgram p)
  | newProgram (policy : DuplicatePolicy) :
      Effect s (.newProgram policy) (s.withProgram (.empty policy))
  | pcTable {l l' : Ledger} {span : Span} {id : FunctionId} {f : Program.Function}
      {detail : PcTableDetail} {outcome : InsertOutcome} (hphase : s.phase = .collecting l)
      (hf : s.run.program.function? id = some f)
      (h : l.recordPcTable span f detail = .ok (outcome, l')) :
      Effect s (.pcTable span id detail) { s with phase := .collecting l' }
  | latePcTable {a a' : Arbiter} {span : Span} {id : FunctionId} {f : Program.Function}
      {detail : PcTableDetail} {outcome : InsertOutcome} (hphase : s.phase = .arbitrating a)
      (hf : s.run.program.function? id = some f)
      (h : a.recordPcTable span f detail = .ok (outcome, a')) :
      Effect s (.pcTable span id detail) { s with phase := .arbitrating a' }
  | symbol {l l' : Ledger} {span : Span} {kind : ByteKind} {package : PackageId}
      {detail : SymbolDetail} {handle : SymbolHandle} (hphase : s.phase = .collecting l)
      (h : l.recordSymbol span kind package detail = .ok (handle, l')) :
      Effect s (.symbol span kind package detail)
        { s with phase := .collecting l', handles := s.handles ++ [handle] }
  | attach {l l' : Ledger} {number : Nat} {handle : SymbolHandle} {id : FunctionId}
      (hphase : s.phase = .collecting l) (hhandle : s.handles[number]? = some handle)
      (h : l.attach handle id = .ok l') :
      Effect s (.attach number id) { s with phase := .collecting l' }
  | debugInfo {l l' : Ledger} {span : Span} {kind : ByteKind} {package : PackageId}
      {detail : DebugInfoDetail} {outcome : InsertOutcome} (hphase : s.phase = .collecting l)
      (h : l.recordDebugInfo span kind package detail = .ok (outcome, l')) :
      Effect s (.debugInfo span kind package detail) { s with phase := .collecting l' }
  | lateDebugInfo {a a' : Arbiter} {span : Span} {kind : ByteKind} {package : PackageId}
      {detail : DebugInfoDetail} {outcome : InsertOutcome} (hphase : s.phase = .arbitrating a)
      (h : a.recordDebugInfo span kind package detail = .ok (outcome, a')) :
      Effect s (.debugInfo span kind package detail) { s with phase := .arbitrating a' }
  | freeze {l : Ledger} (hphase : s.phase = .collecting l) :
      Effect s .freeze { s with phase := .arbitrating l.freeze }
  | reopen {a : Arbiter} (hphase : s.phase = .arbitrating a) :
      Effect s .reopen { s with phase := .collecting a.reopen }
  | reset (policies : Option SpacePolicies) :
      Effect s (.reset policies)
        { s with phase := .collecting (policies.elim s.run.newLedger .empty) }
  | finding {a : Arbiter} {id : FunctionId} {f g : Program.Function} {finding : Finding}
      {ruling : Ruling} (hphase : s.phase = .arbitrating a)
      (hf : s.run.program.function? id = some f) (hrule : a.rule f finding = .ok (ruling, g)) :
      Effect s (.finding id finding) (s.withProgram (s.run.program.setFunction id g))
  /-- A batch, with or without an error. -/
  | ingest {a : Arbiter} (b : Batch) (config : Option IngestConfig)
      (hphase : s.phase = .arbitrating a) : Effect s (.ingest b config) (s.ingest a b config).2
  | setBuild (build : Option BuildInfo) :
      Effect s (.setBuild build) { s with run := s.run.setBuild build }

theorem effect_recordPcTable {span : Span} {id : FunctionId} {f : Program.Function}
    {detail : PcTableDetail} {outcome : InsertOutcome} (hf : s.run.program.function? id = some f)
    (h : s.recordPcTable span f detail = .ok (outcome, t)) :
    Effect s (.pcTable span id detail) t := by
  unfold recordPcTable at h
  split at h
  · next hphase =>
    obtain ⟨_, hrecord, h⟩ := bind_eq_ok h
    cases h
    exact .pcTable hphase hf hrecord
  · next hphase =>
    obtain ⟨_, hrecord, h⟩ := bind_eq_ok h
    cases h
    exact .latePcTable hphase hf hrecord

theorem effect_recordDebugInfo {span : Span} {kind : ByteKind} {package : PackageId}
    {detail : DebugInfoDetail} {outcome : InsertOutcome}
    (h : s.recordDebugInfo span kind package detail = .ok (outcome, t)) :
    Effect s (.debugInfo span kind package detail) t := by
  unfold recordDebugInfo at h
  split at h
  · next hphase =>
    obtain ⟨_, hrecord, h⟩ := bind_eq_ok h
    cases h
    exact .debugInfo hphase hrecord
  · next hphase =>
    obtain ⟨_, hrecord, h⟩ := bind_eq_ok h
    cases h
    exact .lateDebugInfo hphase hrecord

theorem effect_attempt (h : s.attempt what = .ok (reply, t)) : Effect s what t := by
  -- Step by step, what was required of the session is taken out of the answer.
  unfold attempt at h
  cases what with
  | addPackage name =>
    cases h
    exact .package name
  | addFunction name package kind receiver =>
    obtain ⟨_, hadd, h⟩ := bind_eq_ok h
    cases h
    exact .function (eq_ok_of_orRefuse hadd)
  | newProgram policy =>
    cases h
    exact .newProgram policy
  | pcTable span function detail =>
    obtain ⟨_, hf, h⟩ := bind_eq_ok h
    obtain ⟨_, hrecord, h⟩ := bind_eq_ok h
    cases h
    exact effect_recordPcTable (function?_of_requireFunction hf) (eq_ok_of_orRefuse hrecord)
  | symbol span kind package detail =>
    obtain ⟨_, hledger, h⟩ := bind_eq_ok h
    obtain ⟨_, hrecord, h⟩ := bind_eq_ok h
    cases h
    exact .symbol (phase_of_requireLedger hledger) (eq_ok_of_orRefuse hrecord)
  | attach number function =>
    obtain ⟨_, hledger, h⟩ := bind_eq_ok h
    split at h
    · cases h
    · next hhandle =>
      obtain ⟨_, hattach, h⟩ := bind_eq_ok h
      cases h
      exact .attach (phase_of_requireLedger hledger) hhandle (eq_ok_of_orRefuse hattach)
  | debugInfo span kind package detail =>
    obtain ⟨_, hrecord, h⟩ := bind_eq_ok h
    cases h
    exact effect_recordDebugInfo (eq_ok_of_orRefuse hrecord)
  | freeze =>
    obtain ⟨_, hledger, h⟩ := bind_eq_ok h
    cases h
    exact .freeze (phase_of_requireLedger hledger)
  | reopen =>
    obtain ⟨_, harbiter, h⟩ := bind_eq_ok h
    cases h
    exact .reopen (phase_of_requireArbiter harbiter)
  | reset policies =>
    cases policies with
    | none =>
      cases h
      exact .reset none
    | some policies =>
      cases h
      exact .reset (some policies)
  | finding function finding =>
    obtain ⟨_, harbiter, h⟩ := bind_eq_ok h
    obtain ⟨_, hf, h⟩ := bind_eq_ok h
    obtain ⟨_, hrule, h⟩ := bind_eq_ok h
    cases h
    exact .finding (phase_of_requireArbiter harbiter) (function?_of_requireFunction hf)
      (eq_ok_of_orRefuse hrule)
  | ingest batch config =>
    obtain ⟨_, harbiter, h⟩ := bind_eq_ok h
    obtain ⟨_, -, h⟩ := bind_eq_ok h
    cases h
    exact .ingest batch config (phase_of_requireArbiter harbiter)
  | coverage =>
    obtain ⟨_, -, h⟩ := bind_eq_ok h
    obtain ⟨_, -, h⟩ := bind_eq_ok h
    cases h
    exact .same _
  | setBuild build =>
    cases h
    exact .setBuild build

/-- A refused batch may have stored some of its findings; other refusals leave no trace. -/
theorem effect_afterRefusal (s : Session) (what : Step) : Effect s what (s.afterRefusal what) := by
  cases what with
  | ingest batch config =>
    unfold afterRefusal
    dsimp only
    cases harbiter : s.requireArbiter with
    | error refusal => exact .same _
    | ok a => exact .ingest batch config (phase_of_requireArbiter harbiter)
  | _ => exact .same _

/-- **Every step has one of the effects**, answered or refused. -/
theorem effect_step (s : Session) (what : Step) : Effect s what (s.step what).2 := by
  unfold step
  cases hattempt : s.attempt what with
  | ok answer => exact effect_attempt hattempt
  | error refusal => exact effect_afterRefusal s what

/-! ### The symbol table during arbitration -/

/-- The step does not lead back from arbitration to collecting evidence. -/
def Step.staysFrozen : Step → Bool
  | .reopen | .reset _ => false
  | _ => true

/-- **A frozen symbol table stays frozen and as it is**, until a step leads back. -/
theorem Effect.phase_of_staysFrozen (h : Effect s what t) (hstays : what.staysFrozen)
    (hphase : s.phase = .arbitrating a) :
    ∃ a', t.phase = .arbitrating a' ∧ a'.ledger.symbols = a.ledger.symbols := by
  have hnot {l : Ledger} : s.phase ≠ .collecting l := by
    rw [hphase]
    intro h
    cases h
  have hsame {a' : Arbiter} (h' : s.phase = .arbitrating a') : a' = a :=
    Phase.arbitrating.inj (h'.symm.trans hphase)
  cases h with
  | reopen => cases hstays
  | reset => cases hstays
  | latePcTable hphase' _ hrecord =>
    rw [hsame hphase'] at hrecord
    exact ⟨_, rfl, Arbiter.symbols_of_recordPcTable hrecord⟩
  | lateDebugInfo hphase' hrecord =>
    rw [hsame hphase'] at hrecord
    exact ⟨_, rfl, Arbiter.symbols_of_recordDebugInfo hrecord⟩
  -- The remaining effects on evidence are those of the other phase.
  | pcTable hcollecting => exact absurd hcollecting hnot
  | debugInfo hcollecting => exact absurd hcollecting hnot
  | symbol hcollecting => exact absurd hcollecting hnot
  | attach hcollecting => exact absurd hcollecting hnot
  | freeze hcollecting => exact absurd hcollecting hnot
  | _ => exact ⟨a, hphase, rfl⟩

/-! ### Runs -/

theorem steps_append (s : Session) (before after : List Step) :
    (s.steps (before ++ after)).2 = ((s.steps before).2.steps after).2 := by
  induction before generalizing s with
  | nil => rfl
  | cons what rest ih => exact ih (s.step what).2

/-- Each step is answered after the steps before it. -/
theorem exists_of_mem_zip {whats : List Step} {answer : Except Refusal Reply}
    (h : (what, answer) ∈ whats.zip (s.steps whats).1) :
    ∃ before after, whats = before ++ what :: after ∧
      ((s.steps before).2.step what).1 = answer := by
  induction whats generalizing s with
  | nil => cases h
  | cons first rest ih =>
    rcases List.mem_cons.1 h with h | h
    · cases h
      exact ⟨[], rest, rfl, rfl⟩
    · obtain ⟨before, after, rfl, hanswer⟩ := ih h
      exact ⟨first :: before, after, rfl, hanswer⟩

/-- What every effect keeps, every run keeps. -/
theorem steps_induction {P : Session → Prop} {allowed : Step → Prop}
    (hstep : ∀ s what t, Effect s what t → allowed what → P s → P t) {whats : List Step}
    (hallowed : ∀ what ∈ whats, allowed what) (hs : P s) : P (s.steps whats).2 := by
  induction whats generalizing s with
  | nil => exact hs
  | cons what rest ih =>
    obtain ⟨hfirst, hrest⟩ := List.forall_mem_cons.1 hallowed
    exact ih hrest (hstep s what _ (effect_step s what) hfirst hs)

theorem phase_of_steps {whats : List Step} (hstays : ∀ what ∈ whats, what.staysFrozen)
    (hphase : s.phase = .arbitrating a) :
    ∃ a', (s.steps whats).2.phase = .arbitrating a' ∧ a'.ledger.symbols = a.ledger.symbols := by
  apply steps_induction
    (P := fun t => ∃ a', t.phase = .arbitrating a' ∧ a'.ledger.symbols = a.ledger.symbols) _
    hstays ⟨a, hphase, rfl⟩
  rintro t what u heffect hwhat ⟨a', hphase', hsymbols⟩
  obtain ⟨a'', hphase'', hsymbols'⟩ := heffect.phase_of_staysFrozen hwhat hphase'
  exact ⟨a'', hphase'', hsymbols'.trans hsymbols⟩

end Session

end ByteCensus
