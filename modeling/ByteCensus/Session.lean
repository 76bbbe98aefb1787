import ByteCensus.Run

/-!
# Sessions

A session is a run with its evidence, changed one `Step` at a time.  The evidence is collected
first; once the symbol table is frozen, findings are arbitrated; and so on, back and forth.

`Session.step` answers a step and returns the session after it.  A step that is refused changes
nothing, with one exception: a batch of findings that ends in an error leaves what was stored
before the error.
-/

namespace ByteCensus

/-- The evidence of a session. -/
inductive Phase where
  /-- It is being collected. -/
  | collecting (ledger : Ledger)
  | arbitrating (arbiter : Arbiter)

/-- The evidence collected, in either phase. -/
def Phase.ledger : Phase → Ledger
  | collecting l => l
  | arbitrating a => a.ledger

/-- A run, its evidence and the handles of the symbols recorded. -/
structure Session where
  run : Run
  phase : Phase
  /-- All handles handed out, in order. -/
  handles : List SymbolHandle

namespace Session

/-- Something that happens in a session. -/
inductive Step where
  | addPackage (name : String)
  | addFunction (name : String) (package : PackageId) (kind : FunctionKind) (receiver : String)
  /-- An empty program takes the place of the program. -/
  | newProgram (policy : DuplicatePolicy)
  | pcTable (span : Span) (function : FunctionId) (detail : PcTableDetail)
  | symbol (span : Span) (kind : ByteKind) (package : PackageId) (detail : SymbolDetail)
  /-- A symbol, by the number of its handle, is attached to a function. -/
  | attach (handle : Nat) (function : FunctionId)
  | debugInfo (span : Span) (kind : ByteKind) (package : PackageId) (detail : DebugInfoDetail)
  | freeze
  | reopen
  /-- A ledger without evidence takes the place of the evidence, with these policies or those of
  the run. -/
  | reset (policies : Option SpacePolicies)
  | finding (function : FunctionId) (finding : Finding)
  /-- Disassembly found a batch, to be taken in as configured here or in the run. -/
  | ingest (batch : Batch) (config : Option IngestConfig)
  | coverage
  | setBuild (build : Option BuildInfo)

/-- The answer to a step. -/
inductive Reply where
  /-- The step has no answer of its own. -/
  | done
  | package (id : PackageId)
  | function (id : FunctionId)
  | outcome (outcome : InsertOutcome)
  /-- A symbol was recorded; its handle has this number. -/
  | handle (number : Nat) (handle : SymbolHandle)
  | attached
  | ruling (ruling : Ruling)
  | tally (tally : Tally)
  | coverage (coverage : Coverage)
  | flags (flags : Flags)

/-- Why a step was refused. -/
inductive Refusal where
  | error (error : Error)
  /-- The program has no such function, and the step needs it. -/
  | noFunction (function : FunctionId)
  /-- No handle has that number. -/
  | noHandle (number : Nat)
  /-- The step belongs to the other phase. -/
  | wrongPhase

/-- A session with nothing recorded. -/
def start (run : Run) : Session := ⟨run, .collecting run.newLedger, []⟩

/-! ### Parts of a session -/

/-- The function with that handle, which must exist. -/
def requireFunction (s : Session) (id : FunctionId) : Except Refusal Program.Function :=
  match s.run.program.function? id with
  | some f => .ok f
  | none => .error (.noFunction id)

/-- The ledger, which must be open. -/
def requireLedger (s : Session) : Except Refusal Ledger :=
  match s.phase with
  | .collecting l => .ok l
  | .arbitrating _ => .error .wrongPhase

/-- The arbiter, for which the symbol table must be frozen. -/
def requireArbiter (s : Session) : Except Refusal Arbiter :=
  match s.phase with
  | .collecting _ => .error .wrongPhase
  | .arbitrating a => .ok a

def withProgram (s : Session) (program : Program) : Session :=
  { s with run := { s.run with program } }

/-- An error refuses the step. -/
def orRefuse {α : Type} : Except Error α → Except Refusal α
  | .ok a => .ok a
  | .error e => .error (.error e)

/-! ### Steps -/

/-- Records the extent of a function in either phase. -/
def recordPcTable (s : Session) (span : Span) (f : Program.Function) (detail : PcTableDetail) :
    Except Error (InsertOutcome × Session) :=
  match s.phase with
  | .collecting l => do
    let (outcome, l) ← l.recordPcTable span f detail
    return (outcome, { s with phase := .collecting l })
  | .arbitrating a => do
    let (outcome, a) ← a.recordPcTable span f detail
    return (outcome, { s with phase := .arbitrating a })

/-- Records advisory evidence in either phase. -/
def recordDebugInfo (s : Session) (span : Span) (kind : ByteKind) (package : PackageId)
    (detail : DebugInfoDetail) : Except Error (InsertOutcome × Session) :=
  match s.phase with
  | .collecting l => do
    let (outcome, l) ← l.recordDebugInfo span kind package detail
    return (outcome, { s with phase := .collecting l })
  | .arbitrating a => do
    let (outcome, a) ← a.recordDebugInfo span kind package detail
    return (outcome, { s with phase := .arbitrating a })

/-- Takes in a batch as configured here, or else in the run. -/
def ingest (s : Session) (a : Arbiter) (batch : Batch) (config : Option IngestConfig) :
    Except Error Tally × Session :=
  let (answer, program) := s.run.program.ingest a (config.getD s.run.config.ingest) batch
  (answer, s.withProgram program)

/-- The answer to a step that changes nothing where it is refused, and the session after it. -/
def attempt (s : Session) : Step → Except Refusal (Reply × Session)
  | .addPackage name =>
    let (id, program) := s.run.program.addPackage name
    return (.package id, s.withProgram program)
  | .addFunction name package kind receiver => do
    let (id, program) ← orRefuse (s.run.program.addFunction name package kind receiver)
    return (.function id, s.withProgram program)
  | .newProgram policy => return (.done, s.withProgram (.empty policy))
  | .pcTable span function detail => do
    let f ← s.requireFunction function
    let (outcome, s) ← orRefuse (s.recordPcTable span f detail)
    return (.outcome outcome, s)
  | .symbol span kind package detail => do
    let l ← s.requireLedger
    let (handle, l) ← orRefuse (l.recordSymbol span kind package detail)
    return (.handle s.handles.length handle,
      { s with phase := .collecting l, handles := s.handles ++ [handle] })
  | .attach number function => do
    let l ← s.requireLedger
    match s.handles[number]? with
    | none => throw (.noHandle number)
    | some handle =>
      let l ← orRefuse (l.attach handle function)
      return (.attached, { s with phase := .collecting l })
  | .debugInfo span kind package detail => do
    let (outcome, s) ← orRefuse (s.recordDebugInfo span kind package detail)
    return (.outcome outcome, s)
  | .freeze => do
    let a := (← s.requireLedger).freeze
    return (.coverage a.symbolCoverage, { s with phase := .arbitrating a })
  | .reopen => do
    let a ← s.requireArbiter
    return (.done, { s with phase := .collecting a.reopen })
  | .reset policies =>
    let l := match policies with
      | some policies => Ledger.empty policies
      | none => s.run.newLedger
    return (.done, { s with phase := .collecting l })
  | .finding function finding => do
    let a ← s.requireArbiter
    let f ← s.requireFunction function
    let (ruling, f) ← orRefuse (a.rule f finding)
    return (.ruling ruling, s.withProgram (s.run.program.setFunction function f))
  | .ingest batch config => do
    let a ← s.requireArbiter
    -- What an erroneous batch has stored is not lost: see `afterRefusal`.
    let (answer, s) := s.ingest a batch config
    return (.tally (← orRefuse answer), s)
  | .coverage => do
    let a ← s.requireArbiter
    return (.coverage (← orRefuse (s.run.coverage a)), s)
  | .setBuild build =>
    let run := s.run.setBuild build
    return (.flags run.flags, { s with run })

/-- The session after a step that was refused: only a batch leaves anything behind. -/
def afterRefusal (s : Session) : Step → Session
  | .ingest batch config =>
    match s.requireArbiter with
    | .ok a => (s.ingest a batch config).2
    | .error _ => s
  | _ => s

/-- Answers a step, and returns the session after it. -/
def step (s : Session) (what : Step) : Except Refusal Reply × Session :=
  match s.attempt what with
  | .ok (reply, s) => (.ok reply, s)
  | .error refusal => (.error refusal, s.afterRefusal what)

/-- Answers steps one after the other, and returns the session after the last. -/
def steps (s : Session) : List Step → List (Except Refusal Reply) × Session
  | [] => ([], s)
  | what :: rest =>
    let (answer, s) := s.step what
    let (answers, s) := s.steps rest
    (answer :: answers, s)

end Session

end ByteCensus
