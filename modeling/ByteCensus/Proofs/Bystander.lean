import Mathlib.Data.List.Permutation
import ByteCensus.Proofs.Lockstep

/-!
# Bystanders

What the symbol table says decides on findings.  The pc-table and debug information are
*bystanders* of that: debug information is not read by any other step, and the pc-table only where
all evidence is put together.

So the evidence of a bystander can be taken out of a session (`Session.without`), together with the
steps that record it or ask for it: what is left of the session takes the steps that are left in
lockstep with the whole session, with the same answers (`Session.steps_without`).

`Session.bystander_never_arbitrates` compares two runs that differ in such steps only.
-/

namespace ByteCensus

/-- A source of evidence that does not arbitrate. -/
inductive Bystander where
  | pcTable
  | debugInfo
deriving DecidableEq

variable {b : Bystander}

/-! ### Evidence without a bystander -/

namespace Ledger

/-- What the bystander says. -/
def said (l : Ledger) : Bystander → Store
  | .pcTable => l.pcTable
  | .debugInfo => l.debugInfo

/-- The ledger as if the bystander had said nothing. -/
def without (b : Bystander) (l : Ledger) : Ledger :=
  match b with
  | .pcTable => { l with pcTable := .empty l.pcTable.policy }
  | .debugInfo => { l with debugInfo := .empty l.debugInfo.policy }

/-- A bystander has no say in the symbol table. -/
theorem symbols_without (b : Bystander) (l : Ledger) : (l.without b).symbols = l.symbols := by
  cases b <;> rfl

/-- What the other bystander says stays. -/
theorem said_without {b' : Bystander} (hne : b' ≠ b) (l : Ledger) :
    (l.without b).said b' = l.said b' := by
  -- Of the four pairs two are of one bystander.
  cases b <;> cases b' <;> first | rfl | exact absurd rfl hne

/-- Recording a symbol does not read what a bystander says. -/
theorem recordSymbol_without (l : Ledger) (span : Span) (kind : ByteKind) (package : PackageId)
    (detail : SymbolDetail) :
    (l.without b).recordSymbol span kind package detail =
      (l.recordSymbol span kind package detail).map (Prod.map id (without b)) := by
  unfold recordSymbol
  rw [symbols_without]
  cases l.symbols.insert (.ofSymbol span kind package detail) with
  | error e => rfl
  | ok _ => cases b <;> rfl

theorem attach_without (l : Ledger) (handle : SymbolHandle) (id : FunctionId) :
    (l.without b).attach handle id = (l.attach handle id).map (without b) := by
  unfold attach
  rw [symbols_without]
  cases l.symbols.setFunction? handle.start id with
  | none => rfl
  | some _ => cases b <;> rfl

theorem recordPcTable_without (l : Ledger) (span : Span) (f : Program.Function)
    (detail : PcTableDetail) :
    (l.without .debugInfo).recordPcTable span f detail =
      (l.recordPcTable span f detail).map (Prod.map id (without .debugInfo)) := by
  unfold recordPcTable
  dsimp only [without]
  cases l.pcTable.insert (.ofPcTable span f.package f.id detail) <;> rfl

theorem recordDebugInfo_without (l : Ledger) (span : Span) (kind : ByteKind) (package : PackageId)
    (detail : DebugInfoDetail) :
    (l.without .pcTable).recordDebugInfo span kind package detail =
      (l.recordDebugInfo span kind package detail).map (Prod.map id (without .pcTable)) := by
  unfold recordDebugInfo
  dsimp only [without]
  cases l.debugInfo.insert (.ofDebugInfo span kind package detail) <;> rfl

/-- What is recorded in the pc-table is gone once that is taken out; only its policy is left. -/
theorem without_of_recordPcTable {l l' : Ledger} {span : Span} {f : Program.Function}
    {detail : PcTableDetail} {outcome : InsertOutcome}
    (h : l.recordPcTable span f detail = .ok (outcome, l')) :
    l'.without .pcTable = l.without .pcTable := by
  obtain ⟨pcTable, hinsert, rfl⟩ := insert_of_recordPcTable h
  show Ledger.mk (.empty pcTable.policy) _ _ = _
  rw [Store.policy_of_insert hinsert]
  rfl

theorem without_of_recordDebugInfo {l l' : Ledger} {span : Span} {kind : ByteKind}
    {package : PackageId} {detail : DebugInfoDetail} {outcome : InsertOutcome}
    (h : l.recordDebugInfo span kind package detail = .ok (outcome, l')) :
    l'.without .debugInfo = l.without .debugInfo := by
  obtain ⟨debugInfo, hinsert, rfl⟩ := insert_of_recordDebugInfo h
  show Ledger.mk _ _ (.empty debugInfo.policy) = _
  rw [Store.policy_of_insert hinsert]
  rfl

end Ledger

namespace Arbiter

/-- The arbiter as if the bystander had said nothing; the symbol table is the same. -/
def without (b : Bystander) (a : Arbiter) : Arbiter where
  ledger := a.ledger.without b
  symbolCoverage := a.symbolCoverage
  symbolCoverage_eq := by
    rw [Ledger.symbols_without]
    exact a.symbolCoverage_eq

/-- The coverage follows from the ledger. -/
theorem without_congr {a a' : Arbiter} (h : a'.ledger.without b = a.ledger.without b) :
    a'.without b = a.without b := by
  have hsymbols : a'.ledger.symbols = a.ledger.symbols := by
    rw [← Ledger.symbols_without b, h, Ledger.symbols_without]
  unfold without
  rw [Arbiter.mk.injEq]
  refine ⟨h, ?_⟩
  -- Both coverages are those of the same symbols.
  rw [a'.symbolCoverage_eq, hsymbols, ← a.symbolCoverage_eq]

theorem recordPcTable_without (a : Arbiter) (span : Span) (f : Program.Function)
    (detail : PcTableDetail) :
    (a.without .debugInfo).recordPcTable span f detail =
      (a.recordPcTable span f detail).map (Prod.map id (without .debugInfo)) := by
  unfold recordPcTable
  dsimp only [without, Ledger.without]
  cases a.ledger.pcTable.insert (.ofPcTable span f.package f.id detail) <;> rfl

theorem recordDebugInfo_without (a : Arbiter) (span : Span) (kind : ByteKind) (package : PackageId)
    (detail : DebugInfoDetail) :
    (a.without .pcTable).recordDebugInfo span kind package detail =
      (a.recordDebugInfo span kind package detail).map (Prod.map id (without .pcTable)) := by
  unfold recordDebugInfo
  dsimp only [without, Ledger.without]
  cases a.ledger.debugInfo.insert (.ofDebugInfo span kind package detail) <;> rfl

/-- Freezing reads the symbol table only. -/
theorem freeze_without (b : Bystander) (l : Ledger) :
    (l.without b).freeze = l.freeze.without b := by
  cases b <;> rfl

end Arbiter

namespace Phase

def without (b : Bystander) : Phase → Phase
  | collecting l => collecting (l.without b)
  | arbitrating a => arbitrating (a.without b)

theorem ledger_without (b : Bystander) (phase : Phase) :
    (phase.without b).ledger = phase.ledger.without b := by
  cases phase <;> rfl

theorem symbolCoverage?_without (b : Bystander) (phase : Phase) :
    (phase.without b).symbolCoverage? = phase.symbolCoverage? := by
  cases phase <;> rfl

end Phase

namespace Session

variable {s : Session} {what : Step}

/-- The session as if the bystander had said nothing. -/
def without (b : Bystander) (s : Session) : Session := { s with phase := s.phase.without b }

/-- The step neither records what the bystander says nor asks for it. -/
def Step.isBlindTo : Bystander → Step → Bool
  | .pcTable, .pcTable .. | .pcTable, .coverage => false
  | .debugInfo, .debugInfo .. => false
  | _, _ => true

theorem without_eq_mapEvidence (b : Bystander) (s : Session) :
    s.without b = s.mapEvidence (Ledger.without b) (Arbiter.without b) := by
  obtain ⟨run, phase, handles⟩ := s
  cases phase <;> rfl

/-- A blind step overlooks what the bystander says. -/
theorem Step.overlooks_of_isBlindTo (hblind : what.isBlindTo b) :
    what.Overlooks (Ledger.without b) (Arbiter.without b) := by
  -- Each step reads the symbol table, the other bystander or the program.
  cases what with
  | pcTable span id detail =>
    cases b with
    | pcTable => cases hblind
    | debugInfo => exact fun f => ⟨(·.recordPcTable_without _ f _), (·.recordPcTable_without _ f _)⟩
  | symbol span kind package detail => exact (·.recordSymbol_without span kind package detail)
  | attach number id => exact (·.attach_without · id)
  | debugInfo span kind package detail =>
    cases b with
    | pcTable => exact ⟨(·.recordDebugInfo_without ..), (·.recordDebugInfo_without ..)⟩
    | debugInfo => cases hblind
  | freeze => exact fun l => ⟨Arbiter.freeze_without b l, rfl⟩
  | reset policies => cases b <;> exact fun _ => rfl
  | coverage =>
    cases b with
    | pcTable => cases hblind
    | debugInfo => exact fun _ _ => rfl
  | addPackage | addFunction | newProgram | setBuild => trivial
  | reopen | finding | ingest => exact fun _ => rfl

/-! ### Other steps -/

/-- What is left of the session stays as it is in any other step. -/
theorem Effect.without_eq {t : Session} (h : Effect s what t) (hnot : what.isBlindTo b = false) :
    t.without b = s.without b := by
  -- In either phase it is enough to compare the ledgers.
  have hcollecting {l l' : Ledger} (hs : s.phase = .collecting l)
      (hl : l'.without b = l.without b) :
      ({ s with phase := .collecting l' } : Session).without b = s.without b := by
    unfold without Phase.without
    rw [hs]
    exact congrArg (fun l => Session.mk s.run (.collecting l) s.handles) hl
  have harbitrating {a a' : Arbiter} (hs : s.phase = .arbitrating a)
      (hl : a'.ledger.without b = a.ledger.without b) :
      ({ s with phase := .arbitrating a' } : Session).without b = s.without b := by
    unfold without Phase.without
    rw [hs]
    exact congrArg (fun a => Session.mk s.run (.arbitrating a) s.handles) (Arbiter.without_congr hl)
  -- Only the steps that record what the bystander says, or ask for the coverage, are not blind to
  -- it.
  cases h with
  | same => rfl
  | pcTable hs _ hrecord =>
    cases b with
    | debugInfo => cases hnot
    | pcTable => exact hcollecting hs (Ledger.without_of_recordPcTable hrecord)
  | latePcTable hs _ hrecord =>
    cases b with
    | debugInfo => cases hnot
    | pcTable =>
      have hledger := Arbiter.ledger_of_recordPcTable hrecord
      exact harbitrating hs (Ledger.without_of_recordPcTable hledger)
  | debugInfo hs hrecord =>
    cases b with
    | pcTable => cases hnot
    | debugInfo => exact hcollecting hs (Ledger.without_of_recordDebugInfo hrecord)
  | lateDebugInfo hs hrecord =>
    cases b with
    | pcTable => cases hnot
    | debugInfo =>
      have hledger := Arbiter.ledger_of_recordDebugInfo hrecord
      exact harbitrating hs (Ledger.without_of_recordDebugInfo hledger)
  | _ => cases b <;> cases hnot

/-! ### Runs -/

/-- **What is left of a session without the bystander goes in lockstep with it.**  It takes the
steps that are blind to the bystander, answers them as the session does, and comes to what is left
of the session in the end. -/
theorem steps_without (b : Bystander) (s : Session) (whats : List Step) :
    (s.without b).steps (whats.filter (·.isBlindTo b)) =
      (s.answersTo (·.isBlindTo b) whats, (s.steps whats).2.without b) := by
  rw [without_eq_mapEvidence, without_eq_mapEvidence]
  refine steps_mapEvidence (fun _ => Step.overlooks_of_isBlindTo) ?_ s whats
  intro s what hnot
  rw [← without_eq_mapEvidence, ← without_eq_mapEvidence]
  exact (effect_step s what).without_eq hnot

/-- **A bystander never arbitrates.**  Two runs begin with the same session, and take the same steps
apart from those that record what the bystander says or ask for it.

* All other steps are answered alike, refusals included.
* In the end the runs have the same program, with all findings, the same symbols and symbol
  coverage, and the same evidence from the other bystander.

For debug information the other steps are all steps but those that record it; for the pc-table
they are all but those that record in it or ask for the final coverage. -/
theorem bystander_never_arbitrates (b : Bystander) (s : Session) (whats whats' : List Step)
    (hsame : whats.filter (·.isBlindTo b) = whats'.filter (·.isBlindTo b)) :
    let t := (s.steps whats).2
    let t' := (s.steps whats').2
    s.answersTo (·.isBlindTo b) whats = s.answersTo (·.isBlindTo b) whats' ∧
    t.run = t'.run ∧ t.handles = t'.handles ∧
    t.phase.symbolCoverage? = t'.phase.symbolCoverage? ∧
    t.phase.ledger.symbols = t'.phase.ledger.symbols ∧
    ∀ other, other ≠ b → t.phase.ledger.said other = t'.phase.ledger.said other := by
  intro t t'
  -- Both runs leave the same session behind when the bystander is taken out.
  have hleft := steps_without b s whats
  rw [hsame, steps_without b s whats', Prod.mk.injEq] at hleft
  obtain ⟨hanswers, hwithout⟩ := hleft
  have hphase : t'.phase.without b = t.phase.without b := congrArg Session.phase hwithout
  have hledger : t'.phase.ledger.without b = t.phase.ledger.without b := by
    rw [← Phase.ledger_without, hphase, Phase.ledger_without]
  -- Taking it out touches none of what is compared here.
  refine ⟨hanswers.symm, (congrArg Session.run hwithout).symm,
    (congrArg Session.handles hwithout).symm, ?_, ?_, ?_⟩
  · rw [← Phase.symbolCoverage?_without b, ← hphase, Phase.symbolCoverage?_without]
  · rw [← Ledger.symbols_without b, ← hledger, Ledger.symbols_without]
  · intro other hother
    rw [← Ledger.said_without hother, ← hledger, Ledger.said_without hother]

/-- Of two findings one is in conflict with a symbol and the other is stored.  Neither the pc-table
nor debug information, each at odds with the symbol table and the findings, makes a difference. -/
theorem bystander_never_arbitrates_on_findings :
    let s := Session.start (.start 4096 none default)
    let before : List Step := [.addPackage "p", .addFunction "f" ⟨0⟩ .function "",
      .symbol ⟨32, 16⟩ .text ⟨0⟩ ⟨"code"⟩]
    let after : List Step :=
      [.freeze, .finding ⟨0⟩ ⟨⟨40, 4⟩, default⟩, .finding ⟨0⟩ ⟨⟨64, 8⟩, default⟩]
    let plain := before ++ after
    let listed := before ++ .pcTable ⟨64, 8⟩ ⟨0⟩ ⟨"f", "p", "", none⟩ :: after ++ [.coverage]
    let informed := before ++ after ++ [.debugInfo ⟨32, 16⟩ .data ⟨0⟩ ⟨"table", none⟩]
    (s.steps plain).2.run.program.functions.map (·.findings.entries.length) = [1] ∧
    (plain.filter (·.isBlindTo .pcTable) = listed.filter (·.isBlindTo .pcTable) ∧
      (s.steps plain).2.phase.ledger.pcTable ≠ (s.steps listed).2.phase.ledger.pcTable ∧
      (s.steps plain).2.run = (s.steps listed).2.run) ∧
    plain.filter (·.isBlindTo .debugInfo) = informed.filter (·.isBlindTo .debugInfo) ∧
      (s.steps plain).2.phase.ledger.debugInfo ≠ (s.steps informed).2.phase.ledger.debugInfo ∧
      (s.steps plain).2.run = (s.steps informed).2.run := by
  intro s before after plain listed informed
  have hlisted : plain.filter (·.isBlindTo .pcTable) = listed.filter (·.isBlindTo .pcTable) := rfl
  have hinformed :
      plain.filter (·.isBlindTo .debugInfo) = informed.filter (·.isBlindTo .debugInfo) := rfl
  obtain ⟨-, hrun, -⟩ := bystander_never_arbitrates .pcTable s plain listed hlisted
  obtain ⟨-, hrun', -⟩ := bystander_never_arbitrates .debugInfo s plain informed hinformed
  refine ⟨?_, ⟨hlisted, ?_, hrun⟩, hinformed, ?_, hrun'⟩
  · unfold plain before after s
    decide_cbv
  · unfold plain listed before after s
    decide_cbv
  · unfold plain informed before after s
    decide_cbv

end Session

end ByteCensus
