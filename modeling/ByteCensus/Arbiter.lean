import ByteCensus.Coverage.Merge
import ByteCensus.Ledger

/-!
# Arbitration

Disassembling a function finds data between its instructions.  Whether a finding counts is up to
the symbol table, which wins wherever it says anything about the same bytes.

An arbiter is a ledger whose symbol table is frozen: no symbol can be added, and the coverage of
the symbols is at hand.  That the coverage is the one of these very symbols is part of the type,
so a finding never meets a coverage that is missing or out of date.  `Ledger.freeze` makes an
arbiter, `Arbiter.reopen` gives the ledger back.

`Arbiter.rule` decides on one finding of one function:

* the symbol table says nothing about its bytes: the function's store takes it, or refuses it as
  a duplicate;
* it says data about some of them and nothing else about any: the finding is shadowed, and nothing
  is stored, not even the bytes of the finding that no symbol covers;
* it says anything else about some of them: that is a conflict.
-/

namespace ByteCensus

/-- Data found in the body of a function. -/
structure Finding where
  span : Span
  detail : FindingDetail
deriving DecidableEq, Repr

/-- What became of a finding that is not in conflict. -/
inductive Ruling where
  /-- The store of the function took it. -/
  | recorded (outcome : InsertOutcome)
  /-- The symbols that overlap it all say data.  Nothing is stored, even if they cover it only in
  part. -/
  | shadowed
deriving DecidableEq, Repr

/-- A ledger with a frozen symbol table. -/
structure Arbiter where
  ledger : Ledger
  symbolCoverage : Coverage
  /-- It says so now. -/
  symbolCoverage_eq : symbolCoverage = ledger.symbols.coverage
deriving DecidableEq

/-- Freezes the symbol table. -/
def Ledger.freeze (l : Ledger) : Arbiter := ⟨l, l.symbols.coverage, rfl⟩

namespace Arbiter

/-- Gives the ledger back, so that symbols can be added again. -/
def reopen (a : Arbiter) : Ledger := a.ledger

def recordPcTable (a : Arbiter) (span : Span) (f : Program.Function) (detail : PcTableDetail) :
    Except Error (InsertOutcome × Arbiter) :=
  match a.ledger.pcTable.insert (.ofPcTable span f.package f.id detail) with
  | .ok (outcome, pcTable) => .ok (outcome, { a with ledger := { a.ledger with pcTable } })
  | .error e => .error e

def recordDebugInfo (a : Arbiter) (span : Span) (kind : ByteKind) (package : PackageId)
    (detail : DebugInfoDetail) : Except Error (InsertOutcome × Arbiter) :=
  match a.ledger.debugInfo.insert (.ofDebugInfo span kind package detail) with
  | .ok (outcome, debugInfo) => .ok (outcome, { a with ledger := { a.ledger with debugInfo } })
  | .error e => .error e

/-! ### Rulings -/

/-- What the symbol table says about any of the bytes. -/
def symbolKind? (a : Arbiter) (span : Span) : Option ByteKind :=
  a.symbolCoverage.kindAt? span

/-- What the symbol table says about the bytes as a whole: the first kind other than data if it
says one of any of them, else data if it says anything. -/
def verdict (a : Arbiter) (span : Span) : Option ByteKind :=
  -- One symbol of another kind outweighs all data symbols over the same bytes.
  let kinds := (a.symbolCoverage.hits span).map (·.kind)
  kinds.find? (· ≠ .data) <|> kinds.head?

/-- Decides on a finding of a function, and returns the function with what its store has then. -/
def rule (a : Arbiter) (f : Program.Function) (finding : Finding) :
    Except Error (Ruling × Program.Function) :=
  match a.verdict finding.span with
  | none =>
    match f.findings.insert (.ofFinding finding.span f.package f.id finding.detail) with
    | .ok (outcome, findings) => .ok (.recorded outcome, { f with findings })
    | .error e => .error e
  | some .data => .ok (.shadowed, f)
  | some symbolKind => .error (.conflict ⟨finding.span, symbolKind, .data⟩)

/-- All authoritative evidence as one coverage: the pc-table, the symbols, and the findings of
each function in turn. -/
def authoritativeCoverage (a : Arbiter) (p : Program) : Except Error Coverage :=
  let findings := (p.functions.map (·.findings)).filter (!·.isEmpty)
  Coverage.merge (a.ledger.pcTable.coverage :: a.symbolCoverage :: findings.map Store.coverage)

end Arbiter

end ByteCensus
