import ByteCensus.Config
import ByteCensus.Program

/-!
# Ledgers

A ledger collects what the pc-table, the symbol table and debug information say about a binary,
each in a store of its own.  No source is checked against another one here.

Recording a symbol yields a handle by which the symbol can later be attached to a function.
-/

namespace ByteCensus

/-- Refers to an entry of the symbol table. -/
structure SymbolHandle where
  start : Address
deriving DecidableEq, Repr

/-- The evidence of the three decoders that look at the whole binary. -/
structure Ledger where
  /-- The extents of functions. -/
  pcTable : Store
  /-- The named ranges of the linker. -/
  symbols : Store
  /-- Advisory evidence. -/
  debugInfo : Store
deriving DecidableEq

namespace Ledger

def empty (policies : SpacePolicies) : Ledger :=
  ⟨.empty policies.pcTable, .empty policies.symbol, .empty policies.debugInfo⟩

instance : Inhabited Ledger := ⟨empty default⟩

def recordPcTable (l : Ledger) (span : Span) (f : Program.Function) (detail : PcTableDetail) :
    Except Error (InsertOutcome × Ledger) :=
  match l.pcTable.insert (.ofPcTable span f.package f.id detail) with
  | .ok (outcome, pcTable) => .ok (outcome, { l with pcTable })
  | .error e => .error e

/-- Records a symbol, and returns a handle of its entry. -/
def recordSymbol (l : Ledger) (span : Span) (kind : ByteKind) (package : PackageId)
    (detail : SymbolDetail) : Except Error (SymbolHandle × Ledger) :=
  match l.symbols.insert (.ofSymbol span kind package detail) with
  | .ok (_, symbols) => .ok (⟨span.start⟩, { l with symbols })
  | .error e => .error e

/-- Makes a function the owner of a symbol. -/
def attach (l : Ledger) (symbol : SymbolHandle) (function : FunctionId) : Except Error Ledger :=
  match l.symbols.setFunction? symbol.start function with
  | some symbols => .ok { l with symbols }
  | none => .error (.invalidInput (.noSymbolAt symbol.start))

def recordDebugInfo (l : Ledger) (span : Span) (kind : ByteKind) (package : PackageId)
    (detail : DebugInfoDetail) : Except Error (InsertOutcome × Ledger) :=
  match l.debugInfo.insert (.ofDebugInfo span kind package detail) with
  | .ok (outcome, debugInfo) => .ok (outcome, { l with debugInfo })
  | .error e => .error e

end Ledger

end ByteCensus
