import ByteCensus.Coverage
import ByteCensus.Handle

/-!
# Evidence

One piece of evidence says what the bytes of a span are, which decoder reported it and who owns
them.  Each decoder adds details of its own; `Detail` has one case for each.

The constructors at the end fix what a decoder may claim: the pc-table knows only code,
disassembly finds only data, symbols and debug information have no owning function of their own.
Debug information is advisory and never takes part in arbitration.
-/

namespace ByteCensus

/-- The decoder that reported a piece of evidence. -/
inductive Source where
  /-- The table from program counters to functions. -/
  | pcTable
  /-- The symbol table of the linker. -/
  | symbol
  /-- Structured debug information. -/
  | debugInfo
  /-- The disassembled bodies of functions. -/
  | disassembly
deriving DecidableEq, Repr, Inhabited

namespace Source

def all : List Source := [pcTable, symbol, debugInfo, disassembly]

/-- The name of a decoder in serialized form. -/
def name : Source → String
  | pcTable => "pc_table"
  | symbol => "symbol"
  | debugInfo => "debug_info"
  | disassembly => "disassembly"

/-- The name of a decoder as it is shown. -/
def label : Source → String
  | pcTable => "pc-table"
  | symbol => "symbol"
  | debugInfo => "debug-info"
  | disassembly => "disassembly"

theorem mem_all (s : Source) : s ∈ all := by
  cases s <;> decide

theorem name_injective {s t : Source} (h : s.name = t.name) : s = t := by
  revert h
  cases s <;> cases t <;> decide

end Source

/-! ### Details -/

/-- What the pc-table tells about a function. -/
structure PcTableDetail where
  functionName : String
  packageName : String
  /-- The receiver of a method, empty for a plain function. -/
  receiver : String
  filePath : Option String
deriving DecidableEq, Repr

/-- What the symbol table tells about a symbol. -/
structure SymbolDetail where
  symbolName : String
deriving DecidableEq, Repr

/-- What debug information tells about a stretch of bytes. -/
structure DebugInfoDetail where
  name : String
  typeName : Option String
deriving DecidableEq, Repr

/-- What disassembly tells about a finding. -/
structure FindingDetail where
  /-- The string literal, if the finding is one. -/
  literal : Option String
deriving DecidableEq, Repr, Inhabited

/-- What a decoder tells besides span and kind. -/
inductive Detail where
  | pcTable (detail : PcTableDetail)
  | symbol (detail : SymbolDetail)
  | debugInfo (detail : DebugInfoDetail)
  | disassembly (detail : FindingDetail)
deriving DecidableEq, Repr

/-- The decoder that has such details. -/
def Detail.source : Detail → Source
  | pcTable _ => .pcTable
  | symbol _ => .symbol
  | debugInfo _ => .debugInfo
  | disassembly _ => .disassembly

/-! ### Evidence -/

/-- One claim about the bytes of a span. -/
structure Evidence where
  span : Span
  kind : ByteKind
  source : Source
  package : PackageId
  /-- The function that owns them, if one does. -/
  function : Option FunctionId
  detail : Detail
deriving DecidableEq, Repr

namespace Evidence

/-- The address by which a piece of evidence is stored. -/
def start (e : Evidence) : Address := e.span.start

def part (e : Evidence) : Part := ⟨e.span, e.kind⟩

/-- Debug information is advisory, all other evidence counts. -/
def isAuthoritative (e : Evidence) : Bool := e.source ≠ .debugInfo

/-- Evidence is shown as in `[0x1000, 0x1010) text (pc-table)`. -/
def display (e : Evidence) : String :=
  e.span.display ++ " " ++ e.kind.name ++ " (" ++ e.source.label ++ ")"

/-- The extent of a function according to the pc-table.  Always code. -/
def ofPcTable (span : Span) (package : PackageId) (function : FunctionId)
    (detail : PcTableDetail) : Evidence :=
  ⟨span, .text, .pcTable, package, some function, .pcTable detail⟩

/-- A named range of the symbol table, which no function owns yet. -/
def ofSymbol (span : Span) (kind : ByteKind) (package : PackageId) (detail : SymbolDetail) :
    Evidence :=
  ⟨span, kind, .symbol, package, none, .symbol detail⟩

/-- Advisory evidence, which no function owns. -/
def ofDebugInfo (span : Span) (kind : ByteKind) (package : PackageId)
    (detail : DebugInfoDetail) : Evidence :=
  ⟨span, kind, .debugInfo, package, none, .debugInfo detail⟩

/-- Data found in the body of a function.  Always data. -/
def ofFinding (span : Span) (package : PackageId) (function : FunctionId)
    (detail : FindingDetail) : Evidence :=
  ⟨span, .data, .disassembly, package, some function, .disassembly detail⟩

end Evidence

end ByteCensus
