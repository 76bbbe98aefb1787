import ByteCensus.Serial
import ByteCensus.Store

/-!
# Configuration of a run

What a store does with duplicates, for each decoder, and how findings in conflict with the symbol
table are reported.  In serialized form every field may be left out and then has its default, at
both levels.
-/

namespace ByteCensus

/-- What happens when a finding contradicts the symbol table. -/
inductive ConflictPolicy where
  /-- Stop at the first conflict. -/
  | abort
  /-- Go through all findings and report all conflicts together. -/
  | collect
deriving DecidableEq, Repr, Inhabited

namespace ConflictPolicy

def all : List ConflictPolicy := [abort, collect]

/-- The name of a policy in serialized form. -/
def name : ConflictPolicy → String
  | abort => "abort"
  | collect => "collect"

theorem mem_all (p : ConflictPolicy) : p ∈ all := by
  cases p <;> decide

theorem name_injective {p q : ConflictPolicy} (h : p.name = q.name) : p = q := by
  revert h
  cases p <;> cases q <;> decide

end ConflictPolicy

/-- What the stores of a run do with duplicates. -/
structure SpacePolicies where
  pcTable : DuplicatePolicy
  symbol : DuplicatePolicy
  debugInfo : DuplicatePolicy
  /-- In the store of each function's findings. -/
  disassembly : DuplicatePolicy
deriving DecidableEq, Repr

/-- How a batch of findings is taken in. -/
structure IngestConfig where
  conflictPolicy : ConflictPolicy
  /-- With at least so many functions, all are gone through independently of each other. -/
  parallelThreshold : UInt64
deriving DecidableEq, Repr

/-- The configuration of a run. -/
structure Config where
  spaces : SpacePolicies
  ingest : IngestConfig
deriving DecidableEq, Repr

/-! ### Defaults -/

instance : Inhabited SpacePolicies := ⟨⟨default, default, default, default⟩⟩

instance : Inhabited IngestConfig := ⟨⟨.abort, 128⟩⟩

instance : Inhabited Config := ⟨⟨default, default⟩⟩

/-! ### Serialized form -/

instance : Serial DuplicatePolicy := .named DuplicatePolicy.all DuplicatePolicy.name

instance : Serial ConflictPolicy := .named ConflictPolicy.all ConflictPolicy.name

instance : Serial SpacePolicies where
  toJson p := .object
    [("pc_table", Serial.toJson p.pcTable), ("symbol", Serial.toJson p.symbol),
      ("debug_info", Serial.toJson p.debugInfo), ("disasm", Serial.toJson p.disassembly)]
  ofJson v := do
    let r ← v.asRecord ["pc_table", "symbol", "debug_info", "disasm"]
    let initial : SpacePolicies := default
    return {
      pcTable := ← r.orDefault "pc_table" initial.pcTable Serial.ofJson
      symbol := ← r.orDefault "symbol" initial.symbol Serial.ofJson
      debugInfo := ← r.orDefault "debug_info" initial.debugInfo Serial.ofJson
      disassembly := ← r.orDefault "disasm" initial.disassembly Serial.ofJson }

instance : Serial IngestConfig where
  toJson c := .object
    [("conflict_policy", Serial.toJson c.conflictPolicy),
      ("parallel_threshold", .ofNat c.parallelThreshold.toNat)]
  ofJson v := do
    let r ← v.asRecord ["conflict_policy", "parallel_threshold"]
    let initial : IngestConfig := default
    return {
      conflictPolicy := ← r.orDefault "conflict_policy" initial.conflictPolicy Serial.ofJson
      parallelThreshold :=
        ← r.orDefault "parallel_threshold" initial.parallelThreshold Json.toWord64 }

instance : Serial Config where
  toJson c := .object [("spaces", Serial.toJson c.spaces), ("disasm", Serial.toJson c.ingest)]
  ofJson v := do
    let r ← v.asRecord ["spaces", "disasm"]
    return {
      spaces := ← r.orDefault "spaces" default Serial.ofJson
      ingest := ← r.orDefault "disasm" default Serial.ofJson }

namespace Config

/-- A configuration as text, over several lines. -/
def display (c : Config) : String := (Serial.toJson c).pretty

/-- The configuration that a text writes. -/
def parse (s : String) : Except Error Config :=
  match Serial.read s with
  | .ok c => .ok c
  | .error fault => .error (.config fault.message)

/-- The configuration in a file with that content, if there is such a file. -/
def ofFile : Option ByteArray → Except Error Config
  | none => .error (.io "no such file")
  | some content =>
    match String.fromUTF8? content with
    | none => .error (.io "not valid UTF-8")
    | some s => parse s

end Config

end ByteCensus
