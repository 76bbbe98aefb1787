import ByteCensus.ByteKind
import ByteCensus.Handle
import ByteCensus.Span

/-!
# Errors

Everything that can go wrong in a run, by its cause.  Contradictory evidence is fatal: going on
would attribute bytes wrongly.  The other errors leave it to the caller to fall back.

`Error.message` is the one place where the wording lives; `Error.conflicts` lists the findings
that contradict the symbol table, where an error carries any.
-/

namespace ByteCensus

/-- The symbol table and disassembly disagree about the same bytes. -/
structure Conflict where
  /-- Where the refused finding is. -/
  span : Span
  symbolKind : ByteKind
  findingKind : ByteKind
deriving DecidableEq, Repr

/-- Why an input was refused. -/
inductive InvalidInput where
  | unknownPackage (package : PackageId)
  | unknownFunction (function : FunctionId)
  /-- The symbol table has no entry that starts there. -/
  | noSymbolAt (start : Address)
  | other (reason : String)
deriving DecidableEq, Repr

/-- What a binary does not tell about itself. -/
inductive MissingMetadata where
  | buildInfo
  /-- The build information does not name the compiler version. -/
  | compilerVersion
  | other (what : String)
deriving DecidableEq, Repr

/-- The ways to fail. -/
inductive Error where
  /-- A finding contradicts the symbol table. -/
  | conflict (conflict : Conflict)
  /-- All findings of one pass that contradict the symbol table. -/
  | conflicts (conflicts : List Conflict)
  /-- A part of a coverage overlaps an earlier one of another kind. -/
  | coverageConflict (incoming : Span) (existingKind incomingKind : ByteKind)
  /-- A store already has an entry with that start and its policy refuses another one. -/
  | duplicateStart (start : Address) (existingKind incomingKind : ByteKind)
  | missingMetadata (missing : MissingMetadata)
  | invalidVersion (raw : String)
  | invalidInput (cause : InvalidInput)
  | config (reason : String)
  | io (reason : String)
  | serialization (reason : String)
deriving DecidableEq, Repr

/-! ### Wording -/

def Conflict.message (c : Conflict) : String :=
  "symbol " ++ c.span.start.hex ++ " size " ++ Address.hex c.span.size
    ++ " conflict: symbol table says " ++ c.symbolKind.name
    ++ ", disassembly says " ++ c.findingKind.name

def InvalidInput.message : InvalidInput → String
  | unknownPackage package => "unknown package " ++ package.display
  | unknownFunction function => "findings reference unknown function " ++ function.display
  | noSymbolAt start => "no symbol entry at " ++ start.hex
  | other reason => reason

def MissingMetadata.message : MissingMetadata → String
  | buildInfo => "no build info"
  | compilerVersion => "no compiler version"
  | other what => what

namespace Error

def message : Error → String
  | conflict c => c.message
  | conflicts cs =>
    cs.length.repr ++ " conflicting disassembly findings, first: "
      ++ (cs.head?.map Conflict.message).getD "none"
  | coverageConflict incoming existingKind incomingKind =>
    "addr " ++ incoming.start.hex ++ " size " ++ Address.hex incoming.size ++ " type "
      ++ incomingKind.name ++ " conflicts with " ++ existingKind.name
  | duplicateStart start existingKind incomingKind =>
    "duplicate entry at " ++ start.hex ++ ": existing " ++ existingKind.name
      ++ ", incoming " ++ incomingKind.name
  | missingMetadata missing => "Missing metadata: " ++ missing.message
  | invalidVersion raw => "Invalid version: " ++ raw
  | invalidInput cause => "Invalid input: " ++ cause.message
  | config reason => "Config error: " ++ reason
  | io reason => "I/O error: " ++ reason
  | serialization reason => "Serialization error: " ++ reason

/-- Evidence that contradicts other evidence must end a run. -/
def isFatal : Error → Bool
  | conflict _ | conflicts _ | coverageConflict .. | duplicateStart .. => true
  | _ => false

/-- The findings in conflict with the symbol table that the error carries. -/
def conflictList : Error → List Conflict
  | conflict c => [c]
  | conflicts cs => cs
  | _ => []

end Error

end ByteCensus
