import ByteCensus.Ingest
import ByteCensus.Toolchain.Flags

/-!
# Runs

A run is about one binary: its size, what it tells about how it was built, the program it holds,
and the configuration.  The toolchain flags always follow from the build information.
-/

namespace ByteCensus

/-- What a toolchain writes into a binary about the build. -/
structure BuildInfo where
  goVersion : Option String
  mainPath : Option String
deriving DecidableEq, Repr

/-- The analysis of one binary. -/
structure Run where
  /-- The size of the binary in bytes. -/
  size : UInt64
  build : Option BuildInfo
  program : Program
  /-- What decoders need to know about the toolchain. -/
  flags : Flags
  hasDebugInfo : Bool
  config : Config

namespace Run

/-- The build information, which some binaries do not have. -/
def requireBuild (build : Option BuildInfo) : Except Error BuildInfo :=
  match build with
  | some info => .ok info
  | none => .error (.missingMetadata .buildInfo)

/-- The version of the compiler according to the build information. -/
def versionOf (build : Option BuildInfo) : Except Error Version := do
  let info ← requireBuild build
  match info.goVersion with
  | some raw => Version.parse raw
  | none => throw (.missingMetadata .compilerVersion)

/-- The analysis of a binary at its beginning. -/
def start (size : UInt64) (build : Option BuildInfo) (config : Config) : Run where
  size
  build
  program := .empty config.spaces.disassembly
  flags := Flags.resolve (versionOf build)
  hasDebugInfo := false
  config

def buildInfo (r : Run) : Except Error BuildInfo := requireBuild r.build

def compilerVersion (r : Run) : Except Error Version := versionOf r.build

/-- Replaces the build information, and the flags with it. -/
def setBuild (r : Run) (build : Option BuildInfo) : Run :=
  { r with build, flags := Flags.resolve (versionOf build) }

/-- A ledger without evidence, with the policies of the run. -/
def newLedger (r : Run) : Ledger := .empty r.config.spaces

/-- Takes in a batch, as the configuration of the run says. -/
def ingest (r : Run) (a : Arbiter) (b : Batch) : Except Error Tally × Run :=
  let (answer, program) := r.program.ingest a r.config.ingest b
  (answer, { r with program })

def coverage (r : Run) (a : Arbiter) : Except Error Coverage :=
  a.authoritativeCoverage r.program

end Run

end ByteCensus
