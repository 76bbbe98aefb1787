import ByteCensus.Toolchain.Version

/-!
# Toolchain flags

Decoders behave differently for binaries of older and of newer toolchains.  The flags say which
side of two thresholds a version is on.  A binary need not tell its version; `Flags.resolve` then
takes it for one of a newer toolchain, so that a missing version never ends a run.
-/

namespace ByteCensus

/-- What decoders need to know about the toolchain. -/
structure Flags where
  /-- Built by 1.18.10 or an older version. -/
  upTo118 : Bool
  /-- Built by the first release candidate of 1.20 or a newer version. -/
  from120 : Bool
deriving DecidableEq, Repr

namespace Flags

/-- The last version of 1.18. -/
def last118 : Version := ⟨1, 18, 10, .release⟩

/-- The first release candidate of 1.20. -/
def first120 : Version := ⟨1, 20, 0, .candidate 1⟩

/-- The flags of a binary that does not tell its version. -/
def newer : Flags := ⟨false, true⟩

instance : Inhabited Flags := ⟨newer⟩

/-- The flags of a known version. -/
def ofVersion (v : Version) : Flags := ⟨decide (v ≤ last118), decide (first120 ≤ v)⟩

/-- The flags after a look-up of the version that may have failed. -/
def resolve : Except Error Version → Flags
  | .ok v => ofVersion v
  | .error _ => newer

end Flags

end ByteCensus
