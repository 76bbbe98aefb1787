/-!
# Handles

Evidence refers to the packages and functions of a program by handles, the 32-bit numbers under
which the program registered them, so that evidence and program can be stored apart.
-/

namespace ByteCensus

/-- Refers to a package of a program. -/
structure PackageId where
  index : UInt32
deriving DecidableEq, Repr, Inhabited

/-- Refers to a function of a program. -/
structure FunctionId where
  index : UInt32
deriving DecidableEq, Repr, Inhabited

/-- A package handle is shown as in `pkg#3`. -/
def PackageId.display (p : PackageId) : String := "pkg#" ++ p.index.toNat.repr

/-- A function handle is shown as in `fn#3`. -/
def FunctionId.display (f : FunctionId) : String := "fn#" ++ f.index.toNat.repr

end ByteCensus
