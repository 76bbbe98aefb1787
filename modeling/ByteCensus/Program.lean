import ByteCensus.Store

/-!
# Programs

A program registers the packages and functions of a binary and hands out a handle for each, its
place in the order of registration.  Handles stay valid, since nothing is ever taken out.

Each function owns a store for the data found in its body.  Nothing else is written there, so
functions can be disassembled independently of each other.
-/

namespace ByteCensus

/-- Whether a function has a receiver. -/
inductive FunctionKind where
  | function
  | method
deriving DecidableEq, Repr, Inhabited

namespace FunctionKind

def all : List FunctionKind := [function, method]

/-- The name of a kind in serialized form. -/
def name : FunctionKind → String
  | function => "Function"
  | method => "Method"

/-- The name of a kind as it is shown. -/
def label : FunctionKind → String
  | function => "function"
  | method => "method"

end FunctionKind

namespace Program

/-- A package of the program. -/
structure Package where
  id : PackageId
  /-- Its import path. -/
  name : String
  /-- Its functions, in the order of registration. -/
  functions : List FunctionId
deriving DecidableEq, Repr

/-- A function of the program. -/
structure Function where
  id : FunctionId
  name : String
  package : PackageId
  kind : FunctionKind
  /-- The receiver of a method, empty for a plain function. -/
  receiver : String
  /-- The data found in its body. -/
  findings : Store
deriving DecidableEq

end Program

/-- The packages and functions of a binary. -/
structure Program where
  /-- The packages, each at the place its handle says. -/
  packages : List Program.Package
  /-- The functions, each at the place its handle says. -/
  functions : List Program.Function
  /-- What the stores of new functions do with duplicates. -/
  findingPolicy : DuplicatePolicy
deriving DecidableEq

namespace Program

def empty (findingPolicy : DuplicatePolicy) : Program := ⟨[], [], findingPolicy⟩

instance : Inhabited Program := ⟨empty default⟩

/-! ### Lookup -/

/-- The package with that handle. -/
def package? (p : Program) (id : PackageId) : Option Package :=
  p.packages[id.index.toNat]?

/-- The function with that handle. -/
def function? (p : Program) (id : FunctionId) : Option Function :=
  p.functions[id.index.toNat]?

/-- The handle of the package with that name. -/
def findPackage? (p : Program) (name : String) : Option PackageId :=
  (p.packages.find? (·.name = name)).map (·.id)

/-! ### Registration -/

/-- Registers a package, unless one of that name is known, and returns its handle. -/
def addPackage (p : Program) (name : String) : PackageId × Program :=
  match p.findPackage? name with
  | some id => (id, p)
  | none =>
    let id : PackageId := ⟨UInt32.ofNat p.packages.length⟩
    (id, { p with packages := p.packages ++ [⟨id, name, []⟩] })

/-- Registers a function of a known package and returns its handle. -/
def addFunction (p : Program) (name : String) (package : PackageId)
    (kind : FunctionKind) (receiver : String) :
    Except Error (FunctionId × Program) :=
  match p.package? package with
  | none => .error (.invalidInput (.unknownPackage package))
  | some _ =>
    let id : FunctionId := ⟨UInt32.ofNat p.functions.length⟩
    let withMember (q : Package) : Package := { q with functions := q.functions ++ [id] }
    .ok (id, { p with
      packages := p.packages.modify package.index.toNat withMember
      functions := p.functions ++
        [⟨id, name, package, kind, receiver, Store.empty p.findingPolicy⟩] })

/-- The program with one function in place of the one with that handle. -/
def setFunction (p : Program) (id : FunctionId) (f : Function) : Program :=
  { p with functions := p.functions.set id.index.toNat f }

end Program

end ByteCensus
