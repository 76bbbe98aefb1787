import ByteCensus.Error
import ByteCensus.Text.Blank

/-!
# Toolchain versions

A version of the Go toolchain is written `go1.21.4`, `go1.20rc1` or `go1.19beta2`: two or three
numbers and, before a release, its stage.  Reading also accepts a version with one number, blanks
around the text, and after a blank, `+` or `-` any remark on the same line.

* `Version.ofChars?` reads, `Version.display` writes; a patch number of zero is left out.
* `Version.order` compares number by number, then by stage: betas come before release candidates,
  and both before the release.
-/

namespace ByteCensus

/-- How far a version is on its way to release. -/
inductive Stage where
  | beta (number : UInt32)
  | candidate (number : UInt32)
  | release
deriving DecidableEq, Repr

namespace Stage

/-- The place of the stage among the stages. -/
def rank : Stage → Nat
  | beta _ => 0
  | candidate _ => 1
  | release => 2

/-- The number within the stage, zero for a release. -/
def number : Stage → UInt32
  | beta n | candidate n => n
  | release => 0

/-- The characters of a stage behind the numbers of its version. -/
def chars : Stage → List Char
  | beta n => 'b' :: 'e' :: 't' :: 'a' :: Nat.toDigits 10 n.toNat
  | candidate n => 'r' :: 'c' :: Nat.toDigits 10 n.toNat
  | release => []

end Stage

/-- A version of the toolchain. -/
structure Version where
  major : UInt32
  minor : UInt32
  patch : UInt32
  stage : Stage
deriving DecidableEq, Repr

namespace Version

/-! ### Order -/

/-- Compares by major, minor and patch number, by the stage, and by the number within it. -/
def order (v w : Version) : Ordering :=
  (compare v.major.toNat w.major.toNat).then <|
  (compare v.minor.toNat w.minor.toNat).then <|
  (compare v.patch.toNat w.patch.toNat).then <|
  (compare v.stage.rank w.stage.rank).then <|
  compare v.stage.number.toNat w.stage.number.toNat

instance : LE Version where
  le v w := (order v w).isLE

instance (v w : Version) : Decidable (v ≤ w) :=
  inferInstanceAs (Decidable ((order v w).isLE = true))

/-! ### Reading -/

/-- The number at the head of the text, and the text behind it.  A number has at least one ASCII
digit and fits in 32 bits. -/
def takeNumber? (cs : List Char) : Option (UInt32 × List Char) :=
  -- A digit of another script is no digit here, and no version either.
  let digits := cs.takeWhile Char.isDigit
  let value := Nat.ofDigitChars 10 digits 0
  if digits ≠ [] ∧ value < UInt32.size then some (UInt32.ofNat value, cs.dropWhile Char.isDigit)
  else none

/-- The number after a dot, or zero if the text does not go on with a dot. -/
def takeDotted? : List Char → Option (UInt32 × List Char)
  | '.' :: cs => takeNumber? cs
  | cs => some (0, cs)

/-- The stage at the head of the text, a release if none is written. -/
def takeStage? : List Char → Option (Stage × List Char)
  | 'b' :: 'e' :: 't' :: 'a' :: cs => (takeNumber? cs).map fun (n, cs) => (.beta n, cs)
  | 'r' :: 'c' :: cs => (takeNumber? cs).map fun (n, cs) => (.candidate n, cs)
  | cs => some (.release, cs)

/-- What may stand behind a version: nothing, or a blank, `+` or `-` and then anything on the same
line. -/
def isRemark : List Char → Bool
  | [] => true
  | c :: cs => (Text.isBlank c || c == '+' || c == '-') && cs.all (· != '\n')

/-- Reads a version without blanks around it. -/
def ofChars? : List Char → Option Version
  | 'g' :: 'o' :: cs => do
    let (major, cs) ← takeNumber? cs
    let (minor, cs) ← takeDotted? cs
    let (patch, cs) ← takeDotted? cs
    let (stage, cs) ← takeStage? cs
    if isRemark cs then some ⟨major, minor, patch, stage⟩ else none
  | _ => none

/-- Reads a version; an error names the text as it was given. -/
def parse (raw : String) : Except Error Version :=
  match ofChars? (Text.trimBlanks raw.toList) with
  | some v => .ok v
  | none => .error (.invalidVersion raw)

/-- Compares two version texts; an error names the first that is no version. -/
def compareTexts (a b : String) : Except Error Ordering := do
  let v ← parse a
  let w ← parse b
  return order v w

/-! ### Writing -/

def chars (v : Version) : List Char :=
  'g' :: 'o' :: Nat.toDigits 10 v.major.toNat ++ '.' :: Nat.toDigits 10 v.minor.toNat
    ++ (if v.patch = 0 then [] else '.' :: Nat.toDigits 10 v.patch.toNat)
    ++ v.stage.chars

def display (v : Version) : String := String.ofList v.chars

end Version

end ByteCensus
