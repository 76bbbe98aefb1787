import ByteCensus.Coverage.Serial
import ByteCensus.Program

/-!
# Serialized evidence

Handles are written as bare numbers, sources and kinds by their names, evidence as a record.

Details are records of several shapes, and the member `source` tells which one it is.  It may
stand anywhere among the others, or in front of them where the record is an array.  Since the
members that come before it have to be held until it is read, every member must be one that can
be held (`Json.isHeld`).
-/

namespace ByteCensus

instance : Serial Source := .named Source.all Source.name

instance : Serial FunctionKind := .named FunctionKind.all FunctionKind.name

instance : Serial PackageId where
  toJson p := .ofNat p.index.toNat
  ofJson v := PackageId.mk <$> v.toWord32

instance : Serial FunctionId where
  toJson f := .ofNat f.index.toNat
  ofJson v := FunctionId.mk <$> v.toWord32

namespace Detail

/-! ### Details -/

/-- The member that tells the shape. -/
def tag : String := "source"

def members : Detail → List (Option String × Json)
  | pcTable d =>
    [("func_name", .text d.functionName), ("package_name", .text d.packageName),
      ("receiver", .text d.receiver), ("file_path", .ofText? d.filePath)]
  | symbol d => [("symbol_name", .text d.symbolName)]
  | debugInfo d => [("name", .text d.name), ("type_name", .ofText? d.typeName)]
  | disassembly d => [("string_value", .ofText? d.literal)]

def toJson (d : Detail) : Json := .object ((tag, .text d.source.name) :: d.members)

/-- Reads the members besides the tag. -/
def ofMembers (v : Json) : Source → Except Json.Fault Detail
  | .pcTable => do
    let r ← v.asRecord ["func_name", "package_name", "receiver", "file_path"]
    return pcTable
      { functionName := ← r.required "func_name" Json.toText
        packageName := ← r.required "package_name" Json.toText
        receiver := ← r.required "receiver" Json.toText
        filePath := ← r.optional "file_path" Json.toText }
  | .symbol => do
    let r ← v.asRecord ["symbol_name"]
    return symbol ⟨← r.required "symbol_name" Json.toText⟩
  | .debugInfo => do
    let r ← v.asRecord ["name", "type_name"]
    return debugInfo ⟨← r.required "name" Json.toText, ← r.optional "type_name" Json.toText⟩
  | .disassembly => do
    let r ← v.asRecord ["string_value"]
    return disassembly ⟨← r.optional "string_value" Json.toText⟩

/-- The source that a tag names. -/
def sourceOfTag (v : Json) : Except Json.Fault Source := do
  let written ← v.toText
  match Source.all.find? (·.name = written) with
  | some s => .ok s
  | none => .error (.unknownName written)

/-- Parts the tag from the other members. -/
def splitTag : Json → Except Json.Fault (Json × Json)
  | .object members =>
    match Json.valuesOf tag members with
    | [] => .error (.missing tag)
    -- The tag is no member of the details themselves.
    | [v] => .ok (v, .object (members.filter (·.1 ≠ some tag)))
    | _ => .error (.repeated tag)
  | .array (v :: items) => .ok (v, .array items)
  | _ => .error (.notA "record")

/-- Reads details, with `room` for so many brackets. -/
def ofJson (room : Nat) (v : Json) : Except Json.Fault Detail := do
  unless v.isHeld room do
    throw .notHeld
  let (tagValue, rest) ← splitTag v
  ofMembers rest (← sourceOfTag tagValue)

/-- How many brackets a text may nest where values are held. -/
def nestingLimit : Nat := 127

end Detail

instance : Serial Detail where
  toJson := Detail.toJson
  ofJson := Detail.ofJson Detail.nestingLimit

/-! ### Evidence -/

instance : Serial Evidence where
  toJson e := .object
    [("range", Serial.toJson e.span), ("typ", Serial.toJson e.kind),
      ("source", Serial.toJson e.source), ("pkg", Serial.toJson e.package),
      ("function", (e.function.map Serial.toJson).getD .null), ("meta", Serial.toJson e.detail)]
  ofJson v := do
    let r ← v.asRecord ["range", "typ", "source", "pkg", "function", "meta"]
    return {
      span := ← r.required "range" Serial.ofJson
      kind := ← r.required "typ" Serial.ofJson
      source := ← r.required "source" Serial.ofJson
      package := ← r.required "pkg" Serial.ofJson
      function := ← r.optional "function" Serial.ofJson
      -- One bracket is taken by the record around the details.
      detail := ← r.required "meta" (Detail.ofJson (Detail.nestingLimit - 1)) }

end ByteCensus
