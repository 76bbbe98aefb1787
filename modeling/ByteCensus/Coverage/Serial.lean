import ByteCensus.Coverage
import ByteCensus.Serial

/-!
# Serialized coverages

Kinds are written by their names, spans and parts as records.  A coverage is written as the list
of its parts.
-/

namespace ByteCensus

instance : Serial ByteKind := .named ByteKind.all ByteKind.name

instance : Serial Span where
  toJson s := .object [("start", .ofNat s.start.toNat), ("size", .ofNat s.size.toNat)]
  ofJson v := do
    let r ← v.asRecord ["start", "size"]
    return ⟨← r.required "start" Json.toWord64, ← r.required "size" Json.toWord64⟩

instance : Serial Part where
  toJson p := .object [("range", Serial.toJson p.span), ("typ", Serial.toJson p.kind)]
  ofJson v := do
    let r ← v.asRecord ["range", "typ"]
    return ⟨← r.required "range" Serial.ofJson, ← r.required "typ" Serial.ofJson⟩

/-- The parts of a coverage as text. -/
def Coverage.encode (c : Coverage) : String :=
  (Json.array (c.parts.toList.map Serial.toJson)).compact

end ByteCensus
