/-!
# Faults in serialized values

Why a text is not JSON, or why a JSON value is not the value that was asked for.
-/

namespace ByteCensus.Json

/-- What is wrong with a serialized value. -/
inductive Fault where
  /-- No token starts with the character. -/
  | strayCharacter (c : Char)
  /-- A text is not closed, or has a control character, an unknown escape or, where the text is
  asked for, a surrogate without a partner. -/
  | brokenText
  /-- A run of letters, digits and signs is neither a numeral nor a known word. -/
  | unknownWord (word : String)
  /-- A token stands where none of its kind may. -/
  | misplaced
  | truncated
  | notA (expected : String)
  | outOfRange
  /-- The name is none of those the field can have. -/
  | unknownName (name : String)
  | missing (field : String)
  | repeated (field : String)
  /-- An array has more elements than the record has fields. -/
  | tooMany
  /-- A member cannot be held until it is known what it belongs to. -/
  | notHeld
deriving DecidableEq, Repr

def Fault.message : Fault → String
  | strayCharacter c => "unexpected character " ++ String.singleton c
  | brokenText => "malformed string"
  | unknownWord word => "unexpected word " ++ word
  | misplaced => "unexpected token"
  | truncated => "unexpected end"
  | notA expected => "expected " ++ expected
  | outOfRange => "number out of range"
  | unknownName name => "unknown name " ++ name
  | missing field => "missing field " ++ field
  | repeated field => "repeated field " ++ field
  | tooMany => "too many elements"
  | notHeld => "value too deep, too large or not text"

end ByteCensus.Json
