import ByteCensus.Error
import ByteCensus.Json.Record

/-!
# Serialized form

A type is `Serial` if its values are written as JSON and read back.  `Serial.encode` writes a value
on one line; `Serial.decode` reads a whole text and reports what is wrong with it as an error of
serialization.
-/

namespace ByteCensus

/-- Values with a form in JSON. -/
class Serial (α : Type) where
  toJson : α → Json
  ofJson : Json → Except Json.Fault α

namespace Serial

variable {α : Type} [Serial α]

/-- The value as text, on one line. -/
def encode (a : α) : String := (toJson a).compact

/-- The value that a text writes. -/
def read (s : String) : Except Json.Fault α := do
  ofJson (← Json.parse s)

variable (α) in
/-- The value that a text writes, or an error. -/
def decode (s : String) : Except Error α :=
  match read s with
  | .ok a => .ok a
  | .error fault => .error (.serialization fault.message)

end Serial

/-- A type whose values are written by their names. -/
@[reducible] def Serial.named {α : Type} (all : List α) (name : α → String) : Serial α where
  toJson a := .text (name a)
  ofJson := Json.toNamed all name

end ByteCensus
