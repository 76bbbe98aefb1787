import ByteCensus.Json.Magnitude
import ByteCensus.Json.Value

/-!
# Records in JSON

A record is written as an object, its fields in any order, or as an array of its fields in the
order in which the record lists them.  `Json.asRecord` checks what can be checked without knowing
the fields' types: no field of an object is given twice, every key is a proper text, and an array
has no more elements than there are fields.  Members that are no fields are passed over, whatever
keys there are within their values.

A field that is not given is not always an error.  `Record.required` makes it one;
`Record.optional` reads it as nothing where the record is an object, but not where it is an array;
`Record.orDefault` has a value for it in both.

The second part reads what fields hold: numbers, texts, names from a list.
-/

namespace ByteCensus.Json

/-! ### Fields -/

/-- What a record has for one of its fields. -/
inductive Slot where
  /-- The value of the field. -/
  | given (value : Json)
  /-- The object has no such member. -/
  | leftOut
  /-- The array ends before the place of the field. -/
  | cutOff

/-- The fields of a record by name. -/
structure Record where
  slot : String → Slot

/-- The values of all members with that key. -/
def valuesOf (key : String) (members : List (Option String × Json)) : List Json :=
  (members.filter (·.1 = some key)).map (·.2)

/-- The value as a record with those fields. -/
def asRecord (fields : List String) : Json → Except Fault Record
  | object members =>
    if members.any (·.1.isNone) then .error .brokenText
    else match fields.find? fun field => 1 < (valuesOf field members).length with
    | some field => .error (.repeated field)
    | none => .ok ⟨fun field =>
        match valuesOf field members with
        | [] => .leftOut
        | v :: _ => .given v⟩
  | array items =>
    if fields.length < items.length then .error .tooMany
    else .ok ⟨fun field =>
        match items[fields.idxOf field]? with
        | none => .cutOff
        | some v => .given v⟩
  | _ => .error (.notA "record")

namespace Record

variable {α : Type}

/-- Reads a field that must be given. -/
def required (r : Record) (field : String) (read : Json → Except Fault α) : Except Fault α :=
  match r.slot field with
  | .given v => read v
  | _ => .error (.missing field)

/-- Reads a field that may be null, or left out of an object. -/
def optional (r : Record) (field : String) (read : Json → Except Fault α) :
    Except Fault (Option α) :=
  match r.slot field with
  | .given .null => .ok none
  | .given v => some <$> read v
  | .leftOut => .ok none
  | .cutOff => .error (.missing field)

/-- Reads a field that has a value even if it is not given. -/
def orDefault (r : Record) (field : String) (default : α) (read : Json → Except Fault α) :
    Except Fault α :=
  match r.slot field with
  | .given v => read v
  | _ => .ok default

end Record

/-! ### What fields hold -/

def ofNat (n : Nat) : Json := number (.ofNat n)

def ofText? : Option String → Json
  | none => null
  | some s => text s

def toNatBelow (bound : Nat) : Json → Except Fault Nat
  | number n =>
    match n.toNat? with
    | some k => if k < bound then .ok k else .error .outOfRange
    | none => .error (.notA "natural number")
  | _ => .error (.notA "natural number")

def toWord64 (v : Json) : Except Fault UInt64 := UInt64.ofNat <$> v.toNatBelow UInt64.size

def toWord32 (v : Json) : Except Fault UInt32 := UInt32.ofNat <$> v.toNatBelow UInt32.size

def toText : Json → Except Fault String
  | text (some s) => .ok s
  | text none => .error .brokenText
  | _ => .error (.notA "string")

/-- Reads one of several values by its name.  The name is a text, or the key of an object with
null as its only member. -/
def toNamed {α : Type} (all : List α) (name : α → String) (v : Json) : Except Fault α := do
  let written ← match v with
    | text (some s) | object [(some s, null)] => .ok s
    | _ => .error (.notA "name")
  match all.find? (name · = written) with
  | some a => .ok a
  | none => .error (.unknownName written)

/-! ### Values that are held

A value whose place in a record is not known yet is read in full and held until it is.  So its
numbers must become finite doubles, its texts and keys must be proper ones, and it may not nest too
deeply; a value that is passed over need not be any of this. -/

mutual

/-- The value can be held, with `room` for so many more brackets. -/
def isHeld (room : Nat) : Json → Bool
  | null | bool _ => true
  | number n => n.isFinite
  | text s => s.isSome
  | array items => 0 < room && areHeld (room - 1) items
  | object members => 0 < room && membersAreHeld (room - 1) members

/-- All items can be held. -/
def areHeld (room : Nat) : List Json → Bool
  | [] => true
  | v :: items => isHeld room v && areHeld room items

/-- The keys and values of all members can be held. -/
def membersAreHeld (room : Nat) : List (Option String × Json) → Bool
  | [] => true
  | (key, v) :: members => key.isSome && isHeld room v && membersAreHeld room members

end

/-! ### Reading back what was written -/

theorem toNatBelow_ofNat {n bound : Nat} (h : n < bound) : (ofNat n).toNatBelow bound = .ok n := by
  simp [toNatBelow, ofNat, h]

@[simp] theorem toWord64_ofNat (w : UInt64) : (ofNat w.toNat).toWord64 = .ok w := by
  simp [toWord64, toNatBelow_ofNat w.toNat_lt_size, Functor.map, Except.map]

@[simp] theorem toWord32_ofNat (w : UInt32) : (ofNat w.toNat).toWord32 = .ok w := by
  simp [toWord32, toNatBelow_ofNat w.toNat_lt_size, Functor.map, Except.map]

end ByteCensus.Json
