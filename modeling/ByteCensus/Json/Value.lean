import ByteCensus.Json.Token

/-!
# JSON values

A JSON value is a tree.  `Json.tokens` writes it as tokens; `Json.ofTokens` reads it back token by
token, holding the arrays and objects that are still open on a stack, so no depth is too great for
it.  `Json.parse` reads a text, `Json.compact` and `Json.pretty` write one.

The members of an object keep their order, and a key may occur more than once: what that means is
up to whoever reads the object.
-/

namespace ByteCensus

/-- A JSON value. -/
inductive Json where
  | null
  | bool (value : Bool)
  | number (value : Json.Numeral)
  /-- A text; `none` if a surrogate in it has no partner. -/
  | text (value : Option String)
  | array (items : List Json)
  /-- Keys are texts too, and may be `none` like these. -/
  | object (members : List (Option String × Json))
deriving Repr, Inhabited

namespace Json

/-! ### Values as tokens -/

mutual

/-- The tokens of a value. -/
def tokens : Json → List Token
  | null => [.null]
  | bool b => [.bool b]
  | number n => [.number n]
  | text s => [.text s]
  | array [] => [.openArray, .closeArray]
  | array (v :: items) => .openArray :: tokens v ++ furtherItems items
  | object [] => [.openObject, .closeObject]
  | object ((key, v) :: members) =>
    .openObject :: .text key :: .colon :: tokens v ++ furtherMembers members

/-- The tokens of the later items of an array, and of its end. -/
def furtherItems : List Json → List Token
  | [] => [.closeArray]
  | v :: items => .comma :: tokens v ++ furtherItems items

/-- The tokens of the later members of an object, and of its end. -/
def furtherMembers : List (Option String × Json) → List Token
  | [] => [.closeObject]
  | (key, v) :: members => .comma :: .text key :: .colon :: tokens v ++ furtherMembers members

end

/-- The value on one line, without blanks. -/
def compact (v : Json) : String := String.ofList (Token.compact v.tokens)

/-- The value over several lines, indented by two blanks for each bracket. -/
def pretty (v : Json) : String := String.ofList (Token.layout 0 v.tokens)

/-! ### Tokens as values -/

/-- An array or object that is still open, with what came before the value being read, latest
first. -/
inductive Frame where
  /-- An array with its earlier items. -/
  | items (before : List Json)
  /-- An object with its earlier members and the key of the value being read. -/
  | members (before : List (Option String × Json)) (key : Option String)

/-- How far the reading has come, with the open brackets around it, innermost first. -/
inductive Progress where
  /-- A value must follow. -/
  | value (around : List Frame)
  /-- An array was opened: an item or its end must follow. -/
  | firstItem (around : List Frame)
  /-- An object was opened: a key or its end must follow. -/
  | firstKey (around : List Frame)
  /-- A comma came after these members, latest first: a key must follow. -/
  | nextKey (around : List Frame) (before : List (Option String × Json))
  /-- A key came after these members: a colon must follow. -/
  | colon (around : List Frame) (before : List (Option String × Json)) (key : Option String)
  /-- A value is complete. -/
  | complete (around : List Frame) (value : Json)

namespace Progress

/-- Starts a value with a token. -/
def start (around : List Frame) : Token → Except Fault Progress
  | .null => .ok (complete around .null)
  | .bool b => .ok (complete around (.bool b))
  | .number n => .ok (complete around (.number n))
  | .text s => .ok (complete around (.text s))
  | .openArray => .ok (firstItem around)
  | .openObject => .ok (firstKey around)
  | _ => .error .misplaced

/-- Goes on behind a complete value, according to the innermost open bracket. -/
def proceed (v : Json) : List Frame → Token → Except Fault Progress
  | .items before :: around, .comma => .ok (value (.items (v :: before) :: around))
  | .items before :: around, .closeArray =>
    .ok (complete around (.array (v :: before).reverse))
  | .members before key :: around, .comma => .ok (nextKey around ((key, v) :: before))
  | .members before key :: around, .closeObject =>
    .ok (complete around (.object ((key, v) :: before).reverse))
  | _, _ => .error .misplaced

/-- Reads one token. -/
def step : Progress → Token → Except Fault Progress
  | value around, t => start around t
  -- A bracket may close at once, but not after a comma.
  | firstItem around, .closeArray => .ok (complete around (.array []))
  | firstItem around, t => start (.items [] :: around) t
  | firstKey around, .closeObject => .ok (complete around (.object []))
  | firstKey around, .text key => .ok (colon around [] key)
  | nextKey around before, .text key => .ok (colon around before key)
  | colon around before key, .colon => .ok (value (.members before key :: around))
  | complete around v, t => proceed v around t
  | _, _ => .error .misplaced

/-- The value read, if it is complete and no bracket is open. -/
def result : Progress → Except Fault Json
  | complete [] v => .ok v
  | _ => .error .truncated

end Progress

/-- The value that the tokens write. -/
def ofTokens (ts : List Token) : Except Fault Json := do
  (← ts.foldlM Progress.step (.value [])).result

/-- The value that a text writes. -/
def parse (s : String) : Except Fault Json := do
  ofTokens (← Token.scan s.toList)

end Json

end ByteCensus
