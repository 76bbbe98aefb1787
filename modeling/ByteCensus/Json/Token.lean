import ByteCensus.Json.Fault
import ByteCensus.Json.Numeral
import ByteCensus.Json.Quoted

/-!
# Tokens

The words of JSON.  `Token.scan` cuts a text into tokens and drops the blanks between them;
`Token.spell` writes one token, and `Token.layout` writes several over indented lines.

Words and numerals are cut as long runs of letters, digits, dots and signs.  No two of them ever
stand side by side in JSON, so a run that is not one whole token is a fault anyway.

A text in which a surrogate has no partner stands for no characters, yet its form is right and it
may be passed over.  It is the token `text none`.
-/

namespace ByteCensus.Json

/-- A word of JSON. -/
inductive Token where
  | openArray
  | closeArray
  | openObject
  | closeObject
  | comma
  | colon
  | null
  | bool (value : Bool)
  | number (value : Numeral)
  /-- A text; `none` if a surrogate in it has no partner. -/
  | text (value : Option String)
deriving DecidableEq, Repr

/-- The blanks of JSON. -/
def isSpace (c : Char) : Bool := c == ' ' || c == '\t' || c == '\n' || c == '\r'

/-- The characters of words and numerals. -/
def isWordChar (c : Char) : Bool := c.isAlphanum || c == '.' || c == '+' || c == '-'

namespace Token

/-! ### Reading -/

/-- The token of a run of word characters. -/
def ofWord (word : List Char) : Except Fault Token :=
  if word = ['n', 'u', 'l', 'l'] then .ok .null
  else if word = ['t', 'r', 'u', 'e'] then .ok (.bool true)
  else if word = ['f', 'a', 'l', 's', 'e'] then .ok (.bool false)
  else match Numeral.ofChars? word with
    | some n => .ok (.number n)
    | none => .error (.unknownWord (String.ofList word))

/-- The token of a quoted text. -/
def ofPieces (pieces : List Piece) : Token :=
  .text ((joinPieces pieces).map String.ofList)

/-- The punctuation mark that the character is. -/
def ofMark? : Char → Option Token
  | '[' => some .openArray
  | ']' => some .closeArray
  | '\x7b' => some .openObject
  | '\x7d' => some .closeObject
  | ',' => some .comma
  | ':' => some .colon
  | _ => none

/-- The first token of a text that starts with the character `c`, and the text behind it. -/
def scanFirst (c : Char) (cs : List Char) : Except Fault (Token × List Char) :=
  match ofMark? c with
  | some t => .ok (t, cs)
  | none =>
    if c = '"' then
      match readPieces cs with
      | some (pieces, rest) => .ok (ofPieces pieces, rest)
      | none => .error .brokenText
    else if isWordChar c then
      match ofWord (c :: cs.takeWhile isWordChar) with
      | .ok t => .ok (t, cs.dropWhile isWordChar)
      | .error fault => .error fault
    else .error (.strayCharacter c)

theorem length_scanFirst {c : Char} {cs rest : List Char} {t : Token}
    (h : scanFirst c cs = .ok (t, rest)) : rest.length ≤ cs.length := by
  unfold scanFirst at h
  split at h
  · obtain ⟨-, rfl⟩ := Prod.mk.inj (Except.ok.inj h)
    exact Nat.le_refl _
  · split at h
    · split at h
      · next read =>
        obtain ⟨-, rfl⟩ := Prod.mk.inj (Except.ok.inj h)
        exact Nat.le_of_lt (length_readPieces read)
      · cases h
    · split at h
      · split at h
        · obtain ⟨-, rfl⟩ := Prod.mk.inj (Except.ok.inj h)
          exact (List.dropWhile_suffix isWordChar).length_le
        · cases h
      · cases h

/-- The tokens of a text. -/
def scan : List Char → Except Fault (List Token)
  | [] => .ok []
  | c :: cs =>
    if isSpace c then scan cs
    else match _ : scanFirst c cs with
      | .error fault => .error fault
      | .ok (t, rest) =>
        match scan rest with
        | .error fault => .error fault
        | .ok ts => .ok (t :: ts)
termination_by cs => cs.length
decreasing_by
  · simp
  · have := length_scanFirst ‹scanFirst c cs = _›
    simp only [List.length_cons]
    omega

/-! ### Writing -/

/-- The characters of a token. -/
def spell : Token → List Char
  | openArray => ['[']
  | closeArray => [']']
  | openObject => ['\x7b']
  | closeObject => ['\x7d']
  | comma => [',']
  | colon => [':']
  | null => ['n', 'u', 'l', 'l']
  | bool true => ['t', 'r', 'u', 'e']
  | bool false => ['f', 'a', 'l', 's', 'e']
  | number n => n.chars
  | text (some s) => quote s.toList
  | text none => ['"', '\\', 'u', 'd', '8', '0', '0', '"']

def compact (ts : List Token) : List Char := ts.flatMap spell

/-- A new line inside `depth` brackets. -/
def newLine (depth : Nat) : List Char := '\n' :: List.replicate (2 * depth) ' '

/-- The tokens inside `depth` brackets, each member and each closing bracket on a line of its own.
Brackets with nothing between them stay together. -/
def layout (depth : Nat) : List Token → List Char
  | [] => []
  | openArray :: closeArray :: ts => '[' :: ']' :: layout depth ts
  | openObject :: closeObject :: ts => '\x7b' :: '\x7d' :: layout depth ts
  | openArray :: ts => '[' :: newLine (depth + 1) ++ layout (depth + 1) ts
  | openObject :: ts => '\x7b' :: newLine (depth + 1) ++ layout (depth + 1) ts
  | closeArray :: ts => newLine (depth - 1) ++ ']' :: layout (depth - 1) ts
  | closeObject :: ts => newLine (depth - 1) ++ '\x7d' :: layout (depth - 1) ts
  | comma :: ts => ',' :: newLine depth ++ layout depth ts
  | colon :: ts => ':' :: ' ' :: layout depth ts
  | t :: ts => t.spell ++ layout depth ts

end Token

end ByteCensus.Json
