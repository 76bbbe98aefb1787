/-!
# Quoted text

The texts of JSON between their quotes.  Writing escapes quotes, backslashes and control
characters, and nothing else.  Reading also understands the other escapes: a character may be
given by its UTF-16 units, in which case the two surrogates of a pair stand next to each other.

Reading goes in two steps.  `readPieces` goes up to the closing quote and checks the form of every
escape; `joinPieces` makes characters of the pieces, and fails on a surrogate without its partner.
So a text that nobody asks for can be passed over by its form alone.
-/

namespace ByteCensus.Json

/-- What stands for a character in a quoted text. -/
inductive Piece where
  /-- The character itself, or a short escape for it. -/
  | char (c : Char)
  /-- A UTF-16 unit by its number. -/
  | unit (value : Nat)
deriving DecidableEq, Repr

/-! ### Reading -/

/-- The value of a hexadecimal digit of either case. -/
def hexValue? (c : Char) : Option Nat :=
  if c.isDigit then some (c.toNat - '0'.toNat)
  else if 'a' ≤ c ∧ c ≤ 'f' then some (c.toNat - 'a'.toNat + 10)
  else if 'A' ≤ c ∧ c ≤ 'F' then some (c.toNat - 'A'.toNat + 10)
  else none

/-- The value of four hexadecimal digits. -/
def hexUnit? (a b c d : Char) : Option Nat := do
  return 4096 * (← hexValue? a) + 256 * (← hexValue? b) + 16 * (← hexValue? c) + (← hexValue? d)

/-- The character that a backslash and this character stand for. -/
def shortEscape? : Char → Option Char
  | '"' => some '"'
  | '\\' => some '\\'
  | '/' => some '/'
  | 'b' => some '\x08'
  | 'f' => some '\x0c'
  | 'n' => some '\n'
  | 'r' => some '\r'
  | 't' => some '\t'
  | _ => none

/-- The pieces up to the closing quote, and the text behind it.  Control characters may not stand
for themselves. -/
def readPieces : List Char → Option (List Piece × List Char)
  | '"' :: rest => some ([], rest)
  | '\\' :: 'u' :: a :: b :: c :: d :: rest => do
    let value ← hexUnit? a b c d
    let (pieces, rest) ← readPieces rest
    return (.unit value :: pieces, rest)
  | '\\' :: e :: rest => do
    let c ← shortEscape? e
    let (pieces, rest) ← readPieces rest
    return (.char c :: pieces, rest)
  | c :: rest =>
    if ' ' ≤ c ∧ c ≠ '\\' then do
      let (pieces, rest) ← readPieces rest
      return (.char c :: pieces, rest)
    else none
  | [] => none

/-- The unit is the first of a surrogate pair. -/
def isHighSurrogate (value : Nat) : Bool := 0xd800 ≤ value && value < 0xdc00

/-- The unit is the second of a surrogate pair. -/
def isLowSurrogate (value : Nat) : Bool := 0xdc00 ≤ value && value < 0xe000

/-- The character of a surrogate pair. -/
def pairChar (high low : Nat) : Char :=
  Char.ofNat (0x10000 + 1024 * (high - 0xd800) + (low - 0xdc00))

/-- The characters of the pieces; `none` if a surrogate has no partner. -/
def joinPieces : List Piece → Option (List Char)
  | [] => some []
  | .char c :: rest => (joinPieces rest).map (c :: ·)
  | .unit u :: rest =>
    if isHighSurrogate u then
      -- The second of the pair must be the very next piece, and a unit too.
      match rest with
      | .unit v :: rest =>
        if isLowSurrogate v then (joinPieces rest).map (pairChar u v :: ·) else none
      | _ => none
    else if isLowSurrogate u then none
    else (joinPieces rest).map (Char.ofNat u :: ·)

/-! ### Writing -/

/-- A control character without a short escape, by its unit. -/
def unitEscape (c : Char) : List Char :=
  ['\\', 'u', '0', '0', Nat.digitChar (c.toNat / 16), Nat.digitChar (c.toNat % 16)]

/-- A character between quotes. -/
def escape : Char → List Char
  | '"' => ['\\', '"']
  | '\\' => ['\\', '\\']
  | '\x08' => ['\\', 'b']
  | '\x0c' => ['\\', 'f']
  | '\n' => ['\\', 'n']
  | '\r' => ['\\', 'r']
  | '\t' => ['\\', 't']
  | c => if c < ' ' then unitEscape c else [c]

/-- A text with its quotes. -/
def quote (cs : List Char) : List Char := '"' :: cs.flatMap escape ++ ['"']

/-! ### The text behind the closing quote -/

theorem length_readPieces {cs rest : List Char} {pieces : List Piece}
    (h : readPieces cs = some (pieces, rest)) : rest.length < cs.length := by
  fun_induction readPieces cs generalizing pieces rest with
  | case1 r =>
    obtain ⟨-, rfl⟩ := Prod.mk.inj (Option.some.inj h)
    simp
  | case2 a b c d r ih =>
    obtain ⟨v, -, h⟩ := Option.bind_eq_some_iff.1 h
    obtain ⟨⟨p, r'⟩, hr, h⟩ := Option.bind_eq_some_iff.1 h
    obtain ⟨-, rfl⟩ := Prod.mk.inj (Option.some.inj h)
    have := ih hr
    simp only [List.length_cons]
    omega
  | case3 e r _ ih =>
    obtain ⟨v, -, h⟩ := Option.bind_eq_some_iff.1 h
    obtain ⟨⟨p, r'⟩, hr, h⟩ := Option.bind_eq_some_iff.1 h
    obtain ⟨-, rfl⟩ := Prod.mk.inj (Option.some.inj h)
    have := ih hr
    simp only [List.length_cons]
    omega
  | case4 c r _ _ _ _ ih =>
    obtain ⟨⟨p, r'⟩, hr, h⟩ := Option.bind_eq_some_iff.1 h
    obtain ⟨-, rfl⟩ := Prod.mk.inj (Option.some.inj h)
    have := ih hr
    simp only [List.length_cons]
    omega
  | case5 => cases h
  | case6 => cases h

end ByteCensus.Json
