/-!
# Kinds of bytes

What the bytes in a stretch of a binary are.  Each kind has one `name`, used in messages and in
serialized form alike.  Parts that agree on their extent are listed by the alphabetical order of
these names; `rank` is the place of a kind in that order.
-/

namespace ByteCensus

/-- A classification of bytes. -/
inductive ByteKind where
  | unknown
  /-- Executable code. -/
  | text
  /-- Data and constants. -/
  | data
  /-- Type information that only debug information has. -/
  | debugType
deriving DecidableEq, Repr, Inhabited

namespace ByteKind

def all : List ByteKind := [unknown, text, data, debugType]

/-- The name under which a kind is shown and stored. -/
def name : ByteKind → String
  | unknown => "unknown"
  | text => "text"
  | data => "data"
  | debugType => "debug_type"

/-- The place of the kind among all kinds in the order of their names. -/
def rank : ByteKind → Nat
  | data => 0
  | debugType => 1
  | text => 2
  | unknown => 3

theorem mem_all (k : ByteKind) : k ∈ all := by
  cases k <;> decide

theorem rank_injective {a b : ByteKind} (h : a.rank = b.rank) : a = b := by
  revert h
  cases a <;> cases b <;> decide

/-- `rank` is the order of the names. -/
theorem rank_lt_rank_iff (a b : ByteKind) : a.rank < b.rank ↔ a.name < b.name := by
  cases a <;> cases b <;> decide

end ByteKind

end ByteCensus
