/-!
# Numerals

The numbers of JSON as they are written: an optional minus sign, a whole number without leading
zeros, then optionally a fraction and an exponent.  A numeral keeps its characters, since a value
that is only passed over must not lose anything by rounding.

* `Numeral.ofNat` writes a natural number and `Numeral.toNat?` reads one back: only digits make
  a natural number, so `1.0`, `1e2` and `-0` are none.
* `Numeral.whole`, `Numeral.fraction` and `Numeral.exponent` are the parts between the marks.
-/

namespace ByteCensus.Json

/-! ### The grammar -/

/-- At least one digit and nothing else. -/
def isDigits (cs : List Char) : Bool := !cs.isEmpty && cs.all Char.isDigit

/-- A zero, or digits that do not start with one. -/
def isWhole (cs : List Char) : Bool := cs == ['0'] || isDigits cs && cs.head? != some '0'

/-- The text without a sign in front. -/
def dropSign : List Char → List Char
  | '+' :: cs | '-' :: cs => cs
  | cs => cs

/-- Nothing, or an exponent. -/
def isExponent : List Char → Bool
  | [] => true
  | c :: cs => (c == 'e' || c == 'E') && isDigits (dropSign cs)

/-- Nothing, or a fraction, an exponent, or both. -/
def isFraction : List Char → Bool
  | '.' :: cs => isDigits (cs.takeWhile Char.isDigit) && isExponent (cs.dropWhile Char.isDigit)
  | cs => isExponent cs

/-- A number without a sign. -/
def isUnsigned (cs : List Char) : Bool :=
  isWhole (cs.takeWhile Char.isDigit) && isFraction (cs.dropWhile Char.isDigit)

/-- A number with or without a minus sign. -/
def isNumeral : List Char → Bool
  | '-' :: cs => isUnsigned cs
  | cs => isUnsigned cs

/-- A number as it is written. -/
structure Numeral where
  chars : List Char
  /-- They follow the grammar. -/
  isNumeral_chars : isNumeral chars = true
deriving DecidableEq, Repr

namespace Numeral

/-- The numeral with those characters. -/
def ofChars? (cs : List Char) : Option Numeral :=
  if h : isNumeral cs = true then some ⟨cs, h⟩ else none

/-! ### Natural numbers -/

theorem isDigit_of_mem_toDigits {n : Nat} {c : Char} (h : c ∈ Nat.toDigits 10 n) : c.isDigit :=
  Nat.isDigit_of_mem_toDigits (by decide) (by decide) h

/-- Only zero is written with a zero in front. -/
theorem head?_toDigits_ne {n : Nat} (h : 0 < n) : (Nat.toDigits 10 n).head? ≠ some '0' := by
  induction n using Nat.strongRecOn with
  | ind n ih =>
    by_cases small : n < 10
    · rw [Nat.toDigits_of_lt_base small]
      intro head
      have zero := congrArg Char.toNat (Option.some.inj head)
      rw [Nat.toNat_digitChar_of_lt_ten small] at zero
      simp at zero
      omega
    · have front := ih (n / 10) (by omega) (by omega)
      rw [Nat.toDigits_of_base_le (by decide) (by omega), List.head?_append]
      cases head : (Nat.toDigits 10 (n / 10)).head? with
      | none => exact absurd (List.head?_eq_none_iff.1 head) Nat.toDigits_ne_nil
      | some c => rwa [head] at front

theorem isWhole_toDigits (n : Nat) : isWhole (Nat.toDigits 10 n) = true := by
  rcases Nat.eq_zero_or_pos n with rfl | h
  · decide
  · have digits : (Nat.toDigits 10 n).all Char.isDigit = true :=
      List.all_eq_true.2 fun c hc => isDigit_of_mem_toDigits hc
    have filled : (Nat.toDigits 10 n).isEmpty = false := by
      simp
    have head := head?_toDigits_ne h
    simp [isWhole, isDigits, digits, filled, head]

theorem isNumeral_toDigits (n : Nat) : isNumeral (Nat.toDigits 10 n) = true := by
  have digits : ∀ c ∈ Nat.toDigits 10 n, Char.isDigit c = true :=
    fun c hc => isDigit_of_mem_toDigits hc
  have unsigned : isUnsigned (Nat.toDigits 10 n) = true := by
    have taken : (Nat.toDigits 10 n ++ []).takeWhile Char.isDigit = _ :=
      List.takeWhile_append_of_pos digits
    have dropped : (Nat.toDigits 10 n ++ []).dropWhile Char.isDigit = _ :=
      List.dropWhile_append_of_pos digits
    simp only [List.append_nil, List.takeWhile_nil, List.dropWhile_nil] at taken dropped
    simp [isUnsigned, taken, dropped, isWhole_toDigits, isFraction, isExponent]
  rw [isNumeral.eq_def]
  split
  · next cs h => exact absurd (digits '-' (h ▸ List.mem_cons_self)) (by decide)
  · exact unsigned

/-- The digits of a natural number. -/
def ofNat (n : Nat) : Numeral := ⟨Nat.toDigits 10 n, isNumeral_toDigits n⟩

/-- The natural number that is written, if only digits are. -/
def toNat? (n : Numeral) : Option Nat :=
  if n.chars.all Char.isDigit then some (Nat.ofDigitChars 10 n.chars 0) else none

@[simp] theorem toNat?_ofNat (n : Nat) : (ofNat n).toNat? = some n := by
  have digits : (Nat.toDigits 10 n).all Char.isDigit = true :=
    List.all_eq_true.2 fun c hc => isDigit_of_mem_toDigits hc
  simp only [toNat?, ofNat, digits, if_true]
  rw [Nat.ofDigitChars_toDigits (by decide) (by decide)]

/-! ### Parts -/

/-- The digits before the point. -/
def whole (n : Numeral) : List Char := (dropSign n.chars).takeWhile Char.isDigit

/-- The digits behind the point. -/
def fraction (n : Numeral) : List Char :=
  ((n.chars.dropWhile (· != '.')).drop 1).takeWhile Char.isDigit

/-- The exponent that is written, or zero. -/
def exponent (n : Numeral) : Int :=
  let written := (n.chars.dropWhile fun c => c != 'e' && c != 'E').drop 1
  let size : Int := Nat.ofDigitChars 10 (dropSign written) 0
  if written.head? = some '-' then -size else size

end Numeral

end ByteCensus.Json
