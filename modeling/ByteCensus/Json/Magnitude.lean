import ByteCensus.Json.Numeral

/-!
# The magnitude of numerals

A numeral that is held becomes a double, and there has to be one.  The conversion is the quick one
in three steps, each of which may round:

* `Numeral.scaled` reads the digits as a whole number below `2 ^ 64`, to be scaled by a power of
  ten.  Digits that do not fit any more count as zeros.
* That number and the power of ten become doubles of their own (`roundToDouble`).
* Their product becomes a double.

So the result may be a few units off the nearest double, and close to the largest one it is the
conversion, not the number itself, that decides whether it is finite.  `Numeral.isFinite` says
whether it is, in exact arithmetic; the sign does not matter, and small numbers become zero.
-/

namespace ByteCensus.Json

/-! ### Significands of 64 bits -/

/-- Puts digits behind a number one by one, as long as it stays below `2 ^ 64`, and returns it with
the digits left over. -/
def appendDigits (n : Nat) : List Char → Nat × List Char
  | [] => (n, [])
  | c :: cs =>
    let next := 10 * n + (c.toNat - '0'.toNat)
    if next < UInt64.size then appendDigits next cs else (n, c :: cs)

theorem appendDigits_lt {n : Nat} (h : n < UInt64.size) (cs : List Char) :
    (appendDigits n cs).1 < UInt64.size := by
  fun_induction appendDigits n cs with
  | case1 n => exact h
  | case2 n c cs next fits ih => exact ih fits
  | case3 n c cs next full => exact h

/-- The digits left over are the last ones. -/
theorem appendDigits_suffix (n : Nat) (cs : List Char) : (appendDigits n cs).2 <:+ cs := by
  fun_induction appendDigits n cs with
  | case1 n => exact List.suffix_refl []
  | case2 n c cs next fits ih => exact ih.trans (List.suffix_cons c cs)
  | case3 n c cs next full => exact List.suffix_refl (c :: cs)

/-! ### Doubles -/

/-- The nearest number that has 53 binary digits and then zeros.  Half-way between two it is the one
with the even digit. -/
def roundToDouble (n : Nat) : Nat :=
  let unit := 1 <<< (n.log2 - 52)
  let quotient := n / unit
  let rest := n % unit
  if unit < 2 * rest ∨ unit = 2 * rest ∧ quotient % 2 = 1 then (quotient + 1) * unit
  else quotient * unit

/-- The least number that rounds to infinity: half-way between the largest double and the next
power of two. -/
def roundsToInfinity : Nat := 1 <<< 1024 - 1 <<< 970

/-- Numbers of up to 53 binary digits are doubles already. -/
theorem roundToDouble_of_lt {n : Nat} (h : n.log2 < 53) : roundToDouble n = n := by
  have small : n.log2 - 52 = 0 := by omega
  simp [roundToDouble, small, Nat.mod_one]

namespace Numeral

/-- The number as a whole number below `2 ^ 64` and the power of ten it is scaled by.  Once a digit
before the point is left over, so are all up to the point, and each raises the power; the fraction
then starts anew with what room there is. -/
def scaled (n : Numeral) : Nat × Int :=
  let (front, cut) := appendDigits 0 n.whole
  let (significand, ignored) := appendDigits front n.fraction
  (significand, n.exponent + cut.length + ignored.length - n.fraction.length)

/-- The double that the number becomes is finite. -/
def isFinite (n : Numeral) : Bool :=
  let (significand, scale) := n.scaled
  if significand = 0 ∨ scale ≤ 0 then true
  -- The largest power of ten among the doubles has the exponent 308.
  else if 308 < scale then false
  else roundToDouble significand * roundToDouble (Nat.pow 10 scale.toNat) < roundsToInfinity

end Numeral

end ByteCensus.Json
