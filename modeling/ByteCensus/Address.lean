/-!
# Addresses

An address is a 64-bit word, and so is a size in bytes.  Adding a size to an address never wraps:
`Address.plus` stops at the highest address, so the end of a range is always at or above its
start.  `Address.hex` is the notation in which addresses and sizes appear in messages, lower-case
hexadecimal without leading zeros after `0x`.

`toNat` is the view of an address: `toNat_plus` says that `plus` is addition cut off at `top`.
-/

namespace ByteCensus

/-- A position in the address space of a binary, or a number of bytes. -/
abbrev Address := UInt64

namespace Address

/-- The highest address, at which every sum stops. -/
def top : Address := 0xffffffffffffffff

/-- The address `size` bytes above `start`, or `top` if there is none. -/
def plus (start size : Address) : Address :=
  let sum := start + size
  -- A sum that wraps around is less than its terms.
  if sum < start then top else sum

/-- The number in lower-case hexadecimal, after `0x`. -/
def hex (a : Address) : String :=
  "0x" ++ String.ofList (Nat.toDigits 16 a.toNat)

/-! ### Addition in the natural numbers -/

@[simp] theorem toNat_top : top.toNat = 0xffffffffffffffff := rfl

theorem toNat_le_top (a : Address) : a.toNat ≤ 0xffffffffffffffff := by
  have := a.toNat_lt
  omega

/-- `plus` adds, and stops at `top`. -/
theorem toNat_plus (start size : Address) :
    (plus start size).toNat = min (start.toNat + size.toNat) 0xffffffffffffffff := by
  have hs := start.toNat_lt
  have hz := size.toNat_lt
  simp only [plus, UInt64.lt_iff_toNat_lt, UInt64.toNat_add]
  split
  · rw [toNat_top]; omega
  · rw [UInt64.toNat_add]; omega

theorem le_plus (start size : Address) : start ≤ plus start size := by
  have := start.toNat_lt
  rw [UInt64.le_iff_toNat_le, toNat_plus]
  omega

/-! ### The lower and the higher of two addresses -/

theorem toNat_min (a b : Address) : (min a b).toNat = min a.toNat b.toNat := by
  show (if a ≤ b then a else b).toNat = _
  split
  · next h => rw [UInt64.le_iff_toNat_le] at h; omega
  · next h => rw [UInt64.le_iff_toNat_le] at h; omega

theorem toNat_max (a b : Address) : (max a b).toNat = max a.toNat b.toNat := by
  show (if a ≤ b then b else a).toNat = _
  split
  · next h => rw [UInt64.le_iff_toNat_le] at h; omega
  · next h => rw [UInt64.le_iff_toNat_le] at h; omega

end Address

end ByteCensus
