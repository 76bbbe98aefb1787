import ByteCensus.Address

/-!
# Spans

A span is a stretch of the address space: where it starts and how many bytes it has.  It is
half-open, so its `stop` is the first address behind it.

A span of size zero is a marker.  It still occupies the one address it marks, so that it can be
found and compared like any other span; `limit` is the exclusive end of what a span occupies, and
differs from `stop` for markers only.  Both stop at `Address.top`, hence no span occupies the
highest address and a marker there occupies nothing.

Membership `a ∈ s` is occupation, and the tests `Covers`, `Overlaps` and `position` are stated
with `limit`; `stop` decides what is adjacent and how far `hull` and `inter?` reach.
-/

namespace ByteCensus

/-- The addresses from `start` on for `size` bytes. -/
structure Span where
  start : Address
  /-- The number of bytes; zero for a marker. -/
  size : UInt64
deriving DecidableEq, Repr, Inhabited

namespace Span

/-! ### Ends -/

/-- The first address behind the bytes of the span. -/
def stop (s : Span) : Address := s.start.plus s.size

/-- The first address behind what the span occupies: a marker occupies the address it marks. -/
def limit (s : Span) : Address := if s.size = 0 then s.start.plus 1 else s.stop

/-- A marker has no bytes. -/
def isMarker (s : Span) : Bool := s.size == 0

/-- The span from `start` up to, not including, `stop`; `none` if `stop` lies before `start`. -/
def ofBounds? (start stop : Address) : Option Span :=
  if start ≤ stop then some ⟨start, stop - start⟩ else none

/-! ### What a span occupies -/

/-- `a ∈ s` says that the span occupies the address. -/
instance : Membership Address Span where
  mem s a := s.start ≤ a ∧ a < s.limit

instance (a : Address) (s : Span) : Decidable (a ∈ s) :=
  inferInstanceAs (Decidable (s.start ≤ a ∧ a < s.limit))

/-- All of `t` lies within `s`. -/
def Covers (s t : Span) : Prop := s.start ≤ t.start ∧ t.limit ≤ s.limit

instance (s t : Span) : Decidable (s.Covers t) :=
  inferInstanceAs (Decidable (_ ∧ _))

/-- Each span starts before the other one ends.  Spans that only touch do not overlap. -/
def Overlaps (s t : Span) : Prop := s.start < t.limit ∧ t.start < s.limit

instance (s t : Span) : Decidable (s.Overlaps t) :=
  inferInstanceAs (Decidable (_ ∧ _))

/-- One span starts exactly where the bytes of the other one end. -/
def Adjacent (s t : Span) : Prop := s.stop = t.start ∨ t.stop = s.start

instance (s t : Span) : Decidable (s.Adjacent t) :=
  inferInstanceAs (Decidable (_ ∨ _))

/-- Where `s` lies as seen from `query`: before it, behind it, or (`eq`) overlapping it. -/
def position (s query : Span) : Ordering :=
  if s.limit ≤ query.start then .lt
  else if query.limit ≤ s.start then .gt
  else .eq

/-! ### Combining spans -/

/-- The least span with the bytes of both. -/
def hull (s t : Span) : Span :=
  let start := min s.start t.start
  ⟨start, max s.stop t.stop - start⟩

/-- The bytes that both spans have; `none` if there are none. -/
def inter? (s t : Span) : Option Span :=
  let start := max s.start t.start
  let stop := min s.stop t.stop
  if start < stop then some ⟨start, stop - start⟩ else none

/-- A span is shown by its two ends, as in `[0x1000, 0x1010)`. -/
def display (s : Span) : String :=
  "[" ++ s.start.hex ++ ", " ++ s.stop.hex ++ ")"

/-! ### Ends and occupation in the natural numbers -/

theorem mem_def {a : Address} {s : Span} : a ∈ s ↔ s.start ≤ a ∧ a < s.limit := Iff.rfl

theorem toNat_stop (s : Span) :
    s.stop.toNat = min (s.start.toNat + s.size.toNat) 0xffffffffffffffff :=
  Address.toNat_plus s.start s.size

/-- A marker is one address wide, any other span is as wide as its bytes. -/
theorem toNat_limit (s : Span) :
    s.limit.toNat = min (s.start.toNat + max s.size.toNat 1) 0xffffffffffffffff := by
  by_cases h : s.size = 0
  · simp [limit, h, Address.toNat_plus]
  · have : s.size.toNat ≠ 0 := fun h' => h (UInt64.toNat_inj.1 h')
    rw [limit, if_neg h, toNat_stop]
    omega

theorem start_le_stop (s : Span) : s.start ≤ s.stop := Address.le_plus s.start s.size

theorem stop_le_limit (s : Span) : s.stop ≤ s.limit := by
  rw [UInt64.le_iff_toNat_le, toNat_stop, toNat_limit]
  omega

/-- A span occupies something, its start above all, unless it starts at the highest address. -/
theorem start_lt_limit_iff (s : Span) : s.start < s.limit ↔ s.start ≠ Address.top := by
  have h := s.start.toNat_lt
  rw [UInt64.lt_iff_toNat_lt, toNat_limit, ne_eq, ← UInt64.toNat_inj, Address.toNat_top]
  omega

theorem position_eq_eq_iff (s query : Span) : s.position query = .eq ↔ s.Overlaps query := by
  simp only [position, Overlaps]
  split
  · next h => simp [UInt64.not_lt.2 h]
  · next h =>
    split
    · next h' => simp [UInt64.not_lt.2 h']
    · next h' => simp [UInt64.not_le.1 h, UInt64.not_le.1 h']

end Span

end ByteCensus
