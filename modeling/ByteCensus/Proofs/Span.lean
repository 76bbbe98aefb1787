import ByteCensus.Span

/-!
# Occupation and hulls of spans

The tests on spans are comparisons of ends.  This module ties them to the addresses that spans
occupy: `overlaps_iff_exists_mem` says that two spans overlap iff they share an address, and
`mem_hull_iff` what the hull of two spans occupies.  It owes to the span that starts first all that
this occupies, and to the other one its bytes.

The hull of two spans that touch occupies nothing else than they do (`mem_of_mem_hull`), and loses
at most one address: that of a marker which stands exactly at the end of a span with bytes
(`limit_le_limit_hull_right` has that case as its only exception).

`tests_agree_with_occupied` says of all tests together what they mean for the addresses.

All arithmetic is done in the natural numbers, through `toNat_stop` and `toNat_limit`.
-/

namespace ByteCensus.Span

variable {s t : Span}

/-! ### Order of the ends -/

theorem start_le_limit (s : Span) : s.start ≤ s.limit :=
  UInt64.le_trans s.start_le_stop s.stop_le_limit

/-- A span whose start is below some address occupies its start. -/
theorem start_lt_limit_of_lt {a : Address} (h : s.start < a) : s.start < s.limit := by
  rw [start_lt_limit_iff]
  intro htop
  rw [htop, UInt64.lt_iff_toNat_lt, Address.toNat_top] at h
  have := a.toNat_le_top
  omega

theorem toNat_limit_of_marker (h : s.size = 0) :
    s.limit.toNat = min (s.start.toNat + 1) 0xffffffffffffffff := by
  rw [toNat_limit, h]
  rfl

theorem le_start_of_lt_limit {a : Address} (hz : s.size = 0) (h : a < s.limit) : a ≤ s.start := by
  rw [UInt64.lt_iff_toNat_lt, toNat_limit_of_marker hz] at h
  rw [UInt64.le_iff_toNat_le]
  omega

theorem limit_le_of_start_lt {a : Address} (hz : s.size = 0) (h : s.start < a) : s.limit ≤ a := by
  rw [UInt64.lt_iff_toNat_lt] at h
  rw [UInt64.le_iff_toNat_le, toNat_limit_of_marker hz]
  omega

theorem stop_eq_start_of_marker (h : s.size = 0) : s.stop = s.start := by
  have := s.start.toNat_lt
  rw [← UInt64.toNat_inj, toNat_stop, h]
  simp only [UInt64.toNat_zero]
  omega

theorem limit_eq_stop_of_sized (h : s.size ≠ 0) : s.limit = s.stop := by
  rw [limit, if_neg h]

/-- Where a span starts and stops determines what it occupies. -/
theorem limit_congr (hstart : s.start = t.start) (hstop : s.stop = t.stop) : s.limit = t.limit := by
  rw [← UInt64.toNat_inj, toNat_stop, toNat_stop, hstart] at hstop
  rw [← UInt64.toNat_inj, toNat_limit, toNat_limit, hstart]
  omega

theorem le_stop_of_lt_limit {a : Address} (h : a < s.limit) : a ≤ s.stop := by
  by_cases hz : s.size = 0
  · rw [stop_eq_start_of_marker hz]
    exact le_start_of_lt_limit hz h
  · rw [limit_eq_stop_of_sized hz] at h
    exact UInt64.le_of_lt h

theorem sized_of_start_lt_stop (h : s.start < s.stop) : s.size ≠ 0 := by
  intro hz
  rw [stop_eq_start_of_marker hz, UInt64.lt_iff_toNat_lt] at h
  omega

/-! ### Overlapping -/

theorem overlaps_comm : s.Overlaps t ↔ t.Overlaps s := And.comm

theorem overlaps_iff_exists_mem : s.Overlaps t ↔ ∃ a, a ∈ s ∧ a ∈ t := by
  constructor
  · rintro ⟨hst, hts⟩
    -- The later of the two starts is in both.
    rcases UInt64.le_total s.start t.start with hle | hle
    · exact ⟨t.start, ⟨hle, hts⟩, UInt64.le_refl _, start_lt_limit_of_lt hts⟩
    · exact ⟨s.start, ⟨UInt64.le_refl _, start_lt_limit_of_lt hst⟩, hle, hst⟩
  · rintro ⟨a, hs, ht⟩
    exact ⟨UInt64.lt_of_le_of_lt hs.1 ht.2, UInt64.lt_of_le_of_lt ht.1 hs.2⟩

/-- Of two spans that do not overlap, the one that starts first ends before the other starts. -/
theorem limit_le_start_of_not_overlaps (hle : s.start ≤ t.start) (h : ¬ s.Overlaps t) :
    s.limit ≤ t.start := by
  rw [← UInt64.not_lt]
  intro hlt
  exact h ⟨UInt64.lt_of_le_of_lt hle (start_lt_limit_of_lt hlt), hlt⟩

theorem not_overlaps_of_limit_le_start (h : s.limit ≤ t.start) : ¬ s.Overlaps t := by
  intro hover
  exact UInt64.not_lt.2 h hover.2

theorem position_eq_lt_iff : s.position t = .lt ↔ s.limit ≤ t.start := by
  unfold position
  split
  · next h => simp [h]
  · next h => split <;> simp [h]

theorem position_eq_gt_iff : s.position t = .gt ↔ t.start < s.limit ∧ t.limit ≤ s.start := by
  unfold position
  split
  · next h => simp [UInt64.not_lt.2 h]
  · next h => split <;> simp_all

/-- What overlaps a span overlaps every span that covers it. -/
theorem Covers.overlaps {r : Span} (hc : s.Covers t) (h : t.Overlaps r) : s.Overlaps r := by
  constructor
  · exact UInt64.lt_of_le_of_lt hc.1 h.1
  · exact UInt64.lt_of_lt_of_le h.2 hc.2

theorem Covers.mem {a : Address} (hc : s.Covers t) (h : a ∈ t) : a ∈ s :=
  ⟨UInt64.le_trans hc.1 h.1, UInt64.lt_of_lt_of_le h.2 hc.2⟩

/-- Of two spans with the same start the larger one covers the other. -/
theorem covers_of_size_le (hstart : s.start = t.start) (hsize : t.size ≤ s.size) :
    s.Covers t := by
  refine ⟨UInt64.le_of_eq hstart, ?_⟩
  rw [UInt64.le_iff_toNat_le] at hsize ⊢
  rw [toNat_limit, toNat_limit, hstart]
  omega

/-! ### The hull of two spans, the first of which starts first -/

theorem start_hull (hle : s.start ≤ t.start) : (s.hull t).start = s.start :=
  if_pos hle

/-- The hull has room up to the later of the two ends. -/
theorem toNat_size_hull (hle : s.start ≤ t.start) :
    (s.hull t).size.toNat = max s.stop.toNat t.stop.toNat - s.start.toNat := by
  have hmax := Address.toNat_max s.stop t.stop
  have hstart : s.start.toNat ≤ s.stop.toNat := UInt64.le_iff_toNat_le.1 s.start_le_stop
  show (max s.stop t.stop - (s.hull t).start).toNat = _
  -- The difference of the ends does not wrap around.
  rw [start_hull hle, UInt64.toNat_sub_of_le _ _ (UInt64.le_iff_toNat_le.2 (by omega)), hmax]

/-- The hull ends where the later of the two ends. -/
theorem toNat_stop_hull (hle : s.start ≤ t.start) :
    (s.hull t).stop.toNat = max s.stop.toNat t.stop.toNat := by
  have hstart : s.start.toNat ≤ s.stop.toNat := UInt64.le_iff_toNat_le.1 s.start_le_stop
  have hs := s.stop.toNat_le_top
  have ht := t.stop.toNat_le_top
  rw [toNat_stop, start_hull hle, toNat_size_hull hle]
  omega

theorem stop_le_stop_hull_left (hle : s.start ≤ t.start) : s.stop ≤ (s.hull t).stop := by
  rw [UInt64.le_iff_toNat_le, toNat_stop_hull hle]
  omega

theorem stop_le_stop_hull_right (hle : s.start ≤ t.start) : t.stop ≤ (s.hull t).stop := by
  rw [UInt64.le_iff_toNat_le, toNat_stop_hull hle]
  omega

theorem stop_hull_of_le (hle : s.start ≤ t.start) (h : t.stop ≤ s.stop) :
    (s.hull t).stop = s.stop := by
  rw [UInt64.le_iff_toNat_le] at h
  rw [← UInt64.toNat_inj, toNat_stop_hull hle, Nat.max_eq_left h]

theorem stop_hull_of_ge (hle : s.start ≤ t.start) (h : s.stop ≤ t.stop) :
    (s.hull t).stop = t.stop := by
  rw [UInt64.le_iff_toNat_le] at h
  rw [← UInt64.toNat_inj, toNat_stop_hull hle, Nat.max_eq_right h]

/-- Of the span that starts first the hull has what it occupies, of the other one the bytes. -/
theorem toNat_limit_hull (hle : s.start ≤ t.start) :
    (s.hull t).limit.toNat = max s.limit.toNat t.stop.toNat := by
  have hs := toNat_stop s
  have hsl := toNat_limit s
  have hsize := toNat_size_hull hle
  have ht := t.stop.toNat_le_top
  rw [toNat_limit, start_hull hle]
  omega

theorem limit_le_limit_hull_left (hle : s.start ≤ t.start) : s.limit ≤ (s.hull t).limit := by
  rw [UInt64.le_iff_toNat_le, toNat_limit_hull hle]
  exact Nat.le_max_left _ _

/-- The hull occupies what the second span does, unless that is a marker behind the first. -/
theorem limit_le_limit_hull_right (hle : s.start ≤ t.start)
    (h : t.size ≠ 0 ∨ t.limit ≤ s.limit) : t.limit ≤ (s.hull t).limit := by
  rcases h with h | h
  · rw [limit_eq_stop_of_sized h, UInt64.le_iff_toNat_le, toNat_limit_hull hle]
    exact Nat.le_max_right _ _
  · exact UInt64.le_trans h (limit_le_limit_hull_left hle)

theorem mem_hull_iff {a : Address} (hle : s.start ≤ t.start) :
    a ∈ s.hull t ↔ s.start ≤ a ∧ (a < s.limit ∨ a < t.stop) := by
  have hlimit : a < (s.hull t).limit ↔ a < s.limit ∨ a < t.stop := by
    simp only [UInt64.lt_iff_toNat_lt, toNat_limit_hull hle]
    omega
  rw [mem_def, start_hull hle, hlimit]

theorem mem_hull_left {a : Address} (hle : s.start ≤ t.start) (h : a ∈ s) : a ∈ s.hull t :=
  (mem_hull_iff hle).2 ⟨h.1, .inl h.2⟩

/-- The spans leave no gap: the second starts within the first, or exactly at its end. -/
def Touches (s t : Span) : Prop := s.Overlaps t ∨ t.start = s.stop

instance (s t : Span) : Decidable (s.Touches t) :=
  inferInstanceAs (Decidable (_ ∨ _))

theorem Touches.start_le_stop (h : s.Touches t) : t.start ≤ s.stop := by
  rcases h with hover | hstop
  · exact le_stop_of_lt_limit hover.2
  · exact UInt64.le_of_eq hstop

/-- The hull of two touching spans occupies nothing else than they do, and owes to the second one
only what its bytes occupy. -/
theorem mem_of_mem_hull {a : Address} (hle : s.start ≤ t.start) (htouch : s.Touches t)
    (h : a ∈ s.hull t) : a ∈ s ∨ t.size ≠ 0 ∧ a ∈ t := by
  obtain ⟨hstart, hends⟩ := (mem_hull_iff hle).1 h
  by_cases hs : a < s.limit
  · exact .inl ⟨hstart, hs⟩
  have ht : a < t.stop := hends.resolve_left hs
  rw [UInt64.not_lt] at hs
  -- Behind what `s` occupies, the hull can only be where `t` is.
  have hts : t.start ≤ a := by
    rcases htouch with hover | hstop
    · exact UInt64.le_of_lt (UInt64.lt_of_lt_of_le hover.2 hs)
    · exact hstop ▸ UInt64.le_trans s.stop_le_limit hs
  exact .inr ⟨sized_of_start_lt_stop (UInt64.lt_of_le_of_lt hts ht), hts,
    UInt64.lt_of_lt_of_le ht t.stop_le_limit⟩

/-- Spans that touch without overlapping meet at an end behind the start of the first one. -/
theorem start_lt_stop_of_touches (hle : s.start ≤ t.start) (htouch : s.Touches t)
    (hover : ¬ s.Overlaps t) (ht : t.start < t.limit) :
    s.start < s.stop ∧ t.start = s.stop := by
  have hstop := htouch.resolve_left hover
  refine ⟨?_, hstop⟩
  have hocc := start_lt_limit_of_lt (UInt64.lt_of_le_of_lt hle ht)
  exact hstop ▸ UInt64.lt_of_lt_of_le hocc (limit_le_start_of_not_overlaps hle hover)

/-! ### The tests on any two spans -/

/-- A span occupies its bytes, or its start if it has none, but never the highest address. -/
theorem mem_iff_toNat {a : Address} : a ∈ s ↔
    s.start.toNat ≤ a.toNat ∧ a.toNat < s.start.toNat + max s.size.toNat 1 ∧ a ≠ Address.top := by
  have ha := a.toNat_le_top
  rw [mem_def, UInt64.le_iff_toNat_le, UInt64.lt_iff_toNat_lt, toNat_limit, ne_eq,
    ← UInt64.toNat_inj, Address.toNat_top]
  omega

/-- A span that occupies anything occupies its start. -/
theorem start_mem_of_mem {a : Address} (h : a ∈ s) : s.start ∈ s :=
  ⟨UInt64.le_refl _, UInt64.lt_of_le_of_lt h.1 h.2⟩

theorem lt_of_limit_le_start {a b : Address} (h : s.limit ≤ t.start) (ha : a ∈ s) (hb : b ∈ t) :
    a < b :=
  UInt64.lt_of_lt_of_le ha.2 (UInt64.le_trans h hb.1)

/-- What occupies something is covered by every span that occupies all of it. -/
theorem covers_of_forall_mem (hsome : ∃ a, a ∈ t) (h : ∀ a ∈ t, a ∈ s) : s.Covers t := by
  obtain ⟨a, ha⟩ := hsome
  have hstart : t.start ∈ s := h t.start (start_mem_of_mem ha)
  refine ⟨hstart.1, UInt64.not_lt.1 fun hlimit => ?_⟩
  -- Else `t` would reach the limit of `s`, which `s` does not occupy.
  have hmem : s.limit ∈ t := ⟨UInt64.le_of_lt hstart.2, hlimit⟩
  exact UInt64.lt_irrefl _ (h s.limit hmem).2

/-- Two spans lie before each other only where both occupy nothing. -/
theorem limit_le_start_both_iff : s.limit ≤ t.start ∧ t.limit ≤ s.start ↔
    s.start = Address.top ∧ t.start = Address.top := by
  have hs := s.start.toNat_le_top
  have ht := t.start.toNat_le_top
  simp only [UInt64.le_iff_toNat_le, toNat_limit, ← UInt64.toNat_inj, Address.toNat_top]
  omega

/-- Seen from the other one a span lies the other way round. -/
theorem position_eq_swap_iff : t.position s = (s.position t).swap ↔
    ¬ (s.start = Address.top ∧ t.start = Address.top) := by
  rw [← limit_le_start_both_iff]
  unfold position
  by_cases hst : s.limit ≤ t.start
  · by_cases hts : t.limit ≤ s.start <;> simp [hst, hts]
  · by_cases hts : t.limit ≤ s.start <;> simp [hst, hts]

/-- **The tests on spans agree with the addresses that they occupy**, whatever the two spans.

* A span occupies its bytes below the highest address, and a marker its start.
* Spans overlap iff an address is in both, and that is what `eq` as a position says.
* A span that lies before another one has its addresses below those of the other; behind, above.
* Seen from the other one the position is the reverse, unless both start at the highest address,
  where neither occupies anything.
* A span that covers another one occupies all that it does, and conversely if that is anything. -/
theorem tests_agree_with_occupied (s t : Span) :
    (∀ a, a ∈ s ↔ s.start.toNat ≤ a.toNat ∧ a.toNat < s.start.toNat + max s.size.toNat 1 ∧
      a ≠ Address.top) ∧
    (s.Overlaps t ↔ ∃ a, a ∈ s ∧ a ∈ t) ∧
    (s.position t = .eq ↔ s.Overlaps t) ∧
    (s.position t = .lt → ∀ a ∈ s, ∀ b ∈ t, a < b) ∧
    (s.position t = .gt → ∀ a ∈ s, ∀ b ∈ t, b < a) ∧
    (t.position s = (s.position t).swap ↔ ¬ (s.start = Address.top ∧ t.start = Address.top)) ∧
    (s.Covers t → ∀ a ∈ t, a ∈ s) ∧
    ((∃ a, a ∈ t) → (∀ a ∈ t, a ∈ s) → s.Covers t) := by
  refine ⟨fun a => mem_iff_toNat, overlaps_iff_exists_mem, position_eq_eq_iff s t, ?_, ?_,
    position_eq_swap_iff, fun hcovers a => hcovers.mem, covers_of_forall_mem⟩
  · intro hlt a ha b hb
    exact lt_of_limit_le_start (position_eq_lt_iff.1 hlt) ha hb
  · intro hgt a ha b hb
    exact lt_of_limit_le_start (position_eq_gt_iff.1 hgt).2 hb ha

/-- At the end of the address space: a span that is cut off there, one that it touches, a marker
that it covers, and a marker that occupies nothing. -/
theorem tests_agree_with_occupied_at_top :
    let body : Span := ⟨0xffffffffffffffe0, 0x10⟩
    let tail : Span := ⟨0xfffffffffffffff0, 0x20⟩
    let marker : Span := ⟨0xfffffffffffffffe, 0⟩
    let last : Span := ⟨Address.top, 0⟩
    body.position tail = .lt ∧ (∀ a ∈ body, ∀ b ∈ tail, a < b) ∧
      tail.position body = .gt ∧ (∀ a ∈ tail, ∀ b ∈ body, b < a) ∧
      (∃ a, a ∈ marker) ∧ (∀ a ∈ marker, a ∈ tail) ∧ tail.Covers marker ∧
      ¬ tail.Overlaps last ∧ last.position last ≠ (last.position last).swap := by
  intro body tail marker last
  obtain ⟨-, -, -, hbefore, -, hswap, -, -⟩ := tests_agree_with_occupied body tail
  obtain ⟨-, -, -, -, hbehind, -, -, -⟩ := tests_agree_with_occupied tail body
  obtain ⟨-, -, -, -, -, -, hmem, hcovers⟩ := tests_agree_with_occupied tail marker
  obtain ⟨-, -, -, -, -, hswap', -, -⟩ := tests_agree_with_occupied last last
  have hlt : body.position tail = .lt := by decide
  have hgt : tail.position body = .gt := by
    rw [hswap.2 (by decide), hlt]
    rfl
  have hcovered : ∀ a ∈ marker, a ∈ tail := hmem (by decide)
  have hsome : ∃ a, a ∈ marker := ⟨marker.start, by decide⟩
  refine ⟨hlt, hbefore hlt, hgt, hbehind hgt, hsome, hcovered, hcovers hsome hcovered, by decide,
    ?_⟩
  intro hsame
  exact hswap'.1 hsame ⟨rfl, rfl⟩

end ByteCensus.Span
