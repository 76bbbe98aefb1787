import ByteCensus.Proofs.Span
import Mathlib.Tactic.WLOG

/-!
# Hull and intersection of any two spans

`hull` and `inter?` compute with `stop`, hence with the bytes of spans; membership, `Covers` and
`Overlaps` are stated with `limit`, hence with what spans occupy.  The two views differ for
markers, which occupy an address and have no bytes:

* a hull loses the marker that stands behind the other span (`MarksBehind`) and nothing else
  (`mem_hull_left_iff`, `mem_hull_right_iff`);
* an intersection with a marker is empty, even where the marker overlaps the other span
  (`isSome_inter?_iff`).

`hull_and_inter_up_to_markers` says so for any two spans, in any order, and
`hull_and_inter_miss_markers` has a span and two markers for which the views come apart.

Hulls are told by `mem_hull_iff` and, as `hull_comm` says, without regard to which of the two spans
starts first; intersections by `bounds_of_inter?`.
-/

namespace ByteCensus.Span

variable {s t r : Span} {a : Address}

/-! ### What a hull occupies -/

theorem hull_comm (s t : Span) : s.hull t = t.hull s := by
  have hstart : min s.start t.start = min t.start s.start := by
    rw [← UInt64.toNat_inj, Address.toNat_min, Address.toNat_min, Nat.min_comm]
  have hstop : max s.stop t.stop = max t.stop s.stop := by
    rw [← UInt64.toNat_inj, Address.toNat_max, Address.toNat_max, Nat.max_comm]
  unfold hull
  rw [hstart, hstop]

/-- The span `t` is a marker that stands behind the start of `s` and behind all bytes of `s`. -/
def MarksBehind (t s : Span) : Prop := t.size = 0 ∧ s.start < t.start ∧ s.stop ≤ t.start

instance (t s : Span) : Decidable (t.MarksBehind s) :=
  inferInstanceAs (Decidable (_ ∧ _))

/-- What a marker occupies is its start. -/
theorem eq_start_of_mem (hz : s.size = 0) (ha : a ∈ s) : a = s.start :=
  UInt64.le_antisymm (le_start_of_lt_limit hz ha.2) ha.1

/-- A marker that does not stand before a span lies within it or behind it. -/
theorem start_lt_limit_iff_of_marker (hz : t.size = 0) (ha : t.start ∈ t)
    (hle : s.start ≤ t.start) : t.start < s.limit ↔ ¬ t.MarksBehind s := by
  have hlimit := toNat_limit s
  have hstop := toNat_stop s
  -- At the highest address the marker would be behind every span and yet occupy nothing.
  have htop : t.start ≠ Address.top := (start_lt_limit_iff t).1 ha.2
  have := t.start.toNat_le_top
  rw [ne_eq, ← UInt64.toNat_inj, Address.toNat_top] at htop
  rw [UInt64.le_iff_toNat_le] at hle
  simp only [MarksBehind, hz, true_and, not_and, UInt64.lt_iff_toNat_lt, UInt64.le_iff_toNat_le]
  omega

/-- The hull occupies what the second span does, unless that is a marker behind the first. -/
theorem mem_hull_right_iff (ha : a ∈ t) : a ∈ s.hull t ↔ ¬ t.MarksBehind s := by
  rcases UInt64.le_total s.start t.start with hle | hle
  · have hstart : s.start ≤ a := UInt64.le_trans hle ha.1
    rw [mem_hull_iff hle]
    by_cases hz : t.size = 0
    · -- A marker has no byte that would bring it into the hull.
      obtain rfl := eq_start_of_mem hz ha
      rw [← start_lt_limit_iff_of_marker hz ha hle, stop_eq_start_of_marker hz]
      simp [hstart, UInt64.lt_irrefl]
    · have hstop : a < t.stop := limit_eq_stop_of_sized hz ▸ ha.2
      simp [hstart, hstop, MarksBehind, hz]
  · -- The span that starts first loses nothing, marker or not.
    have hfirst : ¬ t.MarksBehind s := fun h => UInt64.not_lt.2 hle h.2.1
    rw [hull_comm]
    exact iff_of_true (mem_hull_left hle ha) hfirst

theorem mem_hull_left_iff (ha : a ∈ s) : a ∈ s.hull t ↔ ¬ s.MarksBehind t := by
  rw [hull_comm]
  exact mem_hull_right_iff ha

/-- A hull is the least: what covers both spans covers it. -/
theorem Covers.hull (hs : r.Covers s) (ht : r.Covers t) : r.Covers (s.hull t) := by
  wlog hle : s.start ≤ t.start generalizing s t
  · rw [hull_comm]
    exact this ht hs ((UInt64.le_total s.start t.start).resolve_left hle)
  have hstop : t.stop ≤ r.limit := UInt64.le_trans t.stop_le_limit ht.2
  refine ⟨start_hull hle ▸ hs.1, ?_⟩
  rw [UInt64.le_iff_toNat_le, toNat_limit_hull hle]
  exact Nat.max_le.2 ⟨UInt64.le_iff_toNat_le.1 hs.2, UInt64.le_iff_toNat_le.1 hstop⟩

/-! ### What an intersection occupies -/

theorem stop_of_bounds {start stop : Address} (h : start ≤ stop) :
    (⟨start, stop - start⟩ : Span).stop = stop := by
  have hsub := UInt64.toNat_sub_of_le _ _ h
  have hstop := stop.toNat_le_top
  rw [UInt64.le_iff_toNat_le] at h
  rw [← UInt64.toNat_inj, toNat_stop]
  show min (start.toNat + (stop - start).toNat) _ = _
  omega

/-- An intersection reaches from the later start to the earlier end. -/
theorem bounds_of_inter? (h : s.inter? t = some r) :
    r.start = max s.start t.start ∧ r.stop = min s.stop t.stop ∧ r.start < r.stop := by
  unfold inter? at h
  dsimp only at h
  split at h
  · next hlt =>
    obtain rfl := Option.some.inj h
    have hstop := stop_of_bounds (UInt64.le_of_lt hlt)
    exact ⟨rfl, hstop, hstop.symm ▸ hlt⟩
  · cases h

theorem max_start_lt_min_stop_iff : max s.start t.start < min s.stop t.stop ↔
    s.Overlaps t ∧ s.size ≠ 0 ∧ t.size ≠ 0 := by
  rw [UInt64.lt_iff_toNat_lt, Address.toNat_max, Address.toNat_min, Nat.max_lt, Nat.lt_min,
    Nat.lt_min]
  simp only [← UInt64.lt_iff_toNat_lt]
  constructor
  · rintro ⟨⟨hs, hst⟩, hts, ht⟩
    exact ⟨⟨UInt64.lt_of_lt_of_le hst t.stop_le_limit, UInt64.lt_of_lt_of_le hts s.stop_le_limit⟩,
      sized_of_start_lt_stop hs, sized_of_start_lt_stop ht⟩
  · rintro ⟨⟨hst, hts⟩, hs, ht⟩
    -- Spans that overlap occupy their starts, which for spans with bytes is to have some there.
    have hss := start_lt_limit_of_lt hst
    have htt := start_lt_limit_of_lt hts
    rw [limit_eq_stop_of_sized hs] at hss hts
    rw [limit_eq_stop_of_sized ht] at hst htt
    exact ⟨⟨hss, hst⟩, hts, htt⟩

/-- Two spans have an intersection iff they overlap and both have bytes. -/
theorem isSome_inter?_iff : (s.inter? t).isSome ↔ s.Overlaps t ∧ s.size ≠ 0 ∧ t.size ≠ 0 := by
  rw [← max_start_lt_min_stop_iff]
  unfold inter?
  dsimp only
  split
  · next hlt => simp [hlt]
  · next hlt => simp [hlt]

/-- The intersection occupies what both spans do. -/
theorem mem_of_inter? (h : s.inter? t = some r) : a ∈ r ↔ a ∈ s ∧ a ∈ t := by
  obtain ⟨-, hs, ht⟩ := isSome_inter?_iff.1 (Option.isSome_of_eq_some h)
  obtain ⟨hstart, hstop, hlt⟩ := bounds_of_inter? h
  rw [← UInt64.toNat_inj, Address.toNat_max] at hstart
  rw [← UInt64.toNat_inj, Address.toNat_min] at hstop
  -- All three have bytes, and occupy no more than these.
  simp only [mem_def, limit_eq_stop_of_sized hs, limit_eq_stop_of_sized ht,
    limit_eq_stop_of_sized (sized_of_start_lt_stop hlt), UInt64.le_iff_toNat_le,
    UInt64.lt_iff_toNat_lt]
  omega

/-! ### Both, for any two spans -/

/-- **Hulls and intersections agree with the addresses that spans occupy, up to markers.**

* The hull occupies all that either span does, other than a marker behind the other span.
* It is the least such span: what covers both spans covers it.
* There is an intersection iff the spans overlap and neither of them is a marker.
* An intersection occupies exactly the addresses that both spans do. -/
theorem hull_and_inter_up_to_markers (s t : Span) :
    (∀ a ∈ s, a ∈ s.hull t ↔ ¬ s.MarksBehind t) ∧
    (∀ a ∈ t, a ∈ s.hull t ↔ ¬ t.MarksBehind s) ∧
    (∀ r : Span, r.Covers s → r.Covers t → r.Covers (s.hull t)) ∧
    ((s.inter? t).isSome ↔ s.Overlaps t ∧ s.size ≠ 0 ∧ t.size ≠ 0) ∧
    (∀ r, s.inter? t = some r → ∀ a, a ∈ r ↔ a ∈ s ∧ a ∈ t) := by
  refine ⟨fun a ha => mem_hull_left_iff ha, fun a ha => mem_hull_right_iff ha, ?_,
    isSome_inter?_iff, fun r hr a => mem_of_inter? hr⟩
  intro r hs ht
  exact hs.hull ht

/-- At the end of the address space: two spans that share bytes, of which the second is cut off
there, and a marker behind the bytes of the first. -/
theorem hull_and_inter_up_to_markers_at_top :
    let body : Span := ⟨0xffffffffffffffe0, 0x18⟩
    let tail : Span := ⟨0xfffffffffffffff0, 0x20⟩
    let marker : Span := ⟨0xfffffffffffffff8, 0⟩
    let shared : Span := ⟨0xfffffffffffffff0, 8⟩
    (∀ a ∈ body, a ∈ body.hull tail) ∧ (∀ a ∈ tail, a ∈ body.hull tail) ∧
      body.inter? tail = some shared ∧ (∀ a, a ∈ shared ↔ a ∈ body ∧ a ∈ tail) ∧
      marker.start ∈ marker ∧ marker.start ∉ body.hull marker ∧
      tail.Overlaps marker ∧ (tail.inter? marker).isSome = false := by
  intro body tail marker shared
  obtain ⟨hbody, htail, -, -, hshared⟩ := hull_and_inter_up_to_markers body tail
  obtain ⟨-, hmarker, -, -, -⟩ := hull_and_inter_up_to_markers body marker
  obtain ⟨-, -, -, hsome, -⟩ := hull_and_inter_up_to_markers tail marker
  have hinter : body.inter? tail = some shared := by decide
  have hmem : marker.start ∈ marker := by decide
  refine ⟨fun a ha => (hbody a ha).2 (by decide), fun a ha => (htail a ha).2 (by decide), hinter,
    hshared shared hinter, hmem, ?_, by decide, ?_⟩
  · intro hin
    exact (hmarker _ hmem).1 hin (by decide)
  · rw [← Bool.not_eq_true, hsome]
    rintro ⟨-, -, hsized⟩
    exact hsized rfl

/-- A marker at the end of a span is not in the hull of the two, and a marker within the span
overlaps it without having an intersection with it. -/
theorem hull_and_inter_miss_markers :
    let body : Span := ⟨16, 16⟩
    let behind : Span := ⟨32, 0⟩
    let within : Span := ⟨20, 0⟩
    ¬ (∀ a, a ∈ body ∨ a ∈ behind → a ∈ body.hull behind) ∧
      ¬ ((body.inter? within).isSome ↔ body.Overlaps within) := by
  intro body behind within
  refine ⟨fun hall => ?_, by decide⟩
  have hin : behind.start ∈ body.hull behind := hall behind.start (.inr (by decide))
  exact absurd hin (by decide)

end ByteCensus.Span
