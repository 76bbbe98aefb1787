import ByteCensus.Proofs.Coverage.Merge

/-!
# What a merged coverage occupies

An address is occupied by a merged part of some kind iff it was occupied by a part of that kind
which is not an absorbed marker (`mem_merge_iff`).  So absorbed markers are all that a merge loses
of what the coverages say about single addresses, and what a part with bytes occupies is never
lost (`mem_merge_of_sized`).

The sweep is followed with its invariant: `mem_joinPart_iff` is one step that joins, and
`mem_joinFrom_iff` the whole sweep.
-/

namespace ByteCensus.Coverage

variable {seen parts rest more out : List Part} {last next p : Part} {kind : ByteKind}
  {x : Address} {sort : List Part → List Part} {coverages : List Coverage} {m : Coverage}

theorem not_absorbed_of_sized (h : p.span.size ≠ 0) : ¬ Absorbed parts p :=
  fun habs => h habs.1

/-- A part that occupies an address and is not joined stays unabsorbed, whatever follows it. -/
theorem Sweep.not_absorbed_of_mem (h : Sweep seen last)
    (hasc : Ascending (seen ++ next :: rest))
    (htouch : ¬ (last.kind = next.kind ∧ last.span.Touches next.span))
    (hover : ¬ last.span.Overlaps next.span) (hx : x ∈ next.span) :
    ¬ Absorbed (seen ++ next :: rest) next := by
  have hocc : next.span.start < next.span.limit := UInt64.lt_of_le_of_lt hx.1 hx.2
  refine not_absorbed_append ?_ (h.not_absorbed hasc.seen_le htouch hover hocc)
  intro r hr
  rcases List.mem_cons.1 hr with rfl | hr
  · exact UInt64.le_refl _
  · exact List.rel_of_pairwise_cons (List.pairwise_append.1 hasc).2.1 hr

/-- The hull occupies what the two parts do, except for an absorbed marker. -/
theorem Sweep.mem_joinPart_iff (h : Sweep seen last)
    (hasc : ∀ p ∈ seen, p.span.start ≤ next.span.start) (hkind : last.kind = next.kind)
    (htouch : last.span.Touches next.span) (hsub : seen ⊆ more) :
    x ∈ (joinPart last next).span ↔
      x ∈ last.span ∨ x ∈ next.span ∧ ¬ Absorbed more next := by
  have hle := h.start_le hasc
  constructor
  · intro hx
    rcases Span.mem_of_mem_hull hle htouch hx with hlast | ⟨hsized, hnext⟩
    · exact .inl hlast
    · exact .inr ⟨hnext, not_absorbed_of_sized hsized⟩
  · rintro (hlast | ⟨hnext, hnot⟩)
    · exact Span.mem_hull_left hle hlast
    · rcases h.covers_or_absorbed hle hkind htouch with ⟨hstart, hlimit⟩ | habs
      · exact ⟨UInt64.le_trans hstart hnext.1, UInt64.lt_of_lt_of_le hnext.2 hlimit⟩
      · exact absurd (habs.mono hsub) hnot

/-- **What the joined parts occupy**: what the part joined last did, and what the parts still to
come occupy, except for absorbed markers. -/
theorem mem_joinFrom_iff (h : Sweep seen last) (hasc : Ascending (seen ++ rest))
    (hok : joinFrom last rest = .ok out) :
    (∃ q ∈ out, q.kind = kind ∧ x ∈ q.span) ↔
      last.kind = kind ∧ x ∈ last.span ∨
        ∃ p ∈ rest, p.kind = kind ∧ x ∈ p.span ∧ ¬ Absorbed (seen ++ rest) p := by
  induction rest generalizing seen last out with
  | nil =>
    obtain rfl : [last] = out := by simpa [joinFrom] using hok
    simp
  | cons next rest ih =>
    have hassoc : seen ++ next :: rest = (seen ++ [next]) ++ rest := by simp
    rw [joinFrom_cons] at hok
    split at hok
    · next htouch =>
      have hjoined := h.join hasc.seen_le htouch.1 htouch.2
      have hstep := h.mem_joinPart_iff (x := x) hasc.seen_le htouch.1 htouch.2
        (List.subset_append_left seen (next :: rest))
      rw [ih hjoined (hassoc ▸ hasc) hok, ← hassoc, hstep, kind_joinPart, List.exists_mem_cons_iff,
        ← htouch.1, and_or_left, or_assoc]
    · next htouch =>
      split at hok
      · cases hok
      · next hover =>
        obtain ⟨joined, hrest, rfl⟩ := exists_of_map_eq_ok hok
        have hpushed := h.push hasc.seen_le htouch hover
        have hnext : next.kind = kind ∧ x ∈ next.span ↔ next.kind = kind ∧ x ∈ next.span ∧
            ¬ Absorbed (seen ++ next :: rest) next := by
          constructor
          · rintro ⟨hkind, hx⟩
            exact ⟨hkind, hx, h.not_absorbed_of_mem hasc htouch hover hx⟩
          · rintro ⟨hkind, hx, -⟩
            exact ⟨hkind, hx⟩
        rw [List.exists_mem_cons_iff, ih hpushed (hassoc ▸ hasc) hrest, ← hassoc, hnext,
          List.exists_mem_cons_iff]

theorem mem_join_iff (hasc : Ascending parts) (hok : join parts = .ok out) (kind : ByteKind)
    (x : Address) :
    (∃ q ∈ out, q.kind = kind ∧ x ∈ q.span) ↔
      ∃ p ∈ parts, p.kind = kind ∧ x ∈ p.span ∧ ¬ Absorbed parts p := by
  cases parts with
  | nil =>
    obtain rfl : [] = out := by simpa [join] using hok
    simp
  | cons first rest =>
    -- Nothing starts before the first part, so nothing absorbs it.
    have hnot : ¬ Absorbed (first :: rest) first := by
      rintro ⟨-, r, hr, -, hlt, -⟩
      rcases List.mem_cons.1 hr with rfl | hr
      · exact UInt64.lt_irrefl _ hlt
      · exact UInt64.not_lt.2 (List.rel_of_pairwise_cons hasc hr) hlt
    rw [mem_joinFrom_iff (.first first) hasc hok, List.exists_mem_cons_iff]
    simp [hnot]

/-- **What a merged coverage occupies** is what the parts of its coverages do, except for absorbed
markers. -/
theorem mem_merge_iff (hsort : SortsByPlace sort) (hok : mergeWith sort coverages = .ok m)
    (kind : ByteKind) (x : Address) :
    (∃ q ∈ m.parts, q.kind = kind ∧ x ∈ q.span) ↔
      ∃ p ∈ allParts coverages, p.kind = kind ∧ x ∈ p.span ∧
        ¬ Absorbed (allParts coverages) p := by
  have hiff := mem_join_iff (hsort.ascending _) (join_of_merge_ok hok).2 kind x
  simpa only [hsort.mem_iff, absorbed_congr fun r => hsort.mem_iff, Array.mem_toList_iff] using hiff

theorem mem_merge_of_sized (hsort : SortsByPlace sort) (hok : mergeWith sort coverages = .ok m)
    (hp : p ∈ allParts coverages) (hsized : p.span.size ≠ 0) (hx : x ∈ p.span) :
    ∃ q ∈ m.parts, q.kind = p.kind ∧ x ∈ q.span :=
  (mem_merge_iff hsort hok p.kind x).2 ⟨p, hp, rfl, hx, not_absorbed_of_sized hsized⟩

end ByteCensus.Coverage
