import ByteCensus.Store
import ByteCensus.Proofs.Coverage.Hits

/-!
# Stores as tables of spans

`overlapping` is the plain way to ask a store about a span: go through all entries.  The coverage
of the store answers the same (`hits_coverage`), since its parts are the entries in their order.
Searching them finds the one that starts lowest (`find?_eq_some_iff_lowest`).

An insertion is refused only at a start that is taken (`insert_eq_error`), and `insert_eq_ok` says
what an accepted one does.  What holds of all entries, and of the new one, then holds of all
entries after it, if widening an entry cannot break it (`forall_mem_insert`).

A store that keeps the older entry never gives up what it holds: `Keeps` says that of a part, and
`Keeps.insert` that no insertion ends it.
-/

namespace ByteCensus.Store

/-! ### Asking a store -/

/-- The entries that overlap a span, ascending by start. -/
def overlapping (s : Store) (span : Span) : List Evidence :=
  s.entries.filter fun e => e.span.Overlaps span

theorem pairwise_overlapping (s : Store) (span : Span) :
    (s.overlapping span).Pairwise fun e f => e.start < f.start :=
  s.ascending.sublist List.filter_sublist

/-- The entries are in listing order as they stand. -/
theorem sortParts_parts (s : Store) : Coverage.sortParts s.parts = s.parts := by
  unfold Coverage.sortParts
  apply List.mergeSort_of_pairwise
  unfold parts
  rw [List.pairwise_map]
  apply s.ascending.imp
  intro e f hlt
  rw [decide_eq_true_eq]
  exact .inl hlt

theorem hits_coverage (s : Store) (span : Span) :
    s.coverage.hits span = (s.overlapping span).map Evidence.part := by
  unfold coverage
  -- The coverage filters its sorted parts, and those of a store are sorted as they stand.
  rw [(Coverage.indexed_ofParts s.parts).hits_eq_filter, Coverage.toList_parts_ofParts,
    sortParts_parts, parts, List.filter_map]
  rfl

/-! ### The entry that starts lowest -/

/-- Searching entries that ascend by start finds the one with the lowest start. -/
theorem find?_eq_some_iff_lowest {entries : List Evidence} {p : Evidence → Bool} {e : Evidence}
    (hasc : entries.Pairwise fun e f => e.start < f.start) :
    entries.find? p = some e ↔
      e ∈ entries ∧ p e = true ∧ ∀ f ∈ entries, p f = true → e.start ≤ f.start := by
  induction entries with
  | nil => simp
  | cons x rest ih =>
    obtain ⟨hx, hrest⟩ := List.pairwise_cons.1 hasc
    by_cases hpx : p x = true
    · rw [List.find?_cons_of_pos hpx]
      constructor
      · intro h
        obtain rfl := Option.some.inj h
        refine ⟨List.mem_cons_self, hpx, ?_⟩
        intro f hf _
        rcases List.mem_cons.1 hf with rfl | hf
        · exact UInt64.le_refl _
        · exact UInt64.le_of_lt (hx f hf)
      · rintro ⟨he, -, hle⟩
        rcases List.mem_cons.1 he with rfl | he
        · rfl
        · -- An entry behind the head starts above it, but the head passes the test as well.
          have hlt := hx e he
          have hge := hle x List.mem_cons_self hpx
          exact absurd hlt (UInt64.not_lt.2 hge)
    · rw [List.find?_cons_of_neg hpx, ih hrest]
      constructor
      · rintro ⟨he, hpe, hle⟩
        refine ⟨List.mem_cons_of_mem x he, hpe, ?_⟩
        intro f hf hpf
        rcases List.mem_cons.1 hf with rfl | hf
        · exact absurd hpf hpx
        · exact hle f hf hpf
      · rintro ⟨he, hpe, hle⟩
        rcases List.mem_cons.1 he with rfl | he
        · exact absurd hpe hpx
        · exact ⟨he, hpe, fun f hf => hle f (List.mem_cons_of_mem x hf)⟩

theorem exists_lowest_iff {entries : List Evidence} {p : Evidence → Bool}
    (hasc : entries.Pairwise fun e f => e.start < f.start) :
    (∃ e ∈ entries, p e = true ∧ ∀ f ∈ entries, p f = true → e.start ≤ f.start) ↔
      ∃ e ∈ entries, p e = true := by
  constructor
  · rintro ⟨e, he, hpe, -⟩
    exact ⟨e, he, hpe⟩
  · rintro ⟨x, hx, hpx⟩
    obtain ⟨e, hfind⟩ := Option.isSome_iff_exists.1 (List.find?_isSome.2 ⟨x, hx, hpx⟩)
    exact ⟨e, (find?_eq_some_iff_lowest hasc).1 hfind⟩

/-! ### Entries and their starts -/

/-- A store holds the entries that it finds. -/
theorem get?_eq_some_iff {s : Store} {start : Address} {e : Evidence} :
    s.get? start = some e ↔ e ∈ s.entries ∧ e.start = start := by
  unfold get?
  rw [find?_eq_some_iff_lowest s.ascending]
  simp only [decide_eq_true_eq]
  constructor
  · rintro ⟨he, hstart, -⟩
    exact ⟨he, hstart⟩
  · rintro ⟨he, hstart⟩
    refine ⟨he, hstart, ?_⟩
    intro f _ hf
    exact UInt64.le_of_eq (hstart.trans hf.symm)

/-! ### Insertions -/

theorem insert_eq_error {s : Store} {e : Evidence} {err : Error}
    (h : s.insert e = .error err) :
    ∃ kept, s.get? e.start = some kept ∧
      err = .duplicateStart e.start kept.kind e.kind := by
  unfold insert at h
  split at h
  · cases h
  · next kept hkept =>
    refine ⟨kept, hkept, ?_⟩
    dsimp only at h
    split at h
    · cases h
    · split at h
      · exact (Except.error.inj h).symm
      · split at h <;> cases h
    · exact (Except.error.inj h).symm

/-- A store that takes duplicates has room for whatever agrees with the entry at its start. -/
theorem exists_insert_eq_ok_of_kind {s : Store} {e : Evidence} (hpolicy : s.policy ≠ .reject)
    (hkind : ∀ kept, s.get? e.start = some kept → kept.kind = e.kind) :
    ∃ outcome s', s.insert e = .ok (outcome, s') := by
  unfold insert
  split
  · exact ⟨_, _, rfl⟩
  · next kept hkept =>
    have hsame : kept.kind = e.kind := hkind kept hkept
    dsimp only
    split
    · exact ⟨_, _, rfl⟩
    · rw [if_neg (not_not.2 hsame)]
      split <;> exact ⟨_, _, rfl⟩
    · next hreject => exact absurd hreject hpolicy

/-- It has room for whatever agrees with all entries. -/
theorem exists_insert_eq_ok {s : Store} {e : Evidence} (hpolicy : s.policy ≠ .reject)
    (hkind : ∀ kept ∈ s.entries, kept.kind = e.kind) :
    ∃ outcome s', s.insert e = .ok (outcome, s') :=
  exists_insert_eq_ok_of_kind hpolicy fun kept hkept =>
    hkind kept (List.mem_of_find?_eq_some hkept)

/-- What widening leaves of an entry: all but the extent, and the owner if it has none. -/
def widen (kept e : Evidence) : Evidence :=
  { kept with span := e.span, function := kept.function <|> e.function }

/-- All that an accepted insertion can do. -/
theorem insert_eq_ok {s s' : Store} {e : Evidence} {outcome : InsertOutcome}
    (h : s.insert e = .ok (outcome, s')) :
    (s.get? e.start = none ∧ outcome = .inserted ∧ s' = s.put e) ∨
    ∃ kept, s.get? e.start = some kept ∧
      ((s.policy = .replace ∧ outcome = .replaced ∧ s' = s.put e) ∨
      (s.policy = .keepFirst ∧ kept.kind = e.kind ∧
        ((e.span.size ≤ kept.span.size ∧ outcome = .duplicate ∧ s' = s) ∨
        (kept.span.size < e.span.size ∧ outcome = .extended ∧ s' = s.put (widen kept e))))) := by
  unfold insert at h
  cases hkept : s.get? e.start with
  | none =>
    left
    rw [hkept] at h
    cases h
    exact ⟨rfl, rfl, rfl⟩
  | some kept =>
    right
    refine ⟨kept, rfl, ?_⟩
    rw [hkept] at h
    dsimp only at h
    cases hpolicy : s.policy with
    | replace =>
      left
      rw [hpolicy] at h
      cases h
      exact ⟨rfl, rfl, rfl⟩
    | reject =>
      rw [hpolicy] at h
      cases h
    | keepFirst =>
      right
      rw [hpolicy] at h
      dsimp only at h
      split at h
      · cases h
      · next hkind =>
        refine ⟨rfl, not_ne_iff.1 hkind, ?_⟩
        split at h
        · next hle =>
          left
          cases h
          exact ⟨hle, rfl, rfl⟩
        · next hgt =>
          right
          cases h
          exact ⟨UInt64.not_le.1 hgt, rfl, rfl⟩

theorem forall_mem_put {P : Evidence → Prop} {s : Store} {e : Evidence} (hs : ∀ x ∈ s.entries, P x)
    (he : P e) : ∀ x ∈ (s.put e).entries, P x := by
  intro x hx
  rcases mem_of_mem_placeIn hx with rfl | hx
  · exact he
  · exact hs x hx

/-- What holds of all entries is kept by an insertion, also of an entry that it widens. -/
theorem forall_mem_insert {P : Evidence → Prop} {s s' : Store} {e : Evidence}
    {outcome : InsertOutcome} (h : s.insert e = .ok (outcome, s')) (hs : ∀ x ∈ s.entries, P x)
    (he : P e) (hwiden : ∀ kept, P kept → P (widen kept e)) : ∀ x ∈ s'.entries, P x := by
  obtain ⟨-, -, rfl⟩ | ⟨kept, hkept, ⟨-, -, rfl⟩ | ⟨-, -, ⟨-, -, rfl⟩ | ⟨-, -, rfl⟩⟩⟩ :=
    insert_eq_ok h
  · exact forall_mem_put hs he
  · exact forall_mem_put hs he
  · exact hs
  · exact forall_mem_put hs (hwiden kept (hs kept (get?_eq_some_iff.1 hkept).1))

theorem mem_parts_coverage {s : Store} {p : Part} :
    p ∈ s.coverage.parts ↔ ∃ e ∈ s.entries, e.part = p := by
  rw [coverage, Coverage.mem_parts_ofParts, parts, List.mem_map]

/-! ### What a store keeps -/

theorem policy_of_insert {s s' : Store} {e : Evidence} {outcome : InsertOutcome}
    (h : s.insert e = .ok (outcome, s')) : s'.policy = s.policy := by
  obtain ⟨-, -, rfl⟩ | ⟨_, -, ⟨-, -, rfl⟩ | ⟨-, -, ⟨-, -, rfl⟩ | ⟨-, -, rfl⟩⟩⟩ := insert_eq_ok h
  all_goals rfl

/-- The entry at the start of the part is of the same kind, and at least as large. -/
def Keeps (s : Store) (p : Part) : Prop :=
  ∃ e, s.get? p.span.start = some e ∧ e.kind = p.kind ∧ p.span.size ≤ e.span.size

theorem keeps_put {s : Store} {e : Evidence} {p : Part} (hstart : e.start = p.span.start)
    (hkind : e.kind = p.kind) (hsize : p.span.size ≤ e.span.size) : (s.put e).Keeps p := by
  refine ⟨e, ?_, hkind, hsize⟩
  rw [get?_put, if_pos hstart]

/-- What a store accepts it keeps, if only as a part of a larger entry. -/
theorem keeps_of_insert {s s' : Store} {e : Evidence} {outcome : InsertOutcome}
    (h : s.insert e = .ok (outcome, s')) : s'.Keeps e.part := by
  obtain ⟨-, -, rfl⟩ | ⟨kept, hkept, ⟨-, -, rfl⟩ | ⟨-, hkind, ⟨hle, -, rfl⟩ | ⟨-, -, rfl⟩⟩⟩ :=
    insert_eq_ok h
  · exact keeps_put rfl rfl (UInt64.le_refl _)
  · exact keeps_put rfl rfl (UInt64.le_refl _)
  · exact ⟨kept, hkept, hkind, hle⟩
  · exact keeps_put rfl hkind (UInt64.le_refl _)

/-- Nothing is overwritten by a smaller entry or one of another kind where the first one stays. -/
theorem Keeps.insert {s s' : Store} {e : Evidence} {p : Part} {outcome : InsertOutcome}
    (hkeeps : s.Keeps p) (hpolicy : s.policy = .keepFirst)
    (h : s.insert e = .ok (outcome, s')) : s'.Keeps p := by
  obtain ⟨x, hx, hxkind, hxsize⟩ := hkeeps
  have hother (y : Evidence) (hy : y.start ≠ p.span.start) : (s.put y).Keeps p := by
    refine ⟨x, ?_, hxkind, hxsize⟩
    rw [get?_put, if_neg hy]
    exact hx
  obtain ⟨hfree, -, rfl⟩ | ⟨kept, hkept, ⟨hreplace, -, -⟩ | ⟨-, -, ⟨-, -, rfl⟩ | ⟨hlt, -, rfl⟩⟩⟩ :=
    insert_eq_ok h
  · apply hother
    intro hstart
    rw [hstart, hx] at hfree
    cases hfree
  · rw [hpolicy] at hreplace
    cases hreplace
  · exact ⟨x, hx, hxkind, hxsize⟩
  -- Only an entry at the same start is widened over it, and that has room for the part.
  · by_cases hstart : e.start = p.span.start
    · obtain rfl : x = kept := by
        rw [hstart, hx] at hkept
        exact Option.some.inj hkept
      exact keeps_put hstart hxkind (UInt64.le_trans hxsize (UInt64.le_of_lt hlt))
    · exact hother _ hstart

theorem Keeps.exists_covers {s : Store} {p : Part} (h : s.Keeps p) :
    ∃ e ∈ s.entries, e.kind = p.kind ∧ p.span.size ≤ e.span.size ∧ e.span.Covers p.span := by
  obtain ⟨e, he, hkind, hsize⟩ := h
  obtain ⟨hmem, hstart⟩ := get?_eq_some_iff.1 he
  exact ⟨e, hmem, hkind, hsize, Span.covers_of_size_le hstart hsize⟩

end ByteCensus.Store
