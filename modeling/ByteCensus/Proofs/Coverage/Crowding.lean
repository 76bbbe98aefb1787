import Mathlib.Data.List.Permutation
import ByteCensus.Proofs.Coverage.Hits

/-!
# Building a coverage

`Coverage.ofParts` sorts the parts, looks for crowding between neighbours, and tabulates the
furthest parts if there is any.  Here is what that says about the parts as they were given.

* Neighbours are enough to see whether any two parts overlap, wherever these stand
  (`isCrowded_ofParts_iff`).
* Parts of one `Part.outline` are listed in any order, since cut off at the highest address they may
  still differ in size.  That is all that sorting leaves open (`map_outline_eq_of_perm`), and the
  index does not see it: an outline determines what its part occupies
  (`Part.limit_eq_of_outline_eq`).

`ofParts_indexes_rightly` puts this together with what is known of the table (`indexed_ofParts`).
-/

namespace ByteCensus

/-! ### Outlines -/

/-- What a listing shows of a part: where it starts and stops, and its kind. -/
def Part.outline (p : Part) : Address × Address × ByteKind := (p.span.start, p.span.stop, p.kind)

theorem ByteKind.rank_le_rank_iff (a b : ByteKind) : a.rank ≤ b.rank ↔ a.name ≤ b.name := by
  rw [← Nat.not_lt, rank_lt_rank_iff, String.not_lt]

namespace Part

variable {p q : Part}

theorem start_eq_of_outline_eq (h : p.outline = q.outline) : p.span.start = q.span.start :=
  congrArg Prod.fst h

/-- Parts of one outline occupy the same addresses. -/
theorem limit_eq_of_outline_eq (h : p.outline = q.outline) : p.span.limit = q.span.limit :=
  Span.limit_congr (start_eq_of_outline_eq h) (congrArg (·.2.1) h)

/-- An outline is listed before another one if a part with it is. -/
def OutlineBefore (o o' : Address × Address × ByteKind) : Prop :=
  o.1 < o'.1 ∨ o.1 = o'.1 ∧ (o.2.1 < o'.2.1 ∨ o.2.1 = o'.2.1 ∧ o.2.2.rank ≤ o'.2.2.rank)

/-- Outlines that are listed before each other are the same. -/
theorem OutlineBefore.antisymm {o o' : Address × Address × ByteKind} (h : OutlineBefore o o')
    (h' : OutlineBefore o' o) : o = o' := by
  obtain ⟨start, stop, kind⟩ := o
  obtain ⟨start', stop', kind'⟩ := o'
  simp only [OutlineBefore, UInt64.lt_iff_toNat_lt, ← UInt64.toNat_inj] at h h'
  rw [Prod.mk.injEq, Prod.mk.injEq, ← UInt64.toNat_inj, ← UInt64.toNat_inj]
  exact ⟨by omega, by omega, ByteKind.rank_injective (by omega)⟩

end Part

namespace Coverage

variable {parts more : List Part}

/-! ### Crowding -/

/-- Without crowding each part ends before its right neighbour starts. -/
theorem hasCrowding_eq_false_iff :
    hasCrowding parts = false ↔ parts.IsChain fun p q => p.span.limit ≤ q.span.start := by
  induction parts with
  | nil => simp [hasCrowding]
  | cons p rest ih =>
    cases rest with
    | nil => simp [hasCrowding]
    | cons q rest =>
      rw [List.isChain_cons_cons, ← ih, hasCrowding, Bool.or_eq_false_iff,
        decide_eq_false_iff_not, UInt64.not_lt]

theorem pairwise_not_overlaps_sortParts :
    (sortParts parts).Pairwise (fun p q => ¬ p.span.Overlaps q.span) ↔
      parts.Pairwise fun p q => ¬ p.span.Overlaps q.span :=
  (sortParts_perm parts).pairwise_iff fun hnot hover => hnot (Span.overlaps_comm.1 hover)

/-- Parts of which no two overlap are not crowded, in whatever order they were given. -/
theorem isCrowded_ofParts_of_not_overlaps
    (h : parts.Pairwise fun p q => ¬ p.span.Overlaps q.span) :
    (ofParts parts).isCrowded = false := by
  have hseparate : Separate (sortParts parts) := by
    refine (ascending_sortParts parts).imp₂ ?_ (pairwise_not_overlaps_sortParts.2 h)
    intro p q hle hnot
    exact Span.limit_le_start_of_not_overlaps hle hnot
  rw [isCrowded_ofParts, hasCrowding_eq_false_iff]
  exact hseparate.isChain

/-- Parts that are not crowded do not overlap, in whatever order they were given. -/
theorem not_overlaps_of_not_isCrowded_ofParts (h : (ofParts parts).isCrowded = false) :
    parts.Pairwise fun p q => ¬ p.span.Overlaps q.span := by
  rw [isCrowded_ofParts] at h
  apply pairwise_not_overlaps_sortParts.1
  exact (separate_of_not_hasCrowding h).imp fun hle => Span.not_overlaps_of_limit_le_start hle

/-- Two parts overlap that stand at different positions. -/
def SomeOverlap (parts : List Part) : Prop :=
  ∃ (i j : Nat) (p q : Part), i ≠ j ∧ parts[i]? = some p ∧ parts[j]? = some q ∧
    p.span.Overlaps q.span

/-- No two positions overlap iff none overlaps a later one. -/
theorem not_someOverlap_iff :
    ¬ SomeOverlap parts ↔ parts.Pairwise fun p q => ¬ p.span.Overlaps q.span := by
  rw [List.pairwise_iff_getElem]
  constructor
  · intro hnone i j hi hj hlt hover
    exact hnone ⟨i, j, parts[i], parts[j], Nat.ne_of_lt hlt, List.getElem?_eq_getElem hi,
      List.getElem?_eq_getElem hj, hover⟩
  · rintro hpair ⟨i, j, p, q, hne, hp, hq, hover⟩
    obtain ⟨hi, rfl⟩ := List.getElem?_eq_some_iff.1 hp
    obtain ⟨hj, rfl⟩ := List.getElem?_eq_some_iff.1 hq
    rcases Nat.lt_or_gt_of_ne hne with hlt | hgt
    · exact hpair i j hi hj hlt hover
    · exact hpair j i hj hi hgt (Span.overlaps_comm.1 hover)

/-- **Neighbours show whether any parts overlap.** -/
theorem isCrowded_ofParts_iff : (ofParts parts).isCrowded = true ↔ SomeOverlap parts := by
  rw [← not_iff_not, not_someOverlap_iff, Bool.not_eq_true]
  exact ⟨not_overlaps_of_not_isCrowded_ofParts, isCrowded_ofParts_of_not_overlaps⟩

/-! ### What sorting leaves open -/

/-- Sorted parts are the same up to parts of one outline. -/
theorem map_outline_eq_of_perm (hperm : parts.Perm more) (hparts : parts.Pairwise Part.ListedBefore)
    (hmore : more.Pairwise Part.ListedBefore) : parts.map Part.outline = more.map Part.outline := by
  have hsorted {ps : List Part} (h : ps.Pairwise Part.ListedBefore) :
      (ps.map Part.outline).Pairwise Part.OutlineBefore := by
    rwa [List.pairwise_map]
  refine (hperm.map Part.outline).eq_of_pairwise ?_ (hsorted hparts) (hsorted hmore)
  -- Parts listed before each other may differ, but their outlines do not.
  exact fun _ _ _ _ h h' => h.antisymm h'

/-- The parts have the same outlines one by one. -/
def SameOutlines (parts more : List Part) : Prop :=
  List.Forall₂ (fun p q => p.outline = q.outline) parts more

theorem sameOutlines_iff :
    SameOutlines parts more ↔ parts.map Part.outline = more.map Part.outline := by
  rw [← List.forall₂_eq_eq_eq, List.forall₂_map_left_iff, List.forall₂_map_right_iff]
  rfl

/-- Crowding does not depend on sizes, but on outlines. -/
theorem SameOutlines.hasCrowding_eq (h : SameOutlines parts more) :
    hasCrowding parts = hasCrowding more := by
  induction h with
  | nil => rfl
  | cons hp hrest ih =>
    cases hrest with
    | nil => rfl
    | cons hq _ =>
      rw [hasCrowding, hasCrowding, ih, Part.limit_eq_of_outline_eq hp,
        Part.start_eq_of_outline_eq hq]

/-- The table of furthest parts depends on outlines only. -/
theorem SameOutlines.furthestFrom_eq (h : SameOutlines parts more) (best : Nat) (limit : Address)
    (next : Nat) : furthestFrom best limit next parts = furthestFrom best limit next more := by
  induction h generalizing best limit next with
  | nil => rfl
  | cons hp _ ih => simp only [furthestFrom, Part.limit_eq_of_outline_eq hp, ih]

theorem SameOutlines.furthestIndices_eq (h : SameOutlines parts more) :
    furthestIndices parts = furthestIndices more := by
  cases h with
  | nil => rfl
  | cons hp hrest =>
    rw [furthestIndices, furthestIndices, Part.limit_eq_of_outline_eq hp,
      SameOutlines.furthestFrom_eq hrest]

/-- The layout that belongs to parts in listing order. -/
def layoutOf (sorted : List Part) : Layout :=
  if hasCrowding sorted then .crowded (furthestIndices sorted).toArray else .disjoint

/-- Parts with the same outlines one by one have the same layout. -/
theorem SameOutlines.layoutOf_eq (h : SameOutlines parts more) :
    layoutOf parts = layoutOf more := by
  unfold layoutOf
  rw [h.hasCrowding_eq, h.furthestIndices_eq]

/-! ### Looking up -/

/-- What bisection reports is the index of a part, and so is all that the scan goes through; for
each of these a part is found that is the furthest up to there. -/
theorem Indexed.lookups_within {c : Coverage} (h : c.Indexed) (query : Span) :
    (∀ i, Search.locate? (·.span.position query) c.parts = some i → i < c.parts.size) ∧
      ∀ i < c.startedBy query, i < c.parts.size ∧ ∃ p, c.furthest? i = some p := by
  constructor
  · intro i hi
    exact (Search.position_of_locate? hi).1
  · intro i hi
    have hsize : i < c.parts.size := Nat.lt_of_lt_of_le hi (Search.countWhile_le _ _)
    obtain ⟨p, hp, -⟩ := h.exists_furthest? hsize
    exact ⟨hsize, p, hp⟩

/-- **Building a coverage sorts and indexes rightly**, whatever the parts.

* The parts are those given, by start, then by end, then by the name of the kind.
* They count as crowded iff two that were given at different positions overlap.
* The table of crowded parts has an entry for each of them, the first index of a part that ends
  last up to there.
* No look-up of a query leaves the parts or the table.
* Any sorting of the parts in this order has the same outlines and the same layout, and so have the
  parts built in any other order. -/
theorem ofParts_indexes_rightly (parts : List Part) :
    (ofParts parts).parts.toList.Perm parts ∧
    (ofParts parts).parts.toList.Pairwise (fun p q => p.span.start < q.span.start ∨
      p.span.start = q.span.start ∧ (p.span.stop < q.span.stop ∨
        p.span.stop = q.span.stop ∧ p.kind.name ≤ q.kind.name)) ∧
    ((ofParts parts).isCrowded = true ↔ SomeOverlap parts) ∧
    (∀ table, (ofParts parts).layout = .crowded table → table.size = parts.length ∧
      ∀ i < parts.length, ∃ j p, table[i]? = some j ∧
        IsFurthest (ofParts parts).parts.toList i j p) ∧
    (∀ query,
      (∀ i, Search.locate? (·.span.position query) (ofParts parts).parts = some i →
        i < (ofParts parts).parts.size) ∧
      ∀ i < (ofParts parts).startedBy query,
        i < (ofParts parts).parts.size ∧ ∃ p, (ofParts parts).furthest? i = some p) ∧
    (∀ sorted, sorted.Perm parts → sorted.Pairwise Part.ListedBefore →
      sorted.map Part.outline = (ofParts parts).parts.toList.map Part.outline ∧
        layoutOf sorted = (ofParts parts).layout) ∧
    ∀ reordered, reordered.Perm parts →
      (ofParts reordered).parts.toList.map Part.outline =
          (ofParts parts).parts.toList.map Part.outline ∧
        (ofParts reordered).layout = (ofParts parts).layout := by
  have hindexed := indexed_ofParts parts
  have hperm := sortParts_perm parts
  have hsize : (ofParts parts).parts.size = parts.length := by
    rw [← Array.length_toList, toList_parts_ofParts, hperm.length_eq]
  -- Any sorting leaves the same outlines, and they determine the layout.
  have hsorting (sorted : List Part) (hsame : sorted.Perm parts)
      (hsorted : sorted.Pairwise Part.ListedBefore) :
      sorted.map Part.outline = (ofParts parts).parts.toList.map Part.outline ∧
        layoutOf sorted = (ofParts parts).layout := by
    have houtlines : sorted.map Part.outline = (sortParts parts).map Part.outline :=
      map_outline_eq_of_perm (hsame.trans hperm.symm) hsorted (pairwise_sortParts parts)
    exact ⟨houtlines, (sameOutlines_iff.2 houtlines).layoutOf_eq⟩
  refine ⟨hperm, ?_, isCrowded_ofParts_iff, ?_, hindexed.lookups_within, hsorting, ?_⟩
  · simp only [← ByteKind.rank_le_rank_iff]
    exact pairwise_sortParts parts
  · intro table hlayout
    obtain ⟨htable, hentry⟩ := hindexed.furthest table hlayout
    rw [hsize] at htable
    refine ⟨htable, fun i hi => ?_⟩
    have hget : table[i]? = some table[i] := Array.getElem?_eq_getElem (by omega)
    obtain ⟨p, hp⟩ := hentry i table[i] hget
    exact ⟨table[i], p, hget, hp⟩
  · intro reordered hsame
    exact hsorting (sortParts reordered) ((sortParts_perm reordered).trans hsame)
      (pairwise_sortParts reordered)

/-- A long part over a marker, and two parts that are cut off at the highest address.  The latter
have one outline and different sizes, so the order in which they were given shows in the parts, but
in nothing else. -/
theorem ofParts_indexes_rightly_cut_off :
    let long : Part := ⟨⟨16, 64⟩, .text⟩
    let marker : Part := ⟨⟨24, 0⟩, .data⟩
    let small : Part := ⟨⟨0xfffffffffffffff0, 0x20⟩, .data⟩
    let large : Part := ⟨⟨0xfffffffffffffff0, 0x40⟩, .data⟩
    let c := ofParts [marker, small, long, large]
    let c' := ofParts [large, small, marker, long]
    c.parts = #[long, marker, small, large] ∧ c'.parts = #[long, marker, large, small] ∧
      c.parts.toList.map Part.outline = c'.parts.toList.map Part.outline ∧
      c.layout = .crowded #[0, 0, 2, 2] ∧ c'.layout = c.layout ∧
      SomeOverlap [marker, small, long, large] ∧
      (∃ p, IsFurthest c.parts.toList 3 2 p) ∧ ∃ p, c.furthest? 1 = some p := by
  intro long marker small large c c'
  obtain ⟨-, -, hcrowded, htable, hlookups, -, hreordered⟩ :=
    ofParts_indexes_rightly [marker, small, long, large]
  have hparts : c.parts = #[long, marker, small, large] := by cbv
  have hparts' : c'.parts = #[long, marker, large, small] := by cbv
  have hlayout : c.layout = .crowded #[0, 0, 2, 2] := by cbv
  obtain ⟨houtlines, hsame⟩ := hreordered [large, small, marker, long] (by decide)
  obtain ⟨-, hentries⟩ := htable #[0, 0, 2, 2] hlayout
  obtain ⟨j, p, hj, hp⟩ := hentries 3 (by decide)
  obtain rfl : 2 = j := by simpa using hj
  obtain ⟨-, q, hq⟩ := (hlookups ⟨32, 8⟩).2 1 (by cbv)
  exact ⟨hparts, hparts', houtlines.symm, hlayout, hsame, hcrowded.1 (by cbv), ⟨p, hp⟩, q, hq⟩

end Coverage

end ByteCensus
