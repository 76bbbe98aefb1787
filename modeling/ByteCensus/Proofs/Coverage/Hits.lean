import ByteCensus.Proofs.Coverage.Index
import ByteCensus.Proofs.Search

/-!
# The backward scan misses nothing

`hits` starts at the last part that starts before the query ends and goes down until nothing
further down reaches the query.  On an indexed coverage both ends of the scan are right:

* behind `startedBy` every part starts when the query is over (`not_overlaps_of_startedBy_le`);
* once `isPast` holds, no part up to there reaches the query (`Indexed.not_overlaps_of_isPast`).

Hence `hits` is the filter of all parts by overlap, in their order (`Indexed.hits_eq_filter`).
-/

namespace ByteCensus.Coverage

variable {c : Coverage} {query : Span}

/-! ### Where the scan stops -/

/-- The table of crowded parts has an entry for each index, and `furthest?` follows it. -/
theorem Indexed.exists_isFurthest (h : c.Indexed) (hcrowded : c.isCrowded = true) {i : Nat}
    (hi : i < c.parts.size) :
    ∃ j p, c.furthest? i = some p ∧ IsFurthest c.parts.toList i j p := by
  obtain ⟨table, hlayout⟩ := isCrowded_iff.1 hcrowded
  obtain ⟨hsize, htable⟩ := h.furthest table hlayout
  have hj : table[i]? = some table[i] := Array.getElem?_eq_getElem (by omega)
  obtain ⟨p, hp⟩ := htable i table[i] hj
  refine ⟨table[i], p, ?_, hp⟩
  unfold furthest?
  rw [hlayout]
  show (table[i]? >>= fun j => c.parts[j]?) = some p
  rw [hj, ← hp.getElem?_eq, Array.getElem?_toList]
  rfl

/-- The part that stands for those up to an index ends no earlier than any of them. -/
theorem Indexed.exists_furthest? (h : c.Indexed) {i : Nat} (hi : i < c.parts.size) :
    ∃ p, c.furthest? i = some p ∧
      ∀ k q, k ≤ i → c.parts[k]? = some q → q.span.limit ≤ p.span.limit := by
  cases hlayout : c.layout with
  | disjoint =>
    refine ⟨c.parts[i], ?_, ?_⟩
    · unfold furthest?
      rw [hlayout]
      exact Array.getElem?_eq_getElem hi
    intro k q hk hq
    rcases Nat.lt_or_eq_of_le hk with hk | rfl
    · -- `q` ends before the later part starts.
      have hsep := List.pairwise_iff_getElem.1 (h.separate hlayout) k i
        (by simp; omega) (by simpa using hi) hk
      obtain ⟨hks, rfl⟩ := Array.getElem?_eq_some_iff.1 hq
      exact UInt64.le_trans (by simpa using hsep) (Span.start_le_limit _)
    · rw [Array.getElem?_eq_getElem hi] at hq
      rw [Option.some.inj hq]
      exact UInt64.le_refl _
  | crowded table =>
    obtain ⟨j, p, hp, hmax⟩ := h.exists_isFurthest (isCrowded_iff.2 ⟨table, hlayout⟩) hi
    refine ⟨p, hp, ?_⟩
    intro k q hk hq
    rw [← Array.getElem?_toList] at hq
    exact hmax.limit_le k q hk hq

theorem Indexed.not_overlaps_of_isPast (h : c.Indexed) {i k : Nat} {q : Part}
    (hi : i < c.parts.size) (hpast : c.isPast query i = true) (hk : k ≤ i)
    (hq : c.parts[k]? = some q) : ¬ q.span.Overlaps query := by
  obtain ⟨p, hp, hmax⟩ := h.exists_furthest? hi
  unfold isPast at hpast
  rw [hp, Option.all_some, decide_eq_true_eq] at hpast
  exact Span.not_overlaps_of_limit_le_start (UInt64.le_trans (hmax k q hk hq) hpast)

/-! ### Where the scan begins -/

theorem Indexed.isInitial_started (h : c.Indexed) :
    Search.IsInitial (fun p : Part => decide (p.span.start < query.limit)) c.parts := by
  intro i j x y hij hx hy hlt
  rw [decide_eq_true_eq] at hlt ⊢
  rcases Nat.lt_or_eq_of_le hij with hij | rfl
  · obtain ⟨hi, rfl⟩ := Array.getElem?_eq_some_iff.1 hx
    obtain ⟨hj, rfl⟩ := Array.getElem?_eq_some_iff.1 hy
    have hle := List.pairwise_iff_getElem.1 h.ascending i j (by simpa using hi)
      (by simpa using hj) hij
    exact UInt64.lt_of_le_of_lt (by simpa using hle) hlt
  · rw [hx] at hy
    rwa [Option.some.inj hy]

theorem Indexed.not_overlaps_of_startedBy_le (h : c.Indexed) {i : Nat} {q : Part}
    (hi : c.startedBy query ≤ i) (hq : c.parts[i]? = some q) : ¬ q.span.Overlaps query := by
  have hnot := (Search.countWhile_spec h.isInitial_started).2 i q hi hq
  rw [decide_eq_false_iff_not] at hnot
  exact fun hover => hnot hover.1

/-! ### The scan -/

/-- The scan from an index down collects the overlapping parts below it. -/
theorem Indexed.hitsBelow_eq (h : c.Indexed) {count : Nat} (hcount : count ≤ c.parts.size)
    (found : List Part) :
    c.hitsBelow query count found =
      (c.parts.toList.take count).filter (fun p => p.span.Overlaps query) ++ found := by
  induction count generalizing found with
  | zero => simp [hitsBelow]
  | succ i ih =>
    have hi : i < c.parts.size := by omega
    have hget : c.parts[i]? = some c.parts[i] := Array.getElem?_eq_getElem hi
    have htake : c.parts.toList.take (i + 1) = c.parts.toList.take i ++ [c.parts[i]] := by
      rw [List.take_succ_eq_append_getElem (by simpa using hi), Array.getElem_toList]
    have hlast : (Option.filter (fun p : Part => decide (p.span.Overlaps query))
        (some c.parts[i])).toList = [c.parts[i]].filter (fun p => p.span.Overlaps query) := by
      by_cases hover : c.parts[i].span.Overlaps query <;> simp [Option.filter, hover]
    rw [hitsBelow, hget, hlast, htake, List.filter_append, List.append_assoc]
    split
    · next hpast =>
      -- Nothing further down would have been found.
      have hnone : (c.parts.toList.take i).filter (fun p => p.span.Overlaps query) = [] := by
        rw [List.filter_eq_nil_iff]
        intro q hq
        obtain ⟨k, hk, rfl⟩ := List.mem_iff_getElem.1 hq
        rw [List.length_take] at hk
        have hks : k < c.parts.size := by omega
        have hnot := h.not_overlaps_of_isPast hi hpast (by omega : k ≤ i)
          (Array.getElem?_eq_getElem hks)
        simpa using hnot
      rw [hnone, List.nil_append]
    · exact ih (by omega) _

/-- **The scan is exact**: on an indexed coverage `hits` lists the overlapping parts in order. -/
theorem Indexed.hits_eq_filter (h : c.Indexed) (query : Span) :
    c.hits query = c.parts.toList.filter (fun p => p.span.Overlaps query) := by
  have hle : c.startedBy query ≤ c.parts.size := Search.countWhile_le _ _
  have hrest : (c.parts.toList.drop (c.startedBy query)).filter
      (fun p => p.span.Overlaps query) = [] := by
    rw [List.filter_eq_nil_iff]
    intro q hq
    obtain ⟨k, hk, rfl⟩ := List.mem_iff_getElem.1 hq
    rw [List.length_drop, Array.length_toList] at hk
    have hks : c.startedBy query + k < c.parts.size := by omega
    have hnot := h.not_overlaps_of_startedBy_le (Nat.le_add_right _ k)
      (Array.getElem?_eq_getElem hks)
    simpa using hnot
  rw [hits, h.hitsBelow_eq hle, List.append_nil]
  conv_rhs => rw [← List.take_append_drop (c.startedBy query) c.parts.toList]
  rw [List.filter_append, hrest, List.append_nil]

end ByteCensus.Coverage
