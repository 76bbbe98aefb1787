import ByteCensus.Coverage
import ByteCensus.Proofs.Span

/-!
# The index of a coverage

A coverage is `Indexed` if its parts ascend by start and its layout is right about them: parts
that are called disjoint lie one behind the other, and the table of crowded parts names, for each
index, the first part that ends last up to there.

`indexed_ofParts`: whatever the parts, building a coverage from them gives an indexed one.  The
table is built from left to right, `IsFurthest.step` is one step of that.
-/

namespace ByteCensus.Coverage

/-- The parts ascend by start. -/
def Ascending (parts : List Part) : Prop :=
  parts.Pairwise fun p q => p.span.start ≤ q.span.start

/-- The parts lie one behind the other. -/
def Separate (parts : List Part) : Prop :=
  parts.Pairwise fun p q => p.span.limit ≤ q.span.start

/-- `p`, at index `j`, is the first of the parts with index up to `i` that end last of those. -/
structure IsFurthest (parts : List Part) (i j : Nat) (p : Part) : Prop where
  le : j ≤ i
  getElem?_eq : parts[j]? = some p
  limit_le : ∀ k q, k ≤ i → parts[k]? = some q → q.span.limit ≤ p.span.limit
  limit_lt : ∀ k q, k < j → parts[k]? = some q → q.span.limit < p.span.limit

/-- The parts ascend, and the layout is right about them. -/
structure Indexed (c : Coverage) : Prop where
  ascending : Ascending c.parts.toList
  separate : c.layout = .disjoint → Separate c.parts.toList
  furthest : ∀ table, c.layout = .crowded table → table.size = c.parts.size ∧
    ∀ i j, table[i]? = some j → ∃ p, IsFurthest c.parts.toList i j p

theorem isCrowded_iff {c : Coverage} : c.isCrowded = true ↔ ∃ table, c.layout = .crowded table := by
  unfold isCrowded
  cases c.layout <;> simp

/-! ### The table of furthest parts -/

/-- Parts behind the index do not matter. -/
theorem IsFurthest.append {parts : List Part} {i j : Nat} {p : Part}
    (h : IsFurthest parts i j p) (hi : i < parts.length) (more : List Part) :
    IsFurthest (parts ++ more) i j p := by
  have hfront {k : Nat} (hk : k ≤ i) : (parts ++ more)[k]? = parts[k]? :=
    List.getElem?_append_left (by omega)
  refine ⟨h.le, by rw [hfront h.le, h.getElem?_eq], ?_, ?_⟩
  · intro k q hk hq
    rw [hfront hk] at hq
    exact h.limit_le k q hk hq
  · intro k q hk hq
    rw [hfront (by have := h.le; omega)] at hq
    exact h.limit_lt k q hk hq

/-- The next part is the furthest if it ends behind all before it; else the one before stays. -/
theorem IsFurthest.step {parts : List Part} {i j : Nat} {p : Part} (h : IsFurthest parts i j p)
    (hlen : parts.length = i + 1) (q : Part) :
    if p.span.limit < q.span.limit then IsFurthest (parts ++ [q]) (i + 1) (i + 1) q
    else IsFurthest (parts ++ [q]) (i + 1) j p := by
  have hlast : (parts ++ [q])[i + 1]? = some q := by rw [← hlen]; simp
  have hfront {k : Nat} (hk : k ≤ i) : (parts ++ [q])[k]? = parts[k]? :=
    List.getElem?_append_left (by omega)
  split
  -- The next part ends behind all before it.
  · next hlt =>
    have hbelow (k : Nat) (r : Part) (hk : k < i + 1) (hr : (parts ++ [q])[k]? = some r) :
        r.span.limit < q.span.limit := by
      rw [hfront (by omega)] at hr
      exact UInt64.lt_of_le_of_lt (h.limit_le k r (by omega) hr) hlt
    refine ⟨Nat.le_refl _, hlast, ?_, hbelow⟩
    intro k r hk hr
    rcases Nat.lt_or_eq_of_le hk with hk | rfl
    · exact UInt64.le_of_lt (hbelow k r hk hr)
    · rw [hlast] at hr
      rw [Option.some.inj hr]
      exact UInt64.le_refl _
  -- The part before stays: it ends last, and the next one does not pass it.
  · next hge =>
    have hj := h.le
    refine ⟨by omega, by rw [hfront hj, h.getElem?_eq], ?_, ?_⟩
    · intro k r hk hr
      rcases Nat.lt_or_eq_of_le hk with hk | rfl
      · rw [hfront (by omega)] at hr
        exact h.limit_le k r (by omega) hr
      · rw [hlast] at hr
        rw [← Option.some.inj hr]
        exact UInt64.not_lt.1 hge
    · intro k r hk hr
      rw [hfront (by omega)] at hr
      exact h.limit_lt k r hk hr

theorem length_furthestFrom (best : Nat) (limit : Address) (next : Nat) (rest : List Part) :
    (furthestFrom best limit next rest).length = rest.length := by
  induction rest generalizing best limit next with
  | nil => rfl
  | cons q rest ih =>
    rw [furthestFrom]
    split <;> simp [ih]

/-- Each entry names the furthest part up to its index, if the part before was right. -/
theorem isFurthest_furthestFrom {rest seen : List Part} {last best i j : Nat} {p : Part}
    (h : IsFurthest seen last best p) (hlen : seen.length = last + 1)
    (hj : (furthestFrom best p.span.limit (last + 1) rest)[i]? = some j) :
    ∃ q, IsFurthest (seen ++ rest) (last + 1 + i) j q := by
  -- The invariant: `p` at `best` is the furthest of the parts seen.
  induction rest generalizing seen last best i p with
  | nil => simp [furthestFrom] at hj
  | cons q rest ih =>
    have hstep := h.step hlen q
    have hlen' : (seen ++ [q]).length = last + 1 + 1 := by simp [hlen]
    have hassoc : seen ++ q :: rest = (seen ++ [q]) ++ rest := by simp
    rw [furthestFrom] at hj
    rw [hassoc]
    -- Either way, the entry for `q` is followed by those for the rest.
    have key {best' : Nat} {p' : Part} (h' : IsFurthest (seen ++ [q]) (last + 1) best' p')
        (hj' : (best' :: furthestFrom best' p'.span.limit (last + 1 + 1) rest)[i]? = some j) :
        ∃ r, IsFurthest ((seen ++ [q]) ++ rest) (last + 1 + i) j r := by
      cases i with
      | zero =>
        obtain rfl : best' = j := by simpa using hj'
        exact ⟨p', h'.append (by omega) rest⟩
      | succ i =>
        rw [List.getElem?_cons_succ] at hj'
        have := ih h' hlen' hj'
        rwa [Nat.add_right_comm, Nat.add_assoc] at this
    split at hj
    · next hlt =>
      rw [if_pos hlt] at hstep
      exact key hstep hj
    · next hge =>
      rw [if_neg hge] at hstep
      exact key hstep hj

/-- Each entry of the table names the furthest part up to its index. -/
theorem isFurthest_furthestIndices {parts : List Part} {i j : Nat}
    (hj : (furthestIndices parts)[i]? = some j) : ∃ p, IsFurthest parts i j p := by
  cases parts with
  | nil => simp [furthestIndices] at hj
  | cons p rest =>
    rw [furthestIndices] at hj
    have hfirst : IsFurthest [p] 0 0 p := by
      refine ⟨Nat.le_refl _, rfl, ?_, fun k q hk => by omega⟩
      intro k q hk hq
      obtain rfl : k = 0 := by omega
      rw [← Option.some.inj hq]
      exact UInt64.le_refl _
    cases i with
    | zero =>
      obtain rfl : 0 = j := by simpa using hj
      exact ⟨p, hfirst.append (by simp) rest⟩
    | succ i =>
      rw [List.getElem?_cons_succ] at hj
      have := isFurthest_furthestFrom hfirst rfl hj
      rwa [Nat.zero_add, Nat.add_comm] at this

theorem length_furthestIndices (parts : List Part) :
    (furthestIndices parts).length = parts.length := by
  cases parts with
  | nil => rfl
  | cons p rest => rw [furthestIndices, List.length_cons, length_furthestFrom, List.length_cons]

/-! ### Building -/

theorem mem_parts_ofParts {parts : List Part} {p : Part} :
    p ∈ (ofParts parts).parts ↔ p ∈ parts := by
  rw [← Array.mem_toList_iff, toList_parts_ofParts, (sortParts_perm parts).mem_iff]

theorem ascending_sortParts (parts : List Part) : Ascending (sortParts parts) := by
  apply (pairwise_sortParts parts).imp
  rintro p q (hlt | ⟨heq, -⟩)
  · exact UInt64.le_of_lt hlt
  · exact UInt64.le_of_eq heq

/-- It is enough to compare neighbours: a part ends no earlier than it starts. -/
theorem separate_of_not_hasCrowding {parts : List Part} (h : hasCrowding parts = false) :
    Separate parts := by
  induction parts with
  | nil => exact .nil
  | cons p rest ih =>
    cases rest with
    | nil => exact List.pairwise_singleton _ _
    | cons q rest =>
      simp only [hasCrowding, Bool.or_eq_false_iff, decide_eq_false_iff_not] at h
      have hrest := ih h.2
      have hle := UInt64.not_lt.1 h.1
      refine List.pairwise_cons.2 ⟨fun r hr => ?_, hrest⟩
      rcases List.mem_cons.1 hr with rfl | hr
      · exact hle
      · apply UInt64.le_trans hle
        apply UInt64.le_trans q.span.start_le_limit
        exact List.rel_of_pairwise_cons hrest hr

/-- **Building indexes rightly**, whatever the parts. -/
theorem indexed_ofParts (parts : List Part) : (ofParts parts).Indexed := by
  refine ⟨ascending_sortParts parts, ?_, ?_⟩
  -- Only parts without crowding are called disjoint.
  · intro hlayout
    unfold ofParts at hlayout
    dsimp only at hlayout
    rw [toList_parts_ofParts]
    apply separate_of_not_hasCrowding
    split at hlayout
    · cases hlayout
    · next hcrowd => simpa using hcrowd
  -- The table of crowded parts is the one that was computed for them.
  · intro table hlayout
    unfold ofParts at hlayout
    dsimp only at hlayout
    split at hlayout
    · obtain rfl := Layout.crowded.inj hlayout
      constructor
      · simp [ofParts, length_furthestIndices]
      · intro i j hj
        rw [toList_parts_ofParts]
        exact isFurthest_furthestIndices (by simpa using hj)
    · cases hlayout

end ByteCensus.Coverage
