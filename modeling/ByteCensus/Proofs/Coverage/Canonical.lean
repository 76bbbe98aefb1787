import Mathlib.Data.List.Chain
import ByteCensus.Proofs.Coverage.Crowding
import ByteCensus.Proofs.Coverage.Merge

/-!
# The canonical form of merged coverages

The parts of a merged coverage are `Canonical`: of two neighbours the first ends before the second
starts, and if they are of one kind there is a gap between them.  This is more than the sweep
compares.  It holds because `last` never starts anywhere else than where it started when it was
met (`canonical_of_joinFrom`), so a part that was left behind is not touched by what follows.

What holds of neighbours holds of all pairs (`Canonical.pairwise`), as long as the second part of
the pair starts below the highest address: a part there occupies nothing, so several of them can
stand behind one another without a gap.

`merge_canonical`: a merged coverage is canonical, and is rightly treated as one without crowding.
-/

namespace ByteCensus.Coverage

variable {parts rest out : List Part} {last p q : Part}

/-! ### Canonical form -/

/-- Of two neighbours the first ends before the second starts, and well before it if they are of
one kind. -/
def Canonical (parts : List Part) : Prop :=
  parts.IsChain fun p q =>
    p.span.limit ≤ q.span.start ∧ (p.kind = q.kind → p.span.stop ≠ q.span.start)

instance (parts : List Part) : Decidable (Canonical parts) :=
  inferInstanceAs (Decidable (List.IsChain _ parts))

/-- Neighbours that end before the next starts make all parts do so. -/
theorem Canonical.separate (h : Canonical parts) : Separate parts := by
  apply separate_of_not_hasCrowding
  rw [hasCrowding_eq_false_iff]
  exact h.imp fun _ _ hnext => hnext.1

/-- What stands between two parts takes room, unless the second one starts at the highest
address. -/
theorem Canonical.pairwise (h : Canonical parts) :
    parts.Pairwise fun p q => p.span.limit ≤ q.span.start ∧
      (p.kind = q.kind → q.span.start ≠ Address.top → p.span.stop ≠ q.span.start) := by
  induction parts with
  | nil => exact .nil
  | cons p rest ih =>
    have hrest := ih h.tail
    refine List.pairwise_cons.2 ⟨?_, hrest⟩
    intro q hq
    refine ⟨List.rel_of_pairwise_cons h.separate hq, ?_⟩
    intro hkind hbelow hstop
    cases rest with
    | nil => cases hq
    | cons r rest =>
      obtain ⟨hpr, hgap⟩ := (List.isChain_cons_cons.1 h).1
      -- Neighbours keep their gap; else there is a part `r` in between.
      rcases List.mem_cons.1 hq with rfl | hq
      · exact hgap hkind hstop
      · -- `r` would have to fit in where `p` stops and `q` starts.
        have hrq := (List.rel_of_pairwise_cons hrest hq).1
        have hle : r.span.limit ≤ r.span.start :=
          UInt64.le_trans hrq (hstop ▸ UInt64.le_trans p.span.stop_le_limit hpr)
        have htop : r.span.start = Address.top := by
          by_contra hne
          exact UInt64.not_lt.2 hle ((Span.start_lt_limit_iff _).2 hne)
        have hge := UInt64.le_trans r.span.start_le_limit hrq
        rw [htop, UInt64.le_iff_toNat_le, Address.toNat_top] at hge
        have hmax := q.span.start.toNat_le_top
        apply hbelow
        rw [← UInt64.toNat_inj, Address.toNat_top]
        omega

/-- The sweep leaves a part behind only where the next one starts behind it, and the next one keeps
its start and its kind, whatever is joined to it later. -/
theorem canonical_of_joinFrom (hasc : Ascending (last :: rest))
    (hok : joinFrom last rest = .ok out) :
    Canonical out ∧ ∀ q ∈ out.head?, q.kind = last.kind ∧ q.span.start = last.span.start := by
  induction rest generalizing last out with
  | nil =>
    obtain rfl : [last] = out := by simpa [joinFrom] using hok
    refine ⟨List.isChain_singleton last, ?_⟩
    intro q hq
    obtain rfl : last = q := by simpa using hq
    exact ⟨rfl, rfl⟩
  | cons next rest ih =>
    rw [joinFrom_cons] at hok
    split at hok
    -- Joined: the hull starts where `last` did.
    · obtain ⟨hcanonical, hhead⟩ := ih hasc.join hok
      rw [start_joinPart hasc.start_le] at hhead
      exact ⟨hcanonical, hhead⟩
    · next htouch =>
      split at hok
      · cases hok
      · next hover =>
        obtain ⟨joined, hjoined, rfl⟩ := exists_of_map_eq_ok hok
        obtain ⟨hcanonical, hhead⟩ := ih hasc.tail hjoined
        have hlimit := Span.limit_le_start_of_not_overlaps hasc.start_le hover
        constructor
        -- The first part of the rest is the one that was not joined to `last`.
        · refine List.isChain_cons.2 ⟨?_, hcanonical⟩
          intro q hq
          obtain ⟨hkind, hstart⟩ := hhead q hq
          rw [hkind, hstart]
          exact ⟨hlimit, fun hsame hstop => htouch ⟨hsame, .inr hstop.symm⟩⟩
        · intro q hq
          obtain rfl : last = q := by simpa using hq
          exact ⟨rfl, rfl⟩

theorem canonical_of_join (hasc : Ascending parts) (hok : join parts = .ok out) :
    Canonical out := by
  cases parts with
  | nil =>
    obtain rfl : [] = out := by simpa [join] using hok
    exact List.isChain_nil
  | cons first rest => exact (canonical_of_joinFrom hasc hok).1

theorem canonical_of_merge_ok {sort : List Part → List Part} (hsort : SortsByPlace sort)
    {coverages : List Coverage} {m : Coverage} (hok : mergeWith sort coverages = .ok m) :
    Canonical m.parts.toList :=
  canonical_of_join (hsort.ascending _) (join_of_merge_ok hok).2

/-- **Merged coverages are in canonical form**, however ties are broken, and rightly treated as free
of crowding.

* Of two neighbours the first ends before the second starts; and it does not stop where the second
  starts if they are of one kind.
* So starts ascend strictly as far as they are below the highest address, and no two parts overlap.
* The coverage is marked as disjoint, and building one from its parts would say the same. -/
theorem merge_canonical (sort : List Part → List Part) (hsort : SortsByPlace sort)
    (coverages : List Coverage) (m : Coverage) (hok : mergeWith sort coverages = .ok m) :
    (∀ before p q after, m.parts.toList = before ++ p :: q :: after →
      p.span.limit ≤ q.span.start ∧ (p.kind = q.kind → p.span.stop ≠ q.span.start)) ∧
    (m.parts.toList.filter (·.span.start ≠ Address.top)).Pairwise
      (fun p q => p.span.start < q.span.start) ∧
    m.parts.toList.Pairwise (fun p q => ¬ p.span.Overlaps q.span) ∧
    m.isCrowded = false ∧
    (ofParts m.parts.toList).isCrowded = false := by
  have hcanonical := canonical_of_merge_ok hsort hok
  have hseparate := hcanonical.separate
  have hdisjoint : m.parts.toList.Pairwise fun p q => ¬ p.span.Overlaps q.span :=
    hseparate.imp fun hle => Span.not_overlaps_of_limit_le_start hle
  refine ⟨?_, ?_, hdisjoint, ?_, isCrowded_ofParts_of_not_overlaps hdisjoint⟩
  · intro before p q after hparts
    exact List.isChain_iff_forall_rel_of_append_cons_cons.1 hcanonical hparts
  -- Below the highest address each part occupies its start.
  · have hbelow : ∀ p ∈ m.parts.toList.filter (·.span.start ≠ Address.top),
        p.span.start < p.span.limit := by
      intro p hp
      rw [Span.start_lt_limit_iff]
      simpa using (List.mem_filter.1 hp).2
    refine List.Pairwise.imp_of_mem ?_ (hseparate.sublist List.filter_sublist)
    intro p q hp _ hle
    exact UInt64.lt_of_lt_of_le (hbelow p hp) hle
  · unfold isCrowded
    rw [(separate_of_merge_ok hsort hok).1]

/-- Code is joined across two coverages up to a data marker, and behind it code starts anew. -/
theorem merge_canonical_around_marker :
    let coverages := [ofParts [⟨⟨16, 16⟩, .text⟩, ⟨⟨33, 7⟩, .text⟩],
      ofParts [⟨⟨24, 8⟩, .text⟩, ⟨⟨32, 0⟩, .data⟩]]
    let m : Coverage := ⟨#[⟨⟨16, 16⟩, .text⟩, ⟨⟨32, 0⟩, .data⟩, ⟨⟨33, 7⟩, .text⟩], .disjoint⟩
    merge coverages = .ok m ∧ (ofParts m.parts.toList).isCrowded = false := by
  intro coverages m
  have hok : merge coverages = .ok m := by cbv
  obtain ⟨-, -, -, -, hcrowded⟩ := merge_canonical _ sortsByPlace_sortByPlace coverages m hok
  exact ⟨hok, hcrowded⟩

end ByteCensus.Coverage
