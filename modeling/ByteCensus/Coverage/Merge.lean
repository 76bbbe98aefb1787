import ByteCensus.Coverage
import ByteCensus.Error

/-!
# Merging coverages

`Coverage.merge` turns several coverages into one whose parts do not overlap.  The parts of all
coverages are sorted by start and end, and one sweep joins each part with the last joined part where
they overlap or touch and agree on the kind.  A part of another kind that overlaps the last joined
part cannot be reconciled with it: the merge fails and names the part that came later.

The sweep compares with the last joined part only.  A marker that stands at the very end of a part
of its kind is joined to it, and the joined part ends where the bytes do.  So such a marker is
absorbed: the result does not occupy its address, and a part of another kind that starts there is
accepted.

The order of parts that are equal in start and end is an accident of sorting.  `SortsByPlace` is
what any sorting promises, and `mergeWith` merges by any of them.

A result needs no index of what reaches furthest, since its parts do not overlap.
-/

namespace ByteCensus.Coverage

/-- The sweep over the rest of the sorted parts, where `last` is the part being joined to. -/
def joinFrom (last : Part) : List Part → Except Error (List Part)
  | [] => .ok [last]
  | next :: rest =>
    if last.span.Overlaps next.span then
      if last.kind = next.kind then
        joinFrom { last with span := last.span.hull next.span } rest
      else .error (.coverageConflict next.span last.kind next.kind)
    -- Parts of one kind that touch are joined too; of different kinds they stay apart.
    else if last.kind = next.kind ∧ next.span.start = last.span.stop then
      joinFrom { last with span := last.span.hull next.span } rest
    else do
      -- Later parts start no earlier than `next`, so nothing more joins `last`.
      let joined ← joinFrom next rest
      return last :: joined

/-- Joins sorted parts that agree, and refuses those that contradict each other. -/
def join : List Part → Except Error (List Part)
  | [] => .ok []
  | first :: rest => joinFrom first rest

/-- What a sorting by start and end does.  It may leave parts that are equal in both in any
order. -/
structure SortsByPlace (sort : List Part → List Part) : Prop where
  perm (parts : List Part) : (sort parts).Perm parts
  pairwise (parts : List Part) : (sort parts).Pairwise Part.PlacedBefore

/-- The parts by start and end; those equal in both keep their order. -/
def sortByPlace (parts : List Part) : List Part :=
  parts.mergeSort fun p q => decide (p.PlacedBefore q)

/-- One coverage with the parts of all, sorted and joined. -/
def mergeWith (sort : List Part → List Part) (coverages : List Coverage) :
    Except Error Coverage := do
  let joined ← join (sort (coverages.flatMap (·.parts.toList)))
  return ⟨joined.toArray, .disjoint⟩

/-- One coverage with the parts of all, joined; ties keep the order of the coverages. -/
def merge (coverages : List Coverage) : Except Error Coverage := mergeWith sortByPlace coverages

theorem sortsByPlace_sortByPlace : SortsByPlace sortByPlace where
  perm parts := List.mergeSort_perm ..
  pairwise parts := by
    refine (List.pairwise_mergeSort ?_ ?_ parts).imp (by simp)
    · simpa using fun p q r => Part.PlacedBefore.trans
    · simpa using Part.placedBefore_total

end ByteCensus.Coverage
