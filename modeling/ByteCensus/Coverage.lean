import ByteCensus.ByteKind
import ByteCensus.Search
import ByteCensus.Span

/-!
# Coverage

A coverage is a snapshot of classified spans that is built once and then only asked.  Its parts
are sorted by where they start and are never joined, so they may overlap when the evidence does.

Which search answers a question depends on that.  If no part starts before its left neighbour
ends, the parts are `disjoint`, their ends ascend with their starts, and bisection by position
finds a hit.  Otherwise the coverage is `crowded`: a long part far to the left may reach over
many later ones, so it also keeps, for each index, which part up to there ends last
(`furthestFrom`).  The part that ends last among those that start before a query ends overlaps
the query if any part does.

* `Coverage.ofParts` sorts and indexes parts.
* `find?` and `kindAt?` answer with one part, or its kind, that overlaps a span.
* `hits` lists every part that overlaps a span, in order; it scans backwards from the query's
  end, and stops where nothing further to the left reaches the query.
-/

namespace ByteCensus

/-- A span with its classification. -/
structure Part where
  span : Span
  kind : ByteKind
deriving DecidableEq, Repr, Inhabited

namespace Part

/-- By start, then by end. -/
def PlacedBefore (p q : Part) : Prop :=
  p.span.start < q.span.start ∨ p.span.start = q.span.start ∧ p.span.stop ≤ q.span.stop

instance (p q : Part) : Decidable (p.PlacedBefore q) :=
  inferInstanceAs (Decidable (_ ∨ _))

/-- By start, then by end, then by the name of the kind. -/
def ListedBefore (p q : Part) : Prop :=
  p.span.start < q.span.start ∨ p.span.start = q.span.start ∧
    (p.span.stop < q.span.stop ∨ p.span.stop = q.span.stop ∧ p.kind.rank ≤ q.kind.rank)

instance (p q : Part) : Decidable (p.ListedBefore q) :=
  inferInstanceAs (Decidable (_ ∨ _))

theorem listedBefore_total (p q : Part) : p.ListedBefore q ∨ q.ListedBefore p := by
  simp only [ListedBefore, UInt64.lt_iff_toNat_lt, ← UInt64.toNat_inj]
  omega

theorem ListedBefore.trans {p q r : Part} (hpq : p.ListedBefore q) (hqr : q.ListedBefore r) :
    p.ListedBefore r := by
  simp only [ListedBefore, UInt64.lt_iff_toNat_lt, ← UInt64.toNat_inj] at *
  omega

theorem placedBefore_total (p q : Part) : p.PlacedBefore q ∨ q.PlacedBefore p := by
  simp only [PlacedBefore, UInt64.lt_iff_toNat_lt, UInt64.le_iff_toNat_le, ← UInt64.toNat_inj]
  omega

theorem PlacedBefore.trans {p q r : Part} (hpq : p.PlacedBefore q) (hqr : q.PlacedBefore r) :
    p.PlacedBefore r := by
  simp only [PlacedBefore, UInt64.lt_iff_toNat_lt, UInt64.le_iff_toNat_le,
    ← UInt64.toNat_inj] at *
  omega

end Part

/-- How the parts of a coverage lie to each other. -/
inductive Coverage.Layout where
  /-- No part starts before an earlier one ends. -/
  | disjoint
  /-- Some do.  `furthest[i]` is the first index among `0, …, i` whose part ends last of those. -/
  | crowded (furthest : Array Nat)
deriving DecidableEq, Repr

/-- Classified spans in order, ready to be asked. -/
structure Coverage where
  /-- The parts, ascending by start. -/
  parts : Array Part
  layout : Coverage.Layout
deriving DecidableEq, Repr

namespace Coverage

instance : Inhabited Coverage := ⟨⟨#[], .disjoint⟩⟩

/-! ### Building -/

/-- Some part starts before its left neighbour ends. -/
def hasCrowding : List Part → Bool
  | p :: q :: rest => decide (q.span.start < p.span.limit) || hasCrowding (q :: rest)
  | _ => false

/-- For each part, counted from `next`, the index of the first part that ends last so far, where
the one at `best` ends at `limit` and no earlier one ends later. -/
def furthestFrom (best : Nat) (limit : Address) (next : Nat) : List Part → List Nat
  | [] => []
  | p :: rest =>
    if limit < p.span.limit then next :: furthestFrom next p.span.limit (next + 1) rest
    else best :: furthestFrom best limit (next + 1) rest

/-- For each part the index of the first part up to there that ends last. -/
def furthestIndices : List Part → List Nat
  | [] => []
  | p :: rest => 0 :: furthestFrom 0 p.span.limit 1 rest

/-- The parts in listing order; equal ones keep their order. -/
def sortParts (parts : List Part) : List Part :=
  parts.mergeSort fun p q => decide (p.ListedBefore q)

/-- The coverage of the given parts. -/
def ofParts (parts : List Part) : Coverage :=
  let sorted := sortParts parts
  ⟨sorted.toArray,
    if hasCrowding sorted then .crowded (furthestIndices sorted).toArray else .disjoint⟩

/-- Some parts overlap. -/
def isCrowded (c : Coverage) : Bool :=
  match c.layout with
  | .disjoint => false
  | .crowded _ => true

/-! ### Asking -/

/-- The number of parts that start before the query ends. -/
def startedBy (c : Coverage) (query : Span) : Nat :=
  Search.countWhile (fun p => p.span.start < query.limit) c.parts

/-- The part that ends last among those with index up to `i`. -/
def furthest? (c : Coverage) (i : Nat) : Option Part :=
  match c.layout with
  | .disjoint => c.parts[i]?
  | .crowded furthest => furthest[i]? >>= (c.parts[·]?)

/-- A part that overlaps the query, if there is one.  On crowded parts it is the one that ends
last among those that start before the query ends, the first of several. -/
def find? (c : Coverage) (query : Span) : Option Part :=
  match c.layout with
  | .disjoint => Search.locate? (·.span.position query) c.parts >>= (c.parts[·]?)
  | .crowded _ =>
    match c.startedBy query with
    | 0 => none
    -- The parts up to index `i` are those that start before the query ends.
    | i + 1 => (c.furthest? i).filter fun p => query.start < p.span.limit

/-- The kind of the part that `find?` answers with. -/
def kindAt? (c : Coverage) (query : Span) : Option ByteKind :=
  (c.find? query).map (·.kind)

/-- Nothing up to index `i` reaches the query. -/
def isPast (c : Coverage) (query : Span) (i : Nat) : Bool :=
  (c.furthest? i).all fun p => p.span.limit ≤ query.start

/-- Goes down from the index below `count`, and puts the parts that overlap the query in front of
those found so far. -/
def hitsBelow (c : Coverage) (query : Span) : Nat → List Part → List Part
  | 0, found => found
  | i + 1, found =>
    let found := (c.parts[i]?.filter fun p => p.span.Overlaps query).toList ++ found
    -- Parts further to the left end no later than the furthest up to here.
    if c.isPast query i then found else hitsBelow c query i found

/-- Every part that overlaps the query, in order. -/
def hits (c : Coverage) (query : Span) : List Part :=
  c.hitsBelow query (c.startedBy query) []

/-! ### Totals -/

/-- The sizes of the parts added up, stopping at the highest number.  Overlapping parts count
twice. -/
def totalBytes (parts : List Part) : UInt64 :=
  parts.foldl (fun sum p => Address.plus sum p.span.size) 0

def bytes (c : Coverage) : UInt64 :=
  totalBytes c.parts.toList

def bytesOf (c : Coverage) (kind : ByteKind) : UInt64 :=
  totalBytes (c.parts.toList.filter (·.kind = kind))

/-! ### Sorting -/

/-- Building a coverage neither adds nor drops a part. -/
theorem sortParts_perm (parts : List Part) : (sortParts parts).Perm parts :=
  List.mergeSort_perm ..

/-- The parts of a coverage are in listing order. -/
theorem pairwise_sortParts (parts : List Part) :
    (sortParts parts).Pairwise Part.ListedBefore := by
  refine (List.pairwise_mergeSort ?_ ?_ parts).imp (by simp)
  · simpa using fun p q r => Part.ListedBefore.trans
  · simpa using Part.listedBefore_total

theorem toList_parts_ofParts (parts : List Part) :
    (ofParts parts).parts.toList = sortParts parts := rfl

theorem isCrowded_ofParts (parts : List Part) :
    (ofParts parts).isCrowded = hasCrowding (sortParts parts) := by
  simp only [isCrowded, ofParts]
  split <;> rename_i h <;> revert h <;> split <;> simp_all

end Coverage

end ByteCensus
