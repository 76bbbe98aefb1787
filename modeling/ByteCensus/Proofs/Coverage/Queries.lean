import Mathlib.Data.List.MinMax
import ByteCensus.Proofs.Coverage.Hits
import ByteCensus.Proofs.Coverage.Merge
import ByteCensus.Store

/-!
# Queries are linear scans

However a coverage came about (`Built`), asking it gives what going through its parts one by one
would give.

* `find?_agrees_with_scan`: `find?` answers with a part that overlaps the query, and with none only
  where no part does.  On disjoint parts any search will do that reports an element in place
  (`Search.Locates`); on crowded parts the answer is the part that `furthestStarted?` looks up by a
  plain scan.
* `hits_lists_overlapping`: `hits` lists the overlapping parts, each at its place.

Both come from `Built.indexed`: a coverage built from parts is indexed by construction, and one
that was merged needs no index, since its parts lie one behind the other.
-/

namespace ByteCensus.Coverage

variable {c : Coverage} {query : Span} {parts : List Part}

/-! ### Where coverages come from -/

/-- The coverage is one of given parts, or of a store, or the result of a merge, however that breaks
ties. -/
inductive Built : Coverage → Prop
  | ofParts (parts : List Part) : Built (ofParts parts)
  | ofStore (s : Store) : Built s.coverage
  | ofMerge {sort : List Part → List Part} (hsort : SortsByPlace sort) {coverages : List Coverage}
    {m : Coverage} (hok : mergeWith sort coverages = .ok m) : Built m

theorem Separate.ascending (h : Separate parts) : Ascending parts := by
  apply h.imp
  intro p q hle
  exact UInt64.le_trans p.span.start_le_limit hle

theorem Indexed.ofSeparate (hdisjoint : c.layout = .disjoint) (h : Separate c.parts.toList) :
    c.Indexed := by
  refine ⟨h.ascending, fun _ => h, ?_⟩
  intro table hcrowded
  rw [hdisjoint] at hcrowded
  cases hcrowded

/-- However it came about, a coverage is indexed. -/
theorem Built.indexed (h : c.Built) : c.Indexed := by
  cases h with
  | ofParts parts => exact indexed_ofParts parts
  | ofStore s => exact indexed_ofParts s.parts
  | ofMerge hsort hok =>
    obtain ⟨hdisjoint, hseparate⟩ := separate_of_merge_ok hsort hok
    exact .ofSeparate hdisjoint hseparate

/-! ### Finding a part by bisection -/

/-- Parts that lie one behind the other are in order for bisection, whatever the query. -/
theorem Separate.isOrdered_position {parts : Array Part} (h : Separate parts.toList)
    (query : Span) : Search.IsOrdered (·.span.position query) parts := by
  -- Of two parts the one at the smaller index ends before the other starts, or they are the same.
  have hnext (i j : Nat) (p q : Part) (hij : i ≤ j) (hp : parts[i]? = some p)
      (hq : parts[j]? = some q) : p = q ∨ p.span.limit ≤ q.span.start := by
    rcases Nat.lt_or_eq_of_le hij with hlt | rfl
    · right
      obtain ⟨hi, rfl⟩ := Array.getElem?_eq_some_iff.1 hp
      obtain ⟨hj, rfl⟩ := Array.getElem?_eq_some_iff.1 hq
      have hpair := List.pairwise_iff_getElem.1 h i j (by simpa using hi) (by simpa using hj) hlt
      simpa using hpair
    · left
      rw [hp] at hq
      exact Option.some.inj hq
  constructor
  -- A part before one that lies before the query lies before it, too.
  · intro i j p q hij hp hq
    simp only [decide_eq_true_eq, Span.position_eq_lt_iff]
    intro hpast
    rcases hnext i j p q hij hp hq with rfl | hle
    · exact hpast
    · exact UInt64.le_trans hle (UInt64.le_trans q.span.start_le_limit hpast)
  · intro i j p q hij hp hq
    simp only [decide_eq_true_eq, ne_eq, Span.position_eq_gt_iff]
    intro hnot hgt
    rcases hnext i j p q hij hp hq with rfl | hle
    · exact hnot hgt
    · -- `q` starts behind `p`, so it lies behind the query as well.
      have hstart := UInt64.le_trans p.span.start_le_limit hle
      have hbehind : query.start < q.span.limit :=
        UInt64.lt_of_lt_of_le (UInt64.lt_of_lt_of_le hgt.1 hle) q.span.start_le_limit
      exact hnot ⟨hbehind, UInt64.le_trans hgt.2 hstart⟩

/-- The answer of a coverage whose disjoint parts are looked through by the given search. -/
def findBy (search : (Part → Ordering) → Array Part → Option Nat) (c : Coverage) (query : Span) :
    Option Part :=
  match c.layout with
  | .disjoint => search (·.span.position query) c.parts >>= (c.parts[·]?)
  | .crowded _ => c.find? query

/-- With bisection for the search this is `find?`. -/
theorem findBy_locate? (c : Coverage) (query : Span) :
    c.findBy Search.locate? query = c.find? query := by
  unfold findBy find?
  cases c.layout <;> rfl

/-! ### The part that ends last -/

/-- Of the parts that start before the query ends, the first of those that end last. -/
def furthestStarted? (c : Coverage) (query : Span) : Option Part :=
  (c.parts.toList.filter fun p => p.span.start < query.limit).argmax fun p => p.span.limit.toNat

theorem mem_started {p : Part} :
    p ∈ c.parts.toList.filter (fun p => p.span.start < query.limit) ↔
      p ∈ c.parts ∧ p.span.start < query.limit := by
  simp

/-- No part that starts before the query ends reaches further, and one that starts then overlaps
the query as soon as it reaches it. -/
theorem overlaps_of_furthestStarted? {p q : Part} (hp : c.furthestStarted? query = some p)
    (hq : q ∈ c.parts) (hover : q.span.Overlaps query) :
    p ∈ c.parts ∧ p.span.Overlaps query := by
  have hstarted := mem_started.1 (List.argmax_mem hp)
  have hle : q.span.limit.toNat ≤ p.span.limit.toNat :=
    List.le_of_mem_argmax (f := fun p : Part => p.span.limit.toNat)
      (mem_started.2 ⟨hq, hover.1⟩) hp
  have hreach : query.start < p.span.limit :=
    UInt64.lt_of_lt_of_le hover.2 (UInt64.le_iff_toNat_le.2 hle)
  exact ⟨hstarted.1, hstarted.2, hreach⟩

/-- Where that part misses the query, every part does. -/
theorem filter_furthestStarted?_eq_none_iff :
    (c.furthestStarted? query).filter (fun p => p.span.Overlaps query) = none ↔
      ∀ p ∈ c.parts, ¬ p.span.Overlaps query := by
  constructor
  -- If `q` overlapped the query, so would the part that reaches furthest.
  · intro hnone q hq hover
    cases hfurthest : c.furthestStarted? query with
    | none =>
      have hnil := List.argmax_eq_none.1 hfurthest
      have hmem := mem_started.2 ⟨hq, hover.1⟩
      rw [hnil] at hmem
      cases hmem
    | some p =>
      have hp := overlaps_of_furthestStarted? hfurthest hq hover
      simp [hfurthest, hp.2] at hnone
  · intro hmiss
    cases hfurthest : c.furthestStarted? query with
    | none => rfl
    | some p =>
      have hp := mem_started.1 (List.argmax_mem hfurthest)
      simp [hmiss p hp.1]

/-- The parts that start before the query ends are those up to the border of the bisection. -/
theorem Indexed.filter_started (h : c.Indexed) (query : Span) :
    c.parts.toList.filter (fun p => p.span.start < query.limit) =
      c.parts.toList.take (c.startedBy query) := by
  have hinitial : Search.IsInitial (fun p : Part => decide (p.span.start < query.limit)) c.parts :=
    h.isInitial_started
  obtain ⟨hbefore, hbehind⟩ := Search.countWhile_spec hinitial
  -- All parts before the border start in time, and none behind it does.
  have htake : ∀ p ∈ c.parts.toList.take (c.startedBy query), p.span.start < query.limit := by
    intro p hp
    obtain ⟨i, hi⟩ := List.mem_iff_getElem?.1 hp
    rw [List.getElem?_take, Option.ite_none_right_eq_some, Array.getElem?_toList] at hi
    simpa using hbefore i p hi.1 hi.2
  have hdrop : ∀ p ∈ c.parts.toList.drop (c.startedBy query), ¬ p.span.start < query.limit := by
    intro p hp
    obtain ⟨i, hi⟩ := List.mem_iff_getElem?.1 hp
    rw [List.getElem?_drop, Array.getElem?_toList] at hi
    simpa using hbehind _ p (Nat.le_add_right _ i) hi
  conv_lhs => rw [← List.take_append_drop (c.startedBy query) c.parts.toList]
  rw [List.filter_append, List.filter_eq_self.2 (by simpa using htake),
    List.filter_eq_nil_iff.2 (by simpa using hdrop), List.append_nil]

/-- The part that the table names is the first of those with the greatest limit. -/
theorem IsFurthest.argmax_take {i j : Nat} {p : Part} (h : IsFurthest parts i j p) :
    (parts.take (i + 1)).argmax (fun p => p.span.limit.toNat) = some p := by
  -- Parts may stand at several positions; the first one counts.
  have hfirst (q : Part) (hq : q ∈ parts.take (i + 1)) :
      parts[(parts.take (i + 1)).idxOf q]? = some q ∧ (parts.take (i + 1)).idxOf q < i + 1 := by
    have hget := List.getElem?_idxOf hq
    rw [List.getElem?_take, Option.ite_none_right_eq_some] at hget
    exact ⟨hget.2, hget.1⟩
  have hj := h.le
  have hpj : (parts.take (i + 1))[j]? = some p := by
    rw [List.getElem?_take_of_lt (by omega), h.getElem?_eq]
  have hp := List.mem_of_getElem? hpj
  have hidx : (parts.take (i + 1)).idxOf p < j + 1 := by
    rw [← List.mem_take_iff_idxOf_lt hp]
    apply List.mem_of_getElem? (i := j)
    rw [List.getElem?_take_of_lt (by omega), hpj]
  rw [List.argmax_eq_some_iff]
  refine ⟨hp, ?_, ?_⟩
  · intro q hq
    obtain ⟨hget, hlt⟩ := hfirst q hq
    exact UInt64.le_iff_toNat_le.1 (h.limit_le _ q (by omega) hget)
  · intro q hq hle
    -- What stands before `p` ends before it does.
    obtain ⟨hget, -⟩ := hfirst q hq
    by_contra hbefore
    have hlt := h.limit_lt _ q (by omega) hget
    rw [UInt64.lt_iff_toNat_lt] at hlt
    omega

/-- On crowded parts `find?` looks up the part that ends last of those started, and tests it. -/
theorem Indexed.find?_of_isCrowded (h : c.Indexed) (hcrowded : c.isCrowded = true)
    (query : Span) :
    c.find? query = (c.furthestStarted? query).filter fun p => p.span.Overlaps query := by
  obtain ⟨table, hlayout⟩ := isCrowded_iff.1 hcrowded
  have hle : c.startedBy query ≤ c.parts.size := Search.countWhile_le _ _
  unfold furthestStarted?
  rw [h.filter_started]
  -- No part may have started; then nothing is found.
  cases hcount : c.startedBy query with
  | zero =>
    have hfind : c.find? query = none := by simp only [find?, hlayout, hcount]
    rw [hfind]
    rfl
  | succ i =>
    have hfind : c.find? query = (c.furthest? i).filter fun p => query.start < p.span.limit := by
      simp only [find?, hlayout, hcount]
    obtain ⟨j, p, hp, hfurthest⟩ := h.exists_isFurthest hcrowded (by omega : i < c.parts.size)
    have hstarted : p.span.start < query.limit := by
      have hmem := List.argmax_mem hfurthest.argmax_take
      rw [← hcount, ← h.filter_started] at hmem
      exact (mem_started.1 hmem).2
    rw [hfind, hp, hfurthest.argmax_take]
    simp only [Option.filter, Span.Overlaps, hstarted, true_and]

/-! ### Queries -/

/-- A part that overlaps the query, or nothing where no part does. -/
def IsAnswer (c : Coverage) (query : Span) : Option Part → Prop
  | none => ∀ p ∈ c.parts, ¬ p.span.Overlaps query
  | some p => p ∈ c.parts ∧ p.span.Overlaps query

theorem IsAnswer.eq_none_iff {answer : Option Part} (h : c.IsAnswer query answer) :
    answer = none ↔ ∀ p ∈ c.parts, ¬ p.span.Overlaps query := by
  cases answer with
  | none => exact ⟨fun _ => h, fun _ => rfl⟩
  | some p =>
    constructor
    · intro hnone
      cases hnone
    · intro hmiss
      exact absurd h.2 (hmiss p h.1)

/-- On disjoint parts any search that reports an element in place answers rightly. -/
theorem Indexed.isAnswer_of_disjoint (h : c.Indexed) (hdisjoint : c.layout = .disjoint)
    {search : (Part → Ordering) → Array Part → Option Nat} (hsearch : Search.Locates search) :
    c.IsAnswer query (c.findBy search query) := by
  obtain ⟨hsome, hnone⟩ := hsearch _ _ ((h.separate hdisjoint).isOrdered_position query)
  simp only [ne_eq, Span.position_eq_eq_iff] at hsome hnone
  unfold findBy
  rw [hdisjoint]
  dsimp only
  cases hanswer : search (·.span.position query) c.parts with
  | none => exact hnone hanswer
  | some i =>
    obtain ⟨p, hp, hover⟩ := hsome i hanswer
    show c.IsAnswer query c.parts[i]?
    rw [hp]
    exact ⟨Array.mem_of_getElem? hp, hover⟩

/-- On crowded parts the furthest part started answers rightly. -/
theorem Indexed.isAnswer_of_isCrowded (h : c.Indexed) (hcrowded : c.isCrowded = true) :
    c.IsAnswer query (c.find? query) := by
  rw [h.find?_of_isCrowded hcrowded]
  cases hanswer : (c.furthestStarted? query).filter fun p => p.span.Overlaps query with
  | none => exact filter_furthestStarted?_eq_none_iff.1 hanswer
  | some p =>
    obtain ⟨hfurthest, hover⟩ := Option.filter_eq_some_iff.1 hanswer
    exact ⟨(mem_started.1 (List.argmax_mem hfurthest)).1, by simpa using hover⟩

theorem Indexed.isAnswer_findBy (h : c.Indexed)
    {search : (Part → Ordering) → Array Part → Option Nat} (hsearch : Search.Locates search) :
    c.IsAnswer query (c.findBy search query) := by
  cases hlayout : c.layout with
  | disjoint => exact h.isAnswer_of_disjoint hlayout hsearch
  | crowded table =>
    have hfind : c.findBy search query = c.find? query := by
      unfold findBy
      rw [hlayout]
    rw [hfind]
    exact h.isAnswer_of_isCrowded (isCrowded_iff.2 ⟨table, hlayout⟩)

/-- **Finding is a linear scan.**  However the coverage came about and whatever the query:

* nothing is found exactly if no part overlaps the query;
* what is found is a part that overlaps the query, and its kind is the kind reported;
* on crowded parts it is, by a plain scan, the first of those that end last among the parts that
  start before the query ends;
* on disjoint parts it makes no difference to this how the search picks among parts in place. -/
theorem find?_agrees_with_scan (c : Coverage) (hbuilt : c.Built) (query : Span) :
    (c.find? query = none ↔ ∀ p ∈ c.parts, ¬ p.span.Overlaps query) ∧
    (c.kindAt? query = none ↔ ∀ p ∈ c.parts, ¬ p.span.Overlaps query) ∧
    (∀ p, c.find? query = some p →
      p ∈ c.parts ∧ p.span.Overlaps query ∧ c.kindAt? query = some p.kind) ∧
    (c.isCrowded = true →
      c.find? query = (c.furthestStarted? query).filter fun p => p.span.Overlaps query) ∧
    ∀ search, Search.Locates search →
      (c.findBy search query = none ↔ ∀ p ∈ c.parts, ¬ p.span.Overlaps query) ∧
      ∀ p, c.findBy search query = some p → p ∈ c.parts ∧ p.span.Overlaps query := by
  have hindexed := hbuilt.indexed
  -- It is enough that bisection is such a search.
  have hfind : c.IsAnswer query (c.find? query) := by
    rw [← findBy_locate?]
    exact hindexed.isAnswer_findBy Search.locates_locate?
  refine ⟨hfind.eq_none_iff, ?_, ?_, ?_, ?_⟩
  · rw [kindAt?, Option.map_eq_none_iff]
    exact hfind.eq_none_iff
  · intro p hp
    rw [hp] at hfind
    obtain ⟨hmem, hover⟩ := hfind
    refine ⟨hmem, hover, ?_⟩
    rw [kindAt?, hp, Option.map_some]
  · intro hcrowded
    exact hindexed.find?_of_isCrowded hcrowded query
  · intro search hsearch
    have hfound : c.IsAnswer query (c.findBy search query) := hindexed.isAnswer_findBy hsearch
    refine ⟨hfound.eq_none_iff, ?_⟩
    intro p hp
    rwa [hp] at hfound

/-- A long part reaches over two short ones and answers for what lies behind them. -/
theorem find?_agrees_with_scan_below_long_part :
    let c := ofParts [⟨⟨0, 256⟩, .text⟩, ⟨⟨16, 16⟩, .data⟩, ⟨⟨48, 16⟩, .data⟩]
    let query : Span := ⟨80, 16⟩
    c.Built ∧ c.isCrowded = true ∧ c.find? query = some ⟨⟨0, 256⟩, .text⟩ ∧
      (c.find? query = none ↔ ∀ p ∈ c.parts, ¬ p.span.Overlaps query) ∧
      c.find? query = (c.furthestStarted? query).filter fun p => p.span.Overlaps query := by
  intro c query
  have hbuilt : c.Built := .ofParts _
  have hcrowded : c.isCrowded = true := by cbv
  have hfind : c.find? query = some ⟨⟨0, 256⟩, .text⟩ := by cbv
  have hscan := find?_agrees_with_scan c hbuilt query
  exact ⟨hbuilt, hcrowded, hfind, hscan.1, hscan.2.2.2.1 hcrowded⟩

/-- **The list of hits is exact.**  However the coverage came about and whatever the query, `hits`
keeps the parts that overlap it, in their order, and drops the others. -/
theorem hits_lists_overlapping (c : Coverage) (hbuilt : c.Built) (query : Span) :
    c.hits query = c.parts.toList.filter fun p => p.span.Overlaps query :=
  hbuilt.indexed.hits_eq_filter query

/-- A merge leaves code, and a data marker at its end; a query across the end hits both. -/
theorem hits_lists_overlapping_at_marker :
    let coverages := [ofParts [⟨⟨16, 16⟩, .text⟩, ⟨⟨64, 16⟩, .text⟩], ofParts [⟨⟨32, 0⟩, .data⟩]]
    let m : Coverage := ⟨#[⟨⟨16, 16⟩, .text⟩, ⟨⟨32, 0⟩, .data⟩, ⟨⟨64, 16⟩, .text⟩], .disjoint⟩
    let query : Span := ⟨24, 9⟩
    merge coverages = .ok m ∧
      m.hits query = [⟨⟨16, 16⟩, .text⟩, ⟨⟨32, 0⟩, .data⟩] ∧
      m.hits query = m.parts.toList.filter fun p => p.span.Overlaps query := by
  intro coverages m query
  have hok : merge coverages = .ok m := by cbv
  have hhits : m.hits query = [⟨⟨16, 16⟩, .text⟩, ⟨⟨32, 0⟩, .data⟩] := by cbv
  exact ⟨hok, hhits, hits_lists_overlapping m (.ofMerge sortsByPlace_sortByPlace hok) query⟩

end ByteCensus.Coverage
