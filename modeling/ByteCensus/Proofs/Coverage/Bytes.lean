import Mathlib.Data.FinEnum
import Mathlib.Data.Set.Card
import Mathlib.Order.Interval.Finset.Nat
import ByteCensus.Proofs.Coverage.Merge

/-!
# Counting the bytes of a merged coverage

The size of a span is the number of its bytes as long as the span `Fits` below the highest address
(`Span.ncard_byteSet`), and the hull of two spans that touch has the bytes of both and no others
(`Span.byteSet_hull`).  So joining parts keeps, for each kind, the set of bytes
(`byteSet_filter_joinFrom`), while it makes the parts `Separate`; and the sizes of separate parts
add up to the number of their bytes (`sizeSum_eq_ncard`).

`merge_counts_addresses` puts this together for the totals of a merged coverage.  Since every byte
has an address of its own, the totals never reach the point where adding stops.

A marker has no bytes.  It takes part in the sweep, but neither closes a gap between spans with
bytes nor counts.
-/

namespace ByteCensus

namespace Span

variable {s t : Span}

/-! ### The bytes of a span -/

/-- The addresses of the bytes of a span.  A marker has none. -/
def byteSet (s : Span) : Set Address := {x | s.start ≤ x ∧ x < s.stop}

/-- The bytes of the span end at the highest address or before. -/
def Fits (s : Span) : Prop := s.start.toNat + s.size.toNat ≤ 0xffffffffffffffff

instance (s : Span) : Decidable s.Fits := inferInstanceAs (Decidable (_ ≤ _))

theorem mem_byteSet {x : Address} : x ∈ s.byteSet ↔ s.start ≤ x ∧ x < s.stop := Iff.rfl

/-- A span with bytes occupies exactly these. -/
theorem mem_byteSet_iff_sized {x : Address} : x ∈ s.byteSet ↔ s.size ≠ 0 ∧ x ∈ s := by
  rw [mem_byteSet, mem_def]
  constructor
  · rintro ⟨hstart, hstop⟩
    have hsized := sized_of_start_lt_stop (UInt64.lt_of_le_of_lt hstart hstop)
    rw [limit_eq_stop_of_sized hsized]
    exact ⟨hsized, hstart, hstop⟩
  · rintro ⟨hsized, hstart, hlimit⟩
    rw [limit_eq_stop_of_sized hsized] at hlimit
    exact ⟨hstart, hlimit⟩

/-- Spans that touch leave no gap, so their hull has the bytes of both and no others. -/
theorem byteSet_hull (hle : s.start ≤ t.start) (htouch : s.Touches t) :
    (s.hull t).byteSet = s.byteSet ∪ t.byteSet := by
  have hstop := toNat_stop_hull hle
  have hgap := htouch.start_le_stop
  ext x
  simp only [Set.mem_union, mem_byteSet, start_hull hle, UInt64.le_iff_toNat_le,
    UInt64.lt_iff_toNat_lt] at hle hgap ⊢
  -- A gap would be between the two ends that `hgap` compares.
  omega

/-- As many addresses as the bytes that the span has. -/
theorem ncard_byteSet (hfits : s.Fits) : s.byteSet.ncard = s.size.toNat := by
  have hstop := toNat_stop s
  -- As numbers the addresses of the bytes are an interval.
  have himage : UInt64.toNat '' s.byteSet = Finset.Ico s.start.toNat s.stop.toNat := by
    ext n
    simp only [Set.mem_image, mem_byteSet, Finset.coe_Ico, Set.mem_Ico, UInt64.le_iff_toNat_le,
      UInt64.lt_iff_toNat_lt]
    constructor
    · rintro ⟨x, hx, rfl⟩
      exact hx
    · intro hn
      have hlt : n < UInt64.size := lt_trans hn.2 s.stop.toNat_lt
      refine ⟨UInt64.ofNat n, ?_, UInt64.toNat_ofNat_of_lt' hlt⟩
      rwa [UInt64.toNat_ofNat_of_lt' hlt]
  have hinj : Function.Injective UInt64.toNat := fun x y => UInt64.toNat_inj.1
  unfold Fits at hfits
  rw [← Set.ncard_image_of_injective _ hinj, himage, Set.ncard_coe_finset, Nat.card_Ico]
  omega

/-- A hull stops where one of the two spans does, so its size is never cut off. -/
theorem fits_hull (hle : s.start ≤ t.start) : (s.hull t).Fits := by
  have hs := s.stop.toNat_le_top
  have ht := t.stop.toNat_le_top
  have hstart : s.start.toNat ≤ s.stop.toNat := UInt64.le_iff_toNat_le.1 s.start_le_stop
  have hsize := toNat_size_hull hle
  unfold Fits
  rw [start_hull hle, hsize]
  omega

end Span

namespace Coverage

variable {last : Part} {parts rest out : List Part} {kind : ByteKind}
  {sort : List Part → List Part} {coverages : List Coverage} {m : Coverage}

/-! ### The bytes of parts -/

/-- The addresses of the bytes of any of the parts. -/
def byteSet (parts : List Part) : Set Address := {x | ∃ p ∈ parts, x ∈ p.span.byteSet}

theorem mem_byteSet {x : Address} : x ∈ byteSet parts ↔ ∃ p ∈ parts, x ∈ p.span.byteSet := Iff.rfl

theorem byteSet_nil : byteSet [] = ∅ := by
  ext x
  simp [mem_byteSet]

theorem byteSet_cons (p : Part) (rest : List Part) :
    byteSet (p :: rest) = p.span.byteSet ∪ byteSet rest := by
  ext x
  simp [mem_byteSet]

/-- The sizes of parts added up, without an upper limit. -/
def sizeSum (parts : List Part) : Nat := (parts.map (·.span.size.toNat)).sum

/-- Parts that lie one behind the other share no byte, so their sizes add up to the number of
addresses. -/
theorem sizeSum_eq_ncard (hseparate : Separate parts) (hfits : ∀ p ∈ parts, p.span.Fits) :
    sizeSum parts = (byteSet parts).ncard := by
  induction parts with
  | nil =>
    rw [byteSet_nil, Set.ncard_empty]
    rfl
  | cons p rest ih =>
    obtain ⟨hp, hrest⟩ := List.pairwise_cons.1 hseparate
    -- A byte of the first part lies before all later parts.
    have hdisjoint : Disjoint p.span.byteSet (byteSet rest) := by
      rw [Set.disjoint_left]
      rintro x ⟨-, hstop⟩ ⟨q, hq, hstart, -⟩
      have hle := UInt64.le_trans p.span.stop_le_limit (UInt64.le_trans (hp q hq) hstart)
      exact UInt64.not_lt.2 hle hstop
    have hsum := ih hrest fun q hq => hfits q (List.mem_cons_of_mem p hq)
    have hbytes := Span.ncard_byteSet (hfits p List.mem_cons_self)
    have hcons : sizeSum (p :: rest) = p.span.size.toNat + sizeSum rest := rfl
    rw [byteSet_cons, Set.ncard_union_eq hdisjoint, hbytes, ← hsum, hcons]

/-- The highest address belongs to no byte, so no set of bytes is too large to be counted. -/
theorem ncard_byteSet_le (parts : List Part) :
    (byteSet parts).ncard ≤ 0xffffffffffffffff := by
  have hall : (⟨0, Address.top⟩ : Span).Fits := by decide
  -- All bytes are bytes of the span from zero to the highest address.
  have hsub : byteSet parts ⊆ (⟨0, Address.top⟩ : Span).byteSet := by
    rintro x ⟨p, -, -, hstop⟩
    have htop := p.span.stop.toNat_le_top
    have hstop_all := Span.toNat_stop ⟨0, Address.top⟩
    rw [Span.mem_byteSet]
    simp only [UInt64.le_iff_toNat_le, UInt64.lt_iff_toNat_lt, Address.toNat_top,
      UInt64.toNat_zero] at hstop hstop_all ⊢
    omega
  have hcard := Set.ncard_le_ncard hsub
  rwa [Span.ncard_byteSet hall] at hcard

/-! ### Totals -/

/-- Adding up stops at the highest number, and is exact below it. -/
theorem toNat_totalBytes (parts : List Part) :
    (totalBytes parts).toNat = min (sizeSum parts) 0xffffffffffffffff := by
  -- For the induction, adding up starts with any sum.
  suffices h : ∀ sum : UInt64,
      (parts.foldl (fun sum p => Address.plus sum p.span.size) sum).toNat =
        min (sum.toNat + sizeSum parts) 0xffffffffffffffff by
    have hzero := h 0
    rwa [UInt64.toNat_zero, Nat.zero_add] at hzero
  induction parts with
  | nil =>
    intro sum
    have hsum := Address.toNat_le_top sum
    show sum.toNat = min (sum.toNat + 0) _
    omega
  | cons p rest ih =>
    intro sum
    have hcons : sizeSum (p :: rest) = p.span.size.toNat + sizeSum rest := rfl
    rw [List.foldl_cons, ih, Address.toNat_plus, hcons]
    omega

/-- No addition on the way to the total is cut off. -/
def AddsExactly (parts : List Part) : Prop :=
  ∀ before p after, parts = before ++ p :: after →
    (totalBytes before).toNat + p.span.size.toNat ≤ 0xffffffffffffffff

/-- If the sum can be represented, each sum on the way to it can. -/
theorem addsExactly_of_sizeSum_le (h : sizeSum parts ≤ 0xffffffffffffffff) :
    AddsExactly parts := by
  rintro before p after rfl
  have hsplit : sizeSum (before ++ p :: after) =
      sizeSum before + (p.span.size.toNat + sizeSum after) := by
    simp [sizeSum]
  have hbefore := toNat_totalBytes before
  omega

/-- Separate parts are too few to be cut off: each byte has an address of its own. -/
theorem sizeSum_le_of_separate (hseparate : Separate parts) (hfits : ∀ p ∈ parts, p.span.Fits) :
    sizeSum parts ≤ 0xffffffffffffffff := by
  rw [sizeSum_eq_ncard hseparate hfits]
  exact ncard_byteSet_le parts

theorem toNat_totalBytes_of_separate (hseparate : Separate parts)
    (hfits : ∀ p ∈ parts, p.span.Fits) : (totalBytes parts).toNat = sizeSum parts := by
  have hle := sizeSum_le_of_separate hseparate hfits
  rw [toNat_totalBytes]
  omega

/-- Each part is of one kind. -/
theorem sum_sizeSum_filter (parts : List Part) :
    (ByteKind.all.map fun kind => sizeSum (parts.filter (·.kind = kind))).sum = sizeSum parts := by
  induction parts with
  | nil => rfl
  | cons p rest ih =>
    have hcons : sizeSum (p :: rest) = p.span.size.toNat + sizeSum rest := rfl
    rw [hcons, ← ih]
    cases hkind : p.kind <;> simp [ByteKind.all, hkind, sizeSum] <;> omega

/-! ### Joining parts -/

/-- Joined parts fit if the parts swept do: a hull always does. -/
theorem fits_of_joinFrom (hasc : Ascending (last :: rest)) (hok : joinFrom last rest = .ok out)
    (hfits : ∀ p ∈ last :: rest, p.span.Fits) : ∀ q ∈ out, q.span.Fits := by
  induction rest generalizing last out with
  | nil =>
    obtain rfl : [last] = out := by simpa [joinFrom] using hok
    exact hfits
  | cons next rest ih =>
    have hrest : ∀ p ∈ rest, p.span.Fits := fun p hp => hfits p (by simp [hp])
    rw [joinFrom_cons] at hok
    split at hok
    · refine ih hasc.join hok ?_
      intro p hp
      rcases List.mem_cons.1 hp with rfl | hp
      · exact Span.fits_hull hasc.start_le
      · exact hrest p hp
    · split at hok
      · cases hok
      · obtain ⟨joined, hjoined, rfl⟩ := exists_of_map_eq_ok hok
        have hnext : ∀ p ∈ next :: rest, p.span.Fits := fun p hp => hfits p (by simp [hp])
        have hall := ih hasc.tail hjoined hnext
        exact List.forall_mem_cons.2 ⟨hfits last List.mem_cons_self, hall⟩

/-- **Joining keeps the bytes of each kind.** -/
theorem byteSet_filter_joinFrom (hasc : Ascending (last :: rest))
    (hok : joinFrom last rest = .ok out) (kind : ByteKind) :
    byteSet (out.filter (·.kind = kind)) = byteSet ((last :: rest).filter (·.kind = kind)) := by
  induction rest generalizing last out with
  | nil =>
    obtain rfl : [last] = out := by simpa [joinFrom] using hok
    rfl
  | cons next rest ih =>
    rw [joinFrom_cons] at hok
    split at hok
    · next htouch =>
      rw [ih hasc.join hok]
      -- The two parts are of one kind, which is the one looked at or not.
      by_cases hkind : last.kind = kind
      · have hhull := Span.byteSet_hull hasc.start_le htouch.2
        have hnext : next.kind = kind := htouch.1.symm.trans hkind
        simp [hkind, hnext, byteSet_cons, joinPart, hhull, Set.union_assoc]
      · have hnext : next.kind ≠ kind := fun h => hkind (htouch.1.trans h)
        simp [hkind, hnext]
    · split at hok
      · cases hok
      · obtain ⟨joined, hjoined, rfl⟩ := exists_of_map_eq_ok hok
        have htail := ih hasc.tail hjoined
        by_cases hkind : last.kind = kind
        · simp [hkind, byteSet_cons, htail]
        · simp [hkind, htail]

theorem fits_of_join (hasc : Ascending parts) (hok : join parts = .ok out)
    (hfits : ∀ p ∈ parts, p.span.Fits) : ∀ q ∈ out, q.span.Fits := by
  cases parts with
  | nil =>
    obtain rfl : [] = out := by simpa [join] using hok
    exact hfits
  | cons first rest => exact fits_of_joinFrom hasc hok hfits

theorem byteSet_filter_join (hasc : Ascending parts) (hok : join parts = .ok out)
    (kind : ByteKind) :
    byteSet (out.filter (·.kind = kind)) = byteSet (parts.filter (·.kind = kind)) := by
  cases parts with
  | nil =>
    obtain rfl : [] = out := by simpa [join] using hok
    rfl
  | cons first rest => exact byteSet_filter_joinFrom hasc hok kind

/-! ### Merged coverages -/

theorem byteSet_congr {more : List Part} (h : ∀ p, p ∈ parts ↔ p ∈ more) :
    byteSet parts = byteSet more := by
  ext x
  simp only [mem_byteSet, h]

theorem mem_byteSet_iff_exists_kind {x : Address} :
    x ∈ byteSet parts ↔ ∃ kind, x ∈ byteSet (parts.filter (·.kind = kind)) := by
  constructor
  · rintro ⟨p, hp, hx⟩
    exact ⟨p.kind, p, by simp [hp], hx⟩
  · rintro ⟨kind, p, hp, hx⟩
    exact ⟨p, List.mem_of_mem_filter hp, hx⟩

/-- Merged parts fit if the parts of all coverages do. -/
theorem fits_of_merge_ok (hsort : SortsByPlace sort) (hok : mergeWith sort coverages = .ok m)
    (hfits : ∀ c ∈ coverages, ∀ p ∈ c.parts, p.span.Fits) :
    ∀ q ∈ m.parts.toList, q.span.Fits := by
  refine fits_of_join (hsort.ascending _) (join_of_merge_ok hok).2 ?_
  intro p hp
  obtain ⟨c, hc, hpc⟩ := mem_allParts.1 (hsort.mem_iff.1 hp)
  exact hfits c hc p hpc

/-- A merge keeps the bytes of each kind. -/
theorem byteSet_filter_of_merge_ok (hsort : SortsByPlace sort)
    (hok : mergeWith sort coverages = .ok m) (kind : ByteKind) :
    byteSet (m.parts.toList.filter (·.kind = kind)) =
      byteSet ((allParts coverages).filter (·.kind = kind)) := by
  rw [byteSet_filter_join (hsort.ascending _) (join_of_merge_ok hok).2]
  apply byteSet_congr
  simp [hsort.mem_iff]

/-- The bytes of the parts of a kind are what these occupy, markers apart. -/
theorem byteSet_filter_allParts (coverages : List Coverage) (kind : ByteKind) :
    byteSet ((allParts coverages).filter (·.kind = kind)) =
      {x | ∃ c ∈ coverages, ∃ p ∈ c.parts, p.kind = kind ∧ p.span.size ≠ 0 ∧ x ∈ p.span} := by
  ext x
  simp only [mem_byteSet, Span.mem_byteSet_iff_sized, List.mem_filter, decide_eq_true_eq,
    mem_allParts, Set.mem_ofPred_eq]
  constructor
  · rintro ⟨p, ⟨⟨c, hc, hp⟩, hkind⟩, hx⟩
    exact ⟨c, hc, p, hp, hkind, hx⟩
  · rintro ⟨c, hc, p, hp, hkind, hx⟩
    exact ⟨p, ⟨⟨c, hc, hp⟩, hkind⟩, hx⟩

/-- **A merged coverage counts every address once**, however ties are broken.  If no part of the
coverages is cut off at the highest address and they can be merged, then

* the bytes of a kind are as many as the addresses that parts of that kind with bytes occupy;
* all bytes are as many as the addresses that parts with bytes occupy, and as many as the bytes of
  the four kinds together;
* none of the additions behind these numbers is cut off. -/
theorem merge_counts_addresses (sort : List Part → List Part) (hsort : SortsByPlace sort)
    (coverages : List Coverage) (m : Coverage)
    (hfits : ∀ c ∈ coverages, ∀ p ∈ c.parts, p.span.Fits)
    (hok : mergeWith sort coverages = .ok m) :
    (∀ kind, (m.bytesOf kind).toNat =
      {x | ∃ c ∈ coverages, ∃ p ∈ c.parts,
        p.kind = kind ∧ p.span.size ≠ 0 ∧ x ∈ p.span}.ncard) ∧
    m.bytes.toNat =
      {x | ∃ c ∈ coverages, ∃ p ∈ c.parts, p.span.size ≠ 0 ∧ x ∈ p.span}.ncard ∧
    m.bytes.toNat = (ByteKind.all.map fun kind => (m.bytesOf kind).toNat).sum ∧
    AddsExactly m.parts.toList ∧
    ∀ kind, AddsExactly (m.parts.toList.filter (·.kind = kind)) := by
  have hfits_merged := fits_of_merge_ok hsort hok hfits
  have hbytes (kind : ByteKind) := (byteSet_filter_of_merge_ok hsort hok kind).trans
    (byteSet_filter_allParts coverages kind)
  have hseparate := (separate_of_merge_ok hsort hok).2
  have hseparate_kind (kind : ByteKind) : Separate (m.parts.toList.filter (·.kind = kind)) :=
    hseparate.sublist List.filter_sublist
  have hfits_kind (kind : ByteKind) : ∀ q ∈ m.parts.toList.filter (·.kind = kind), q.span.Fits :=
    fun q hq => hfits_merged q (List.mem_of_mem_filter hq)
  have hkind (kind : ByteKind) :
      (m.bytesOf kind).toNat = sizeSum (m.parts.toList.filter (·.kind = kind)) :=
    toNat_totalBytes_of_separate (hseparate_kind kind) (hfits_kind kind)
  have hall : m.bytes.toNat = sizeSum m.parts.toList :=
    toNat_totalBytes_of_separate hseparate hfits_merged
  refine ⟨?_, ?_, ?_, ?_, ?_⟩
  · intro kind
    rw [hkind, sizeSum_eq_ncard (hseparate_kind kind) (hfits_kind kind), hbytes]
  -- The bytes of all parts are those of some kind.
  · rw [hall, sizeSum_eq_ncard hseparate hfits_merged]
    congr 1
    ext x
    simp only [mem_byteSet_iff_exists_kind, hbytes, Set.mem_ofPred_eq]
    constructor
    · rintro ⟨-, c, hc, p, hp, -, hx⟩
      exact ⟨c, hc, p, hp, hx⟩
    · rintro ⟨c, hc, p, hp, hx⟩
      exact ⟨p.kind, c, hc, p, hp, rfl, hx⟩
  · simp only [hkind]
    rw [hall, sum_sizeSum_filter]
  · exact addsExactly_of_sizeSum_le (sizeSum_le_of_separate hseparate hfits_merged)
  · intro kind
    exact addsExactly_of_sizeSum_le
      (sizeSum_le_of_separate (hseparate_kind kind) (hfits_kind kind))

/-- Code from two coverages that overlaps and touches, a marker, and data behind it. -/
theorem merge_counts_addresses_of_overlapping_code :
    let coverages := [ofParts [⟨⟨16, 16⟩, .text⟩, ⟨⟨32, 16⟩, .text⟩],
      ofParts [⟨⟨40, 16⟩, .text⟩, ⟨⟨56, 0⟩, .text⟩, ⟨⟨56, 1⟩, .data⟩]]
    let m : Coverage := ⟨#[⟨⟨16, 40⟩, .text⟩, ⟨⟨56, 1⟩, .data⟩], .disjoint⟩
    (∀ c ∈ coverages, ∀ p ∈ c.parts, p.span.Fits) ∧ merge coverages = .ok m ∧
      m.bytesOf .text = 40 ∧
      (m.bytesOf .text).toNat =
        {x | ∃ c ∈ coverages, ∃ p ∈ c.parts,
          p.kind = .text ∧ p.span.size ≠ 0 ∧ x ∈ p.span}.ncard := by
  intro coverages m
  have hfits : ∀ c ∈ coverages, ∀ p ∈ c.parts, p.span.Fits := by
    simp only [coverages, List.forall_mem_cons, mem_parts_ofParts]
    decide
  have hok : merge coverages = .ok m := by cbv
  have hcount : m.bytesOf .text = 40 := by cbv
  obtain ⟨hkind, -⟩ := merge_counts_addresses _ sortsByPlace_sortByPlace coverages m hfits hok
  exact ⟨hfits, hok, hcount, hkind .text⟩

end Coverage

end ByteCensus
