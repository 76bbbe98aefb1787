import ByteCensus.Proofs.Coverage.Bytes
import ByteCensus.Proofs.Coverage.Canonical
import ByteCensus.Proofs.Coverage.Occupied

/-!
# Merging and the order of the coverages

The sweep takes the parts by start and end.  In which order it takes those that are equal in both is
up to the sorting, which may go by the order in which their coverages were given.  So that order
decides how ties are broken, and nothing else.

* Where a merge succeeds its result does not depend on that.  The bytes of a kind and the addresses
  that a kind occupies are the same for every order, and parts in canonical form can be read off
  from these two (`outlines_eq_of_canonical`): a part starts where the one before it leaves off,
  and stops where its bytes do.
* Whether it succeeds may depend on it at one place only, a `TornTie`: two markers of different
  kinds at one address, of which one is absorbed.  If the absorbed one comes first it is gone when
  the other one is met; if it comes last it meets the other one.

`merge_perm` puts this together, and `merge_order_matters_at_torn_tie` shows that a torn tie makes
the difference.
-/

namespace ByteCensus.Coverage

variable {parts more : List Part} {p q : Part} {kind : ByteKind}
  {sort : List Part → List Part} {coverages reordered : List Coverage} {m m' : Coverage}

/-! ### Reading off canonical parts -/

/-- The start, the end and the kind of each part that starts below the highest address. -/
def outlines (parts : List Part) : List (Address × Address × ByteKind) :=
  (parts.filter (·.span.start ≠ Address.top)).map fun p => (p.span.start, p.span.stop, p.kind)

theorem mem_outlines {o : Address × Address × ByteKind} :
    o ∈ outlines parts ↔ ∃ p ∈ parts, p.span.start ≠ Address.top ∧
      (p.span.start, p.span.stop, p.kind) = o := by
  simp [outlines, and_assoc]

/-- The bytes of `q` are bytes of parts of its kind. -/
def BytesWithin (parts : List Part) (q : Part) : Prop :=
  ∀ x ∈ q.span.byteSet, ∃ r ∈ parts, r.kind = q.kind ∧ x ∈ r.span.byteSet

/-- Of two parts in a list one comes before the other, or they are the same. -/
theorem rel_or_rel_of_pairwise {R : Part → Part → Prop} (h : parts.Pairwise R) (hp : p ∈ parts)
    (hq : q ∈ parts) : p = q ∨ R p q ∨ R q p := by
  by_cases hne : p = q
  · exact .inl hne
  · rcases sublist_pair_of_ne hp hq hne with hsub | hsub
    · exact .inr (.inl (List.pairwise_iff_forall_sublist.1 h hsub))
    · exact .inr (.inr (List.pairwise_iff_forall_sublist.1 h hsub))

/-- A part with bytes of the same kind cannot reach the start of a canonical part from before. -/
theorem Canonical.start_eq (h : Canonical parts) (hp : p ∈ parts)
    (hbelow : p.span.start ≠ Address.top) (hkind : q.kind = p.kind)
    (hbytes : BytesWithin parts q) (hx : p.span.start ∈ q.span) :
    q.span.start = p.span.start := by
  by_contra hne
  have hlt : q.span.start < p.span.start := UInt64.lt_of_le_of_ne hx.1 hne
  have hsized : q.span.size ≠ 0 := fun hz =>
    UInt64.not_lt.2 (Span.limit_le_of_start_lt hz hlt) hx.2
  -- The address in front of `p` is a byte of `q`, thus of some part before `p`.
  have hprev : (p.span.start - 1).toNat = p.span.start.toNat - 1 := by
    rw [UInt64.lt_iff_toNat_lt] at hlt
    apply UInt64.toNat_sub_of_le
    rw [UInt64.le_iff_toNat_le]
    show 1 ≤ _
    omega
  have hmem : p.span.start - 1 ∈ q.span.byteSet := by
    have hstop := hx.2
    rw [Span.limit_eq_stop_of_sized hsized] at hstop
    rw [Span.mem_byteSet, UInt64.le_iff_toNat_le, UInt64.lt_iff_toNat_lt, hprev]
    rw [UInt64.lt_iff_toNat_lt] at hlt hstop
    omega
  obtain ⟨r, hr, hrk, hrstart, hrstop⟩ := hbytes _ hmem
  rw [UInt64.le_iff_toNat_le, hprev] at hrstart
  rw [UInt64.lt_iff_toNat_lt, hprev] at hrstop
  rw [UInt64.lt_iff_toNat_lt] at hlt
  rcases rel_or_rel_of_pairwise h.pairwise hr hp with rfl | ⟨hrp, hgap⟩ | ⟨hpr, -⟩
  · omega
  · apply hgap (hrk.trans hkind) hbelow
    have hle := UInt64.le_trans r.span.stop_le_limit hrp
    rw [UInt64.le_iff_toNat_le] at hle
    rw [← UInt64.toNat_inj]
    omega
  · have hle := UInt64.le_trans p.span.start_le_limit hpr
    rw [UInt64.le_iff_toNat_le] at hle
    omega

/-- Bytes that begin within a canonical part go on no further than that part does. -/
theorem Canonical.stop_le (h : Canonical parts) (hp : p ∈ parts) (hkind : q.kind = p.kind)
    (hbytes : BytesWithin parts q) (hstart : q.span.start ≤ p.span.stop) :
    q.span.stop ≤ p.span.stop := by
  rw [← UInt64.not_lt]
  intro hlt
  obtain ⟨r, hr, hrk, hrstart, hrstop⟩ := hbytes p.span.stop ⟨hstart, hlt⟩
  rcases rel_or_rel_of_pairwise h.pairwise hp hr with rfl | ⟨hpr, hgap⟩ | ⟨hrp, -⟩
  · exact UInt64.lt_irrefl _ hrstop
  · have heq := UInt64.le_antisymm hrstart (UInt64.le_trans p.span.stop_le_limit hpr)
    have hbelow : r.span.start ≠ Address.top := by
      intro htop
      rw [heq] at htop
      rw [htop, UInt64.lt_iff_toNat_lt, Address.toNat_top] at hrstop
      have := r.span.stop.toNat_le_top
      omega
    exact hgap (hkind.symm.trans hrk.symm) hbelow heq.symm
  · have hle := UInt64.le_trans r.span.stop_le_limit (UInt64.le_trans hrp p.span.start_le_stop)
    exact UInt64.not_lt.2 hle hrstop

/-- The same bytes and the same addresses of each kind. -/
structure SameGround (parts more : List Part) : Prop where
  occupied : ∀ kind x, (∃ p ∈ parts, p.kind = kind ∧ x ∈ p.span) ↔
    ∃ q ∈ more, q.kind = kind ∧ x ∈ q.span
  bytes : ∀ kind, byteSet (parts.filter (·.kind = kind)) = byteSet (more.filter (·.kind = kind))

theorem SameGround.symm (h : SameGround parts more) : SameGround more parts :=
  ⟨fun kind x => (h.occupied kind x).symm, fun kind => (h.bytes kind).symm⟩

theorem SameGround.bytesWithin (h : SameGround parts more) (hq : q ∈ more) :
    BytesWithin parts q := by
  intro x hx
  have hmem : x ∈ byteSet (more.filter (·.kind = q.kind)) := ⟨q, by simp [hq], hx⟩
  rw [← h.bytes] at hmem
  obtain ⟨r, hr, hrx⟩ := hmem
  obtain ⟨hr, hrk⟩ := List.mem_filter.1 hr
  exact ⟨r, hr, by simpa using hrk, hrx⟩

/-- Canonical parts on the same ground contain each other's outlines. -/
theorem SameGround.mem_outlines (h : SameGround parts more) (hparts : Canonical parts)
    (hmore : Canonical more) {o : Address × Address × ByteKind} (ho : o ∈ outlines parts) :
    o ∈ outlines more := by
  obtain ⟨p, hp, hbelow, rfl⟩ := Coverage.mem_outlines.1 ho
  have hocc : p.span.start ∈ p.span := ⟨UInt64.le_refl _, (Span.start_lt_limit_iff _).2 hbelow⟩
  obtain ⟨q, hq, hkind, hx⟩ := (h.occupied p.kind p.span.start).1 ⟨p, hp, rfl, hocc⟩
  have hstart := hparts.start_eq hp hbelow hkind (h.bytesWithin hq) hx
  have hle := hparts.stop_le hp hkind (h.bytesWithin hq) (hstart ▸ p.span.start_le_stop)
  have hge := hmore.stop_le hq hkind.symm (h.symm.bytesWithin hp) (hstart ▸ q.span.start_le_stop)
  refine Coverage.mem_outlines.2 ⟨q, hq, hstart ▸ hbelow, ?_⟩
  rw [hstart, hkind, UInt64.le_antisymm hle hge]

theorem Canonical.pairwise_outlines (h : Canonical parts) :
    (outlines parts).Pairwise fun o o' => o.1 < o'.1 := by
  unfold outlines
  rw [List.pairwise_map]
  refine List.Pairwise.imp_of_mem ?_ (h.separate.sublist List.filter_sublist)
  intro p q hp _ hle
  have hbelow : p.span.start ≠ Address.top := by simpa using (List.mem_filter.1 hp).2
  exact UInt64.lt_of_lt_of_le ((Span.start_lt_limit_iff _).2 hbelow) hle

/-- **Canonical parts are determined by their ground**, as far as they start below the highest
address. -/
theorem outlines_eq_of_canonical (h : SameGround parts more) (hparts : Canonical parts)
    (hmore : Canonical more) : outlines parts = outlines more := by
  have hnodup {parts : List Part} (hcanonical : Canonical parts) : (outlines parts).Nodup := by
    apply hcanonical.pairwise_outlines.imp
    rintro o _ hlt rfl
    exact UInt64.lt_irrefl _ hlt
  have hperm : (outlines parts).Perm (outlines more) := by
    rw [List.perm_ext_iff_of_nodup (hnodup hparts) (hnodup hmore)]
    intro o
    exact ⟨h.mem_outlines hparts hmore, h.symm.mem_outlines hmore hparts⟩
  refine hperm.eq_of_pairwise ?_ hparts.pairwise_outlines hmore.pairwise_outlines
  intro o o' _ _ hlt hgt
  exact absurd (UInt64.lt_trans hlt hgt) (UInt64.lt_irrefl _)

/-! ### The ground of a merge -/

theorem mem_allParts_of_perm (hperm : coverages.Perm reordered) (p : Part) :
    p ∈ allParts coverages ↔ p ∈ allParts reordered := by
  simp only [mem_allParts, hperm.mem_iff]

theorem sameGround_of_merge_ok (hsort : SortsByPlace sort) (hperm : coverages.Perm reordered)
    (hok : mergeWith sort coverages = .ok m) (hok' : mergeWith sort reordered = .ok m') :
    SameGround m.parts.toList m'.parts.toList := by
  have hmem := mem_allParts_of_perm hperm
  constructor
  · intro kind x
    have hm := mem_merge_iff hsort hok kind x
    have hm' := mem_merge_iff hsort hok' kind x
    simp only [hmem, absorbed_congr hmem, ← hm'] at hm
    simpa only [Array.mem_toList_iff] using hm
  · intro kind
    rw [byteSet_filter_of_merge_ok hsort hok, byteSet_filter_of_merge_ok hsort hok']
    apply byteSet_congr
    simp [hmem]

/-! ### Torn ties -/

/-- Two markers of different kinds at one address, of which the first is absorbed and the second
is not. -/
structure TornTie (parts : List Part) (p q : Part) : Prop where
  left_mem : p ∈ parts
  right_mem : q ∈ parts
  marker_left : p.span.size = 0
  marker_right : q.span.size = 0
  start_eq : p.span.start = q.span.start
  kind_ne : p.kind ≠ q.kind
  overlaps : p.span.Overlaps q.span
  absorbed : Absorbed parts p
  not_absorbed : ¬ Absorbed parts q

theorem TornTie.clash (h : TornTie parts p q) : Clash parts q p :=
  ⟨h.kind_ne.symm, Span.overlaps_comm.1 h.overlaps, h.not_absorbed⟩

theorem tornTie_congr (h : ∀ r, r ∈ parts ↔ r ∈ more) : TornTie parts p q ↔ TornTie more p q := by
  have hcongr {parts more : List Part} (h : ∀ r, r ∈ parts ↔ r ∈ more)
      (ht : TornTie parts p q) : TornTie more p q :=
    { ht with
      left_mem := (h p).1 ht.left_mem
      right_mem := (h q).1 ht.right_mem
      absorbed := (absorbed_congr h).1 ht.absorbed
      not_absorbed := fun habs => ht.not_absorbed ((absorbed_congr h).2 habs) }
  exact ⟨hcongr h, hcongr fun r => (h r).symm⟩

/-- A part without bytes that overlaps something is a marker. -/
theorem marker_of_stop_le_start (hle : p.span.stop ≤ p.span.start)
    (hocc : p.span.start < p.span.limit) : p.span.size = 0 := by
  by_contra hsized
  rw [Span.limit_eq_stop_of_sized hsized] at hocc
  exact UInt64.not_lt.2 hle hocc

/-- Parts that come in one order here and in the other there have the same place. -/
theorem place_eq_of_reordered (hsort : SortsByPlace sort) (h : [p, q].Sublist (sort parts))
    (h' : [q, p].Sublist (sort more)) :
    p.span.start = q.span.start ∧ p.span.stop = q.span.stop := by
  have hpq := List.pairwise_iff_forall_sublist.1 (hsort.pairwise parts) h
  have hqp := List.pairwise_iff_forall_sublist.1 (hsort.pairwise more) h'
  simp only [Part.PlacedBefore, UInt64.lt_iff_toNat_lt, UInt64.le_iff_toNat_le,
    ← UInt64.toNat_inj] at hpq hqp ⊢
  omega

/-- **What the order of the coverages decides**: where one order can be merged, another one is
refused only for a torn tie. -/
theorem exists_tornTie_of_merge_error (hsort : SortsByPlace sort)
    (hperm : coverages.Perm reordered) (hok : mergeWith sort coverages = .ok m) {e : Error}
    (he : mergeWith sort reordered = .error e) :
    ∃ p q, TornTie (allParts coverages) p q ∧ [q, p].Sublist (sort (allParts reordered)) := by
  have hmem := mem_allParts_of_perm hperm
  obtain ⟨q, p, hsub', hclash, -⟩ := exists_clash_of_merge_error hsort he
  rw [← clash_congr hmem] at hclash
  obtain ⟨hkind, hover, hnot⟩ := hclash
  obtain ⟨hq', hp'⟩ := hsort.mem_of_sublist hsub'
  have hp : p ∈ allParts coverages := (hmem p).2 hp'
  have hq : q ∈ allParts coverages := (hmem q).2 hq'
  have hne : p ≠ q := fun h => hkind (h ▸ rfl)
  -- In the other order the two are no clash, since there `p` comes first and is absorbed.
  rcases sublist_pair_of_ne (hsort.mem_iff.2 hp) (hsort.mem_iff.2 hq) hne with hsub | hsub
  · have habs : Absorbed (allParts coverages) p := by
      by_contra hleft
      exact not_clash_of_merge_ok hsort hok hsub
        ⟨hkind.symm, Span.overlaps_comm.1 hover, hleft⟩
    -- The two change places, so they are a tie, and `q` has no bytes either.
    obtain ⟨hstart, hstop⟩ := place_eq_of_reordered hsort hsub hsub'
    have hpstop := Span.stop_eq_start_of_marker habs.1
    have hqle : q.span.stop ≤ q.span.start := by
      rw [← hstop, hpstop, hstart]
      exact UInt64.le_refl _
    have hqsize := marker_of_stop_le_start hqle (Span.start_lt_limit_of_lt hover.1)
    exact ⟨p, q, ⟨hp, hq, habs.1, hqsize, hstart, hkind.symm, Span.overlaps_comm.1 hover, habs,
      hnot⟩, hsub'⟩
  · exact absurd ⟨hkind, hover, hnot⟩ (not_clash_of_merge_ok hsort hok hsub)

theorem not_refused_iff (hsort : SortsByPlace sort) :
    ¬ Refused (mergeWith sort coverages) ↔ ∃ m, mergeWith sort coverages = .ok m := by
  constructor
  · intro hnot
    cases hmerge : mergeWith sort coverages with
    | ok m => exact ⟨m, rfl⟩
    | error e => exact absurd (refused_of_merge_error hsort hmerge) hnot
  · rintro ⟨m, hok⟩ ⟨_, _, _, he⟩
    rw [hok] at he
    cases he

theorem refused_of_tornTie (hsort : SortsByPlace sort) (h : TornTie (allParts coverages) p q)
    (hsub : [q, p].Sublist (sort (allParts coverages))) :
    Refused (mergeWith sort coverages) := by
  by_contra hnot
  obtain ⟨m, hok⟩ := (not_refused_iff hsort).1 hnot
  exact not_clash_of_merge_ok hsort hok hsub h.clash

/-- **Merging and the order of the coverages**, up to torn ties, however ties are broken.

* If two orders of the same coverages can both be merged, the results have the same parts, by
  start, end and kind, below the highest address.
* If one order can be merged, the other one is refused exactly if it has a torn tie the wrong way
  round, the absorbed marker last.
* Without torn ties both orders are refused, or none is. -/
theorem merge_perm (sort : List Part → List Part) (hsort : SortsByPlace sort)
    (coverages reordered : List Coverage) (hperm : coverages.Perm reordered) :
    (∀ m m', mergeWith sort coverages = .ok m → mergeWith sort reordered = .ok m' →
      outlines m.parts.toList = outlines m'.parts.toList) ∧
    (∀ m, mergeWith sort coverages = .ok m →
      (Refused (mergeWith sort reordered) ↔ ∃ p q, TornTie (allParts coverages) p q ∧
        [q, p].Sublist (sort (allParts reordered)))) ∧
    ((∀ p q, ¬ TornTie (allParts coverages) p q) →
      (Refused (mergeWith sort coverages) ↔ Refused (mergeWith sort reordered)) ∧
      ((∃ m, mergeWith sort coverages = .ok m) ↔ ∃ m', mergeWith sort reordered = .ok m')) := by
  have hmem := mem_allParts_of_perm hperm
  refine ⟨?_, ?_, ?_⟩
  · intro m m' hok hok'
    exact outlines_eq_of_canonical (sameGround_of_merge_ok hsort hperm hok hok')
      (canonical_of_merge_ok hsort hok) (canonical_of_merge_ok hsort hok')
  · intro m hok
    constructor
    · rintro ⟨_, _, _, he⟩
      exact exists_tornTie_of_merge_error hsort hperm hok he
    · rintro ⟨p, q, htie, hsub⟩
      exact refused_of_tornTie hsort ((tornTie_congr hmem).1 htie) hsub
  · intro hnone
    have hok_of_ok {coverages reordered : List Coverage} (hperm : coverages.Perm reordered)
        (hnone : ∀ p q, ¬ TornTie (allParts coverages) p q)
        (h : ¬ Refused (mergeWith sort coverages)) : ¬ Refused (mergeWith sort reordered) := by
      rintro ⟨_, _, _, he⟩
      obtain ⟨m, hok⟩ := (not_refused_iff hsort).1 h
      obtain ⟨p, q, htie, -⟩ := exists_tornTie_of_merge_error hsort hperm hok he
      exact hnone p q htie
    have hnone' : ∀ p q, ¬ TornTie (allParts reordered) p q := fun p q htie =>
      hnone p q ((tornTie_congr hmem).2 htie)
    have hiff : ¬ Refused (mergeWith sort coverages) ↔ ¬ Refused (mergeWith sort reordered) :=
      ⟨hok_of_ok hperm hnone, hok_of_ok hperm.symm hnone'⟩
    refine ⟨not_iff_not.1 hiff, ?_⟩
    rwa [not_refused_iff hsort, not_refused_iff hsort] at hiff

/-- Code that overlaps is joined in both orders.  The markers at the highest address, which occupy
nothing, keep the order of their coverages. -/
theorem merge_perm_of_overlapping_code :
    let code := ofParts [⟨⟨16, 16⟩, .text⟩, ⟨⟨Address.top, 0⟩, .text⟩]
    let data := ofParts [⟨⟨24, 8⟩, .text⟩, ⟨⟨40, 4⟩, .data⟩, ⟨⟨Address.top, 0⟩, .data⟩]
    let m : Coverage := ⟨#[⟨⟨16, 16⟩, .text⟩, ⟨⟨40, 4⟩, .data⟩,
      ⟨⟨Address.top, 0⟩, .text⟩, ⟨⟨Address.top, 0⟩, .data⟩], .disjoint⟩
    let m' : Coverage := ⟨#[⟨⟨16, 16⟩, .text⟩, ⟨⟨40, 4⟩, .data⟩,
      ⟨⟨Address.top, 0⟩, .data⟩, ⟨⟨Address.top, 0⟩, .text⟩], .disjoint⟩
    [code, data].Perm [data, code] ∧ merge [code, data] = .ok m ∧ merge [data, code] = .ok m' ∧
      outlines m.parts.toList = outlines m'.parts.toList := by
  intro code data m m'
  have hperm : [code, data].Perm [data, code] := List.Perm.swap data code []
  have hok : merge [code, data] = .ok m := by cbv
  have hok' : merge [data, code] = .ok m' := by cbv
  obtain ⟨hsame, -, -⟩ := merge_perm _ sortsByPlace_sortByPlace _ _ hperm
  exact ⟨hperm, hok, hok', hsame m m' hok hok'⟩

/-- At the end of code there is a marker of code in the same coverage and a marker of data in
another one.  They are merged if the code comes first, and refused if the data does. -/
theorem merge_order_matters_at_torn_tie :
    let code := ofParts [⟨⟨16, 16⟩, .text⟩, ⟨⟨32, 0⟩, .text⟩]
    let data := ofParts [⟨⟨32, 0⟩, .data⟩]
    [code, data].Perm [data, code] ∧
      merge [code, data] = .ok ⟨#[⟨⟨16, 16⟩, .text⟩, ⟨⟨32, 0⟩, .data⟩], .disjoint⟩ ∧
      merge [data, code] = .error (.coverageConflict ⟨32, 0⟩ .data .text) ∧
      ¬ (Refused (merge [code, data]) ↔ Refused (merge [data, code])) := by
  intro code data
  have hok : merge [code, data] =
      .ok ⟨#[⟨⟨16, 16⟩, .text⟩, ⟨⟨32, 0⟩, .data⟩], .disjoint⟩ := by cbv
  have he : merge [data, code] = .error (.coverageConflict ⟨32, 0⟩ .data .text) := by cbv
  refine ⟨List.Perm.swap data code [], hok, he, ?_⟩
  intro hiff
  obtain ⟨_, _, _, he'⟩ := hiff.2 ⟨_, _, _, he⟩
  rw [hok] at he'
  cases he'

end ByteCensus.Coverage
