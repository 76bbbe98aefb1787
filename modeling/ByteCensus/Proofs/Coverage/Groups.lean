import ByteCensus.Proofs.Coverage.Order

/-!
# Merging in groups

A merged coverage is canonical, and the sweep leaves canonical parts as they are
(`joinFrom_of_canonical`).  So merging it once more gives it back, as long as the sorting leaves
sorted parts alone: several parts may start at the highest address, where they are all tied.

Where all parts have bytes (`Solid`), coverages may also be merged in groups first.  What the sweep
makes of parts is then told by three things that do not mention the sweep (`Condenses`): the result
is canonical, it lies on the same ground, and each of its parts `Gathers` the parts within it.  The
last one is about sizes: a part that stands for itself alone keeps its size, even where that runs
past the highest address, and a part that others were joined to has the size that it needs.

These determine the result (`Condenses.unique`), and condensing the results of two groups condenses
the parts of both (`Condenses.trans_append`).  Conflicts are seen on the ground, which a merge
keeps, so they come up in groups exactly when they come up at once.

Markers are left out, since a merge in groups can absorb a marker before what it clashes with is
met, and so are parts at the highest address, which have no bytes either.
-/

namespace ByteCensus.Coverage

variable {parts more seen rest out out' xs ys X Y : List Part} {last next p q r : Part}
  {sort : List Part → List Part} {coverages reordered : List Coverage} {m : Coverage}

/-! ### Merging once more -/

/-- Of canonical parts nothing is joined and nothing refused. -/
theorem joinFrom_of_canonical (h : Canonical (last :: rest)) :
    joinFrom last rest = .ok (last :: rest) := by
  induction rest generalizing last with
  | nil => rfl
  | cons next rest ih =>
    obtain ⟨⟨hlimit, hgap⟩, htail⟩ := List.isChain_cons_cons.1 h
    have hover : ¬ last.span.Overlaps next.span := Span.not_overlaps_of_limit_le_start hlimit
    have htouch : ¬ (last.kind = next.kind ∧ last.span.Touches next.span) := by
      rintro ⟨hkind, hover' | hstop⟩
      · exact hover hover'
      · exact hgap hkind hstop.symm
    rw [joinFrom_cons, if_neg htouch, if_neg hover, ih htail]
    rfl

/-- Parts that lie one behind the other are in order. -/
theorem sortByPlace_of_separate (h : Separate parts) : sortByPlace parts = parts := by
  apply List.mergeSort_of_pairwise
  apply h.imp
  intro p q hle
  have hp := UInt64.le_iff_toNat_le.1 p.span.start_le_stop
  have hlimit := UInt64.le_iff_toNat_le.1 p.span.stop_le_limit
  have hq := UInt64.le_iff_toNat_le.1 q.span.start_le_stop
  rw [UInt64.le_iff_toNat_le] at hle
  rw [decide_eq_true_eq, Part.PlacedBefore, UInt64.lt_iff_toNat_lt, UInt64.le_iff_toNat_le,
    ← UInt64.toNat_inj]
  omega

theorem allParts_append (coverages reordered : List Coverage) :
    allParts (coverages ++ reordered) = allParts coverages ++ allParts reordered :=
  List.flatMap_append

theorem merge_of_canonical (hlayout : m.layout = .disjoint) (h : Canonical m.parts.toList) :
    merge [m] = .ok m := by
  have hparts : allParts [m] = m.parts.toList := by simp [allParts]
  have hjoin : join m.parts.toList = .ok m.parts.toList := by
    cases hm : m.parts.toList with
    | nil => rfl
    | cons first rest =>
      rw [hm] at h
      exact joinFrom_of_canonical h
  rw [merge, mergeWith_eq_map, hparts, sortByPlace_of_separate h.separate, hjoin, ← hlayout]
  rfl

/-! ### Parts with bytes -/

/-- All parts have bytes. -/
def Solid (parts : List Part) : Prop := ∀ p ∈ parts, p.span.start < p.span.stop

theorem start_lt_stop_iff (p : Part) :
    p.span.start < p.span.stop ↔ p.span.size ≠ 0 ∧ p.span.start ≠ Address.top := by
  constructor
  · intro hlt
    have hsized := Span.sized_of_start_lt_stop hlt
    rw [← Span.limit_eq_stop_of_sized hsized, Span.start_lt_limit_iff] at hlt
    exact ⟨hsized, hlt⟩
  · rintro ⟨hsized, hbelow⟩
    rw [← Span.limit_eq_stop_of_sized hsized]
    exact (Span.start_lt_limit_iff p.span).2 hbelow

/-- A part with bytes occupies its start. -/
theorem Solid.start_lt_limit (h : Solid parts) (hp : p ∈ parts) :
    p.span.start < p.span.limit :=
  UInt64.lt_of_lt_of_le (h p hp) p.span.stop_le_limit

theorem Solid.limit_eq_stop (h : Solid parts) (hp : p ∈ parts) : p.span.limit = p.span.stop :=
  Span.limit_eq_stop_of_sized (Span.sized_of_start_lt_stop (h p hp))

theorem Solid.not_absorbed (h : Solid parts) (hp : p ∈ parts) : ¬ Absorbed more p :=
  not_absorbed_of_sized (Span.sized_of_start_lt_stop (h p hp))

/-- Joining parts with bytes gives parts with bytes. -/
theorem solid_of_joinFrom (hasc : Ascending (last :: rest)) (h : Solid (last :: rest))
    (hok : joinFrom last rest = .ok out) : Solid out := by
  induction rest generalizing last out with
  | nil =>
    obtain rfl : [last] = out := by simpa [joinFrom] using hok
    exact h
  | cons next rest ih =>
    obtain ⟨hlast, hnext, hrest⟩ := (List.forall_mem_cons.1 h).imp id List.forall_mem_cons.1
    rw [joinFrom_cons] at hok
    split at hok
    · refine ih hasc.join (List.forall_mem_cons.2 ⟨?_, hrest⟩) hok
      rw [start_joinPart hasc.start_le]
      exact UInt64.lt_of_lt_of_le hlast (Span.stop_le_stop_hull_left hasc.start_le)
    · split at hok
      · cases hok
      · obtain ⟨joined, hjoined, rfl⟩ := exists_of_map_eq_ok hok
        have hall := ih hasc.tail (List.forall_mem_cons.2 ⟨hnext, hrest⟩) hjoined
        exact List.forall_mem_cons.2 ⟨hlast, hall⟩

/-! ### What a part stands for -/

/-- The parts that lie within `q` and are of its kind. -/
def within (parts : List Part) (q : Part) : List Part :=
  parts.filter fun p => p.kind = q.kind ∧ q.span.Covers p.span

theorem mem_within : p ∈ within parts q ↔ p ∈ parts ∧ p.kind = q.kind ∧ q.span.Covers p.span := by
  simp [within]

theorem within_append (parts more : List Part) (q : Part) :
    within (parts ++ more) q = within parts q ++ within more q :=
  List.filter_append ..

theorem within_eq_nil_iff :
    within parts q = [] ↔ ∀ p ∈ parts, p.kind = q.kind → ¬ q.span.Covers p.span := by
  simp [within, List.filter_eq_nil_iff]

theorem within_self (q : Part) : within [q] q = [q] := by
  have hself : q.span.Covers q.span := ⟨UInt64.le_refl _, UInt64.le_refl _⟩
  simp [within, hself]

/-- The part is the only one within itself, or it is as large as it needs to be and there are
others. -/
def Gathers (parts : List Part) (q : Part) : Prop :=
  within parts q = [q] ∨ q.span.Fits ∧ 2 ≤ (within parts q).length

theorem Gathers.of_perm (h : Gathers parts q) (hperm : parts.Perm more) : Gathers more q := by
  have hwithin : (within parts q).Perm (within more q) := hperm.filter _
  rcases h with hself | ⟨hfits, hlength⟩
  · rw [hself] at hwithin
    exact .inl (List.perm_singleton.1 hwithin.symm)
  · rw [hwithin.length_eq] at hlength
    exact .inr ⟨hfits, hlength⟩

theorem Gathers.exists_mem (h : Gathers parts q) : ∃ p, p ∈ within parts q := by
  apply List.exists_mem_of_ne_nil
  intro hnil
  rcases h with hself | ⟨-, hlength⟩
  · rw [hself] at hnil
    cases hnil
  · rw [hnil] at hlength
    cases hlength

/-- The part joined to gathers one part more. -/
theorem Gathers.join (h : Gathers seen last) (hle : last.span.start ≤ next.span.start)
    (hkind : last.kind = next.kind) (hsized : next.span.size ≠ 0) :
    Gathers (seen ++ [next]) (joinPart last next) := by
  have hlast : (joinPart last next).span.Covers last.span :=
    ⟨UInt64.le_of_eq (start_joinPart hle), Span.limit_le_limit_hull_left hle⟩
  have hnext : (joinPart last next).span.Covers next.span := by
    refine ⟨?_, Span.limit_le_limit_hull_right hle (.inl hsized)⟩
    rw [start_joinPart hle]
    exact hle
  obtain ⟨p, hp⟩ := h.exists_mem
  obtain ⟨hp, hpk, hpc⟩ := mem_within.1 hp
  -- The hull still covers what `last` gathered, and it covers `next`: two parts at least.
  have hseen : p ∈ within seen (joinPart last next) :=
    mem_within.2 ⟨hp, hpk, UInt64.le_trans hlast.1 hpc.1, UInt64.le_trans hpc.2 hlast.2⟩
  have hnew : next ∈ within [next] (joinPart last next) :=
    mem_within.2 ⟨List.mem_singleton_self next, hkind.symm, hnext⟩
  refine .inr ⟨Span.fits_hull hle, ?_⟩
  rw [within_append, List.length_append]
  have hone := List.length_pos_of_mem hseen
  have htwo := List.length_pos_of_mem hnew
  omega

/-- No part lies within one that it stands behind, or in front of. -/
theorem Solid.not_covers_of_limit_le (h : Solid parts) (hp : p ∈ parts)
    (hle : q.span.limit ≤ p.span.start ∨ p.span.limit ≤ q.span.start) :
    ¬ q.span.Covers p.span := by
  rintro ⟨hstart, hlimit⟩
  have hocc := h.start_lt_limit hp
  rw [UInt64.le_iff_toNat_le] at hstart hlimit
  rw [UInt64.le_iff_toNat_le, UInt64.le_iff_toNat_le] at hle
  rw [UInt64.lt_iff_toNat_lt] at hocc
  omega

/-- Each part seen ends in front of whatever is not joined. -/
theorem Sweep.limit_le_start (h : Sweep seen last) (hsolid : Solid seen)
    (hlimit : last.span.limit ≤ next.span.start) (hp : p ∈ seen) :
    p.span.limit ≤ next.span.start := by
  rcases h.accounted p hp with hbefore | ⟨-, ⟨-, hpl⟩, -⟩ | habs
  · exact UInt64.le_trans hbefore (UInt64.le_trans last.span.start_le_limit hlimit)
  · exact UInt64.le_trans hpl hlimit
  · exact absurd habs (hsolid.not_absorbed hp)

/-- **Every joined part gathers the parts within it.** -/
theorem gathers_of_joinFrom (h : Sweep seen last) (hasc : Ascending (seen ++ rest))
    (hsolid : Solid (seen ++ rest)) (hlast : Gathers seen last)
    (hok : joinFrom last rest = .ok out) : ∀ q ∈ out, Gathers (seen ++ rest) q := by
  induction rest generalizing seen last out with
  | nil =>
    obtain rfl : [last] = out := by simpa [joinFrom] using hok
    rw [List.append_nil]
    exact List.forall_mem_singleton.2 hlast
  | cons next rest ih =>
    have hassoc : seen ++ next :: rest = (seen ++ [next]) ++ rest := by simp
    obtain ⟨hseen, hrest⟩ := List.forall_mem_append.1 hsolid
    have hle := h.start_le hasc.seen_le
    rw [joinFrom_cons] at hok
    split at hok
    · next htouch =>
      have hsized := Span.sized_of_start_lt_stop (hrest next List.mem_cons_self)
      have hjoined := hlast.join hle htouch.1 hsized
      rw [hassoc] at hasc hsolid ⊢
      exact ih (h.join (hassoc ▸ hasc).seen_le htouch.1 htouch.2) hasc hsolid hjoined hok
    · next htouch =>
      split at hok
      · cases hok
      · next hover =>
        obtain ⟨joined, hjoined, rfl⟩ := exists_of_map_eq_ok hok
        have hlimit := Span.limit_le_start_of_not_overlaps hle hover
        refine List.forall_mem_cons.2 ⟨?_, ?_⟩
        · -- What comes behind `next` comes behind `last` all the more.
          have hnone : within (next :: rest) last = [] := by
            rw [within_eq_nil_iff]
            intro r hr _
            have hstart : next.span.start ≤ r.span.start := by
              rcases List.mem_cons.1 hr with rfl | hr
              · exact UInt64.le_refl _
              · exact List.rel_of_pairwise_cons (List.pairwise_append.1 hasc).2.1 hr
            exact Solid.not_covers_of_limit_le hrest hr (.inl (UInt64.le_trans hlimit hstart))
          unfold Gathers
          rw [within_append, hnone, List.append_nil]
          exact hlast
        · have hnew : Gathers (seen ++ [next]) next := by
            have hnone : within seen next = [] := by
              rw [within_eq_nil_iff]
              intro r hr _
              exact Solid.not_covers_of_limit_le hseen hr (.inr (h.limit_le_start hseen hlimit hr))
            left
            rw [within_append, hnone, within_self]
            rfl
          have hpushed := h.push hasc.seen_le htouch hover
          rw [hassoc] at hasc hsolid ⊢
          exact ih hpushed hasc hsolid hnew hjoined

theorem solid_of_join (hasc : Ascending parts) (h : Solid parts) (hok : join parts = .ok out) :
    Solid out := by
  cases parts with
  | nil =>
    obtain rfl : [] = out := by simpa [join] using hok
    exact h
  | cons first rest => exact solid_of_joinFrom hasc h hok

theorem gathers_of_join (hasc : Ascending parts) (h : Solid parts) (hok : join parts = .ok out) :
    ∀ q ∈ out, Gathers parts q := by
  cases parts with
  | nil =>
    obtain rfl : [] = out := by simpa [join] using hok
    exact List.forall_mem_nil _
  | cons first rest =>
    exact gathers_of_joinFrom (.first first) hasc h (.inl (within_self first)) hok

/-! ### Condensing -/

/-- `out` is what a merge makes of the parts. -/
structure Condenses (parts out : List Part) : Prop where
  canonical : Canonical out
  solid : Solid out
  ground : SameGround parts out
  gathers : ∀ q ∈ out, Gathers parts q

theorem sameGround_allParts_of_merge_ok (hsort : SortsByPlace sort)
    (hsolid : Solid (allParts coverages)) (hok : mergeWith sort coverages = .ok m) :
    SameGround (allParts coverages) m.parts.toList := by
  refine ⟨?_, fun kind => (byteSet_filter_of_merge_ok hsort hok kind).symm⟩
  intro kind x
  have hiff := mem_merge_iff hsort hok kind x
  simp only [← Array.mem_toList_iff] at hiff
  rw [hiff]
  -- Parts with bytes are no markers, so none of them is absorbed.
  constructor
  · rintro ⟨p, hp, hkind, hx⟩
    exact ⟨p, hp, hkind, hx, hsolid.not_absorbed hp⟩
  · rintro ⟨p, hp, hkind, hx, -⟩
    exact ⟨p, hp, hkind, hx⟩

theorem condenses_of_merge_ok (hsort : SortsByPlace sort) (hsolid : Solid (allParts coverages))
    (hok : mergeWith sort coverages = .ok m) : Condenses (allParts coverages) m.parts.toList := by
  have hjoin := (join_of_merge_ok hok).2
  have hasc := hsort.ascending (allParts coverages)
  have hsorted : Solid (sort (allParts coverages)) := fun p hp => hsolid p (hsort.mem_iff.1 hp)
  exact ⟨canonical_of_merge_ok hsort hok, solid_of_join hasc hsorted hjoin,
    sameGround_allParts_of_merge_ok hsort hsolid hok,
    fun q hq => (gathers_of_join hasc hsorted hjoin q hq).of_perm (hsort.perm _)⟩

theorem SameGround.trans (h : SameGround parts more) (h' : SameGround more out) :
    SameGround parts out :=
  ⟨fun kind x => (h.occupied kind x).trans (h'.occupied kind x),
    fun kind => (h.bytes kind).trans (h'.bytes kind)⟩

theorem byteSet_append (parts more : List Part) :
    byteSet (parts ++ more) = byteSet parts ∪ byteSet more := by
  ext x
  simp [mem_byteSet, or_and_right, exists_or]

theorem SameGround.append (h : SameGround xs X) (h' : SameGround ys Y) :
    SameGround (xs ++ ys) (X ++ Y) := by
  constructor
  · intro kind x
    have hx := h.occupied kind x
    have hy := h'.occupied kind x
    simp only [List.mem_append, or_and_right, exists_or, hx, hy]
  · intro kind
    simp only [List.filter_append, byteSet_append, h.bytes, h'.bytes]

/-- Parts of one outline that gather the same parts are the same. -/
theorem Gathers.eq (hp : Gathers parts p) (hq : Gathers parts q) (hkind : p.kind = q.kind)
    (hstart : p.span.start = q.span.start) (hstop : p.span.stop = q.span.stop)
    (hlimit : p.span.limit = q.span.limit) : p = q := by
  have hwithin : within parts p = within parts q := by
    apply List.filter_congr
    intro r _
    rw [decide_eq_decide, hkind, Span.Covers, Span.Covers, hstart, hlimit]
  rcases hp with hp | ⟨hpfits, hplength⟩ <;> rcases hq with hq | ⟨hqfits, hqlength⟩
  · rw [hp, hq] at hwithin
    exact List.singleton_inj.1 hwithin
  · rw [← hwithin, hp] at hqlength
    simp at hqlength
  · rw [hwithin, hq] at hplength
    simp at hplength
  · -- Both end below the highest address, where starts and sizes determine the ends.
    have hsize : p.span.size = q.span.size := by
      have hpstop := p.span.toNat_stop
      have hqstop := q.span.toNat_stop
      unfold Span.Fits at hpfits hqfits
      rw [hstop, hstart] at hpstop
      rw [hstart] at hpfits
      rw [← UInt64.toNat_inj]
      omega
    obtain ⟨⟨_, _⟩, _⟩ := p
    obtain ⟨⟨_, _⟩, _⟩ := q
    simp_all

/-- **What a merge makes of parts is determined by them.** -/
theorem Condenses.unique (h : Condenses parts out) (h' : Condenses parts out') : out = out' := by
  have houtlines : outlines out = outlines out' :=
    outlines_eq_of_canonical (h.ground.symm.trans h'.ground) h.canonical h'.canonical
  -- No part with bytes starts at the highest address, so the outlines show all of them.
  have hall {out : List Part} (hsolid : Solid out) :
      outlines out = out.map fun p => (p.span.start, p.span.stop, p.kind) := by
    unfold outlines
    rw [List.filter_eq_self.2]
    intro p hp
    rw [decide_eq_true_eq]
    exact ((start_lt_stop_iff p).1 (hsolid p hp)).2
  rw [hall h.solid, hall h'.solid] at houtlines
  have hlength : out.length = out'.length := by
    simpa using congrArg List.length houtlines
  apply List.ext_getElem hlength
  intro i hi hi'
  have hp := List.getElem_mem hi
  have hq := List.getElem_mem hi'
  have houtline : (out.map fun p => (p.span.start, p.span.stop, p.kind))[i]? =
      (out'.map fun p => (p.span.start, p.span.stop, p.kind))[i]? := by rw [houtlines]
  simp only [List.getElem?_map, List.getElem?_eq_getElem hi, List.getElem?_eq_getElem hi',
    Option.map_some, Option.some.injEq, Prod.mk.injEq] at houtline
  obtain ⟨hstart, hstop, hkind⟩ := houtline
  refine (h.gathers _ hp).eq (h'.gathers _ hq) hkind hstart hstop ?_
  rw [h.solid.limit_eq_stop hp, h'.solid.limit_eq_stop hq, hstop]

/-- Each part lies within a part of the result. -/
theorem Condenses.exists_covers (h : Condenses parts out) (hsolid : Solid parts) (hp : p ∈ parts) :
    ∃ q ∈ out, q.kind = p.kind ∧ q.span.Covers p.span := by
  have hocc : p.span.start ∈ p.span := ⟨UInt64.le_refl _, hsolid.start_lt_limit hp⟩
  obtain ⟨q, hq, hkind, hx⟩ := (h.ground.occupied p.kind p.span.start).1 ⟨p, hp, rfl, hocc⟩
  -- The part of the result at the start of `p` cannot end within `p`, whose bytes are all there.
  refine ⟨q, hq, hkind, hx.1, ?_⟩
  have hwithin : p.span.start ≤ q.span.stop :=
    UInt64.le_of_lt (h.solid.limit_eq_stop hq ▸ hx.2)
  rw [h.solid.limit_eq_stop hq, hsolid.limit_eq_stop hp]
  exact h.canonical.stop_le hq hkind.symm (h.ground.symm.bytesWithin hp) hwithin

/-- Two parts of the result within which one part lies are the same. -/
theorem Condenses.eq_of_covers (h : Condenses parts out) (hq : q ∈ out) (hr : r ∈ out)
    (hocc : p.span.start < p.span.limit) (hqc : q.span.Covers p.span) (hrc : r.span.Covers p.span) :
    q = r := by
  have hover : q.span.Overlaps r.span := by
    have hmem : p.span.start ∈ p.span := ⟨UInt64.le_refl _, hocc⟩
    exact Span.overlaps_iff_exists_mem.2 ⟨p.span.start, hqc.mem hmem, hrc.mem hmem⟩
  rcases rel_or_rel_of_pairwise h.canonical.separate hq hr with heq | hqr | hrq
  · exact heq
  · exact absurd hover (Span.not_overlaps_of_limit_le_start hqr)
  · exact absurd (Span.overlaps_comm.1 hover) (Span.not_overlaps_of_limit_le_start hrq)

/-- A result has no more parts within a span than what it was made of. -/
theorem Condenses.length_within_le (h : Condenses parts out) (hsolid : Solid parts) (q : Part) :
    (within out q).length ≤ (within parts q).length := by
  have hexists (r : Part) : ∃ p, r ∈ out → p ∈ within parts r := by
    by_cases hr : r ∈ out
    · obtain ⟨p, hp⟩ := (h.gathers r hr).exists_mem
      exact ⟨p, fun _ => hp⟩
    · exact ⟨r, fun hr' => absurd hr' hr⟩
  -- Each part of the result gives one of those it gathers, and no two give the same.
  choose inner hinner using hexists
  have hmem {r : Part} (hr : r ∈ within out q) : inner r ∈ within parts q := by
    obtain ⟨hr, hrk, hrc⟩ := mem_within.1 hr
    obtain ⟨hp, hpk, hpc⟩ := mem_within.1 (hinner r hr)
    exact mem_within.2 ⟨hp, hpk.trans hrk, UInt64.le_trans hrc.1 hpc.1, UInt64.le_trans hpc.2 hrc.2⟩
  have hnodup : ((within out q).map inner).Nodup := by
    have hout : out.Nodup := by
      refine List.Pairwise.imp_of_mem ?_ h.canonical.separate
      rintro r _ hr _ hle rfl
      exact UInt64.not_lt.2 hle (h.solid.start_lt_limit hr)
    refine (List.Nodup.filter _ hout).map_on ?_
    intro r hr r' hr' heq
    have hr := (mem_within.1 hr).1
    have hr' := (mem_within.1 hr').1
    obtain ⟨hp, -, hpc⟩ := mem_within.1 (hinner r hr)
    obtain ⟨-, -, hpc'⟩ := mem_within.1 (hinner r' hr')
    exact h.eq_of_covers hr hr' (hsolid.start_lt_limit hp) hpc (heq ▸ hpc')
  have hsub : (within out q).map inner ⊆ within parts q := by
    intro p hp
    obtain ⟨r, hr, rfl⟩ := List.mem_map.1 hp
    exact hmem hr
  have hlength := (hnodup.subperm hsub).length_le
  rwa [List.length_map] at hlength

/-- **Results of groups can be condensed in place of the parts of the groups.** -/
theorem Condenses.trans_append (hxs : Solid xs) (hys : Solid ys) (hX : Condenses xs X)
    (hY : Condenses ys Y) (h : Condenses (X ++ Y) out) : Condenses (xs ++ ys) out := by
  have hXY : Solid (X ++ Y) := List.forall_mem_append.2 ⟨hX.solid, hY.solid⟩
  refine ⟨h.canonical, h.solid, (hX.ground.append hY.ground).trans h.ground, ?_⟩
  intro q hq
  -- Where a group's result has nothing within `q`, the group has nothing there.
  have hnone {zs Z : List Part} (hzs : Solid zs) (hZ : Condenses zs Z) (hsub : Z ⊆ X ++ Y)
      (hnil : within Z q = []) : within zs q = [] := by
    rw [within_eq_nil_iff] at hnil ⊢
    intro p hp hkind hcovers
    obtain ⟨r, hr, hrk, hrc⟩ := hZ.exists_covers hzs hp
    obtain ⟨q', hq', hqk, hqc⟩ := h.exists_covers hXY (hsub hr)
    have hpc : q'.span.Covers p.span :=
      ⟨UInt64.le_trans hqc.1 hrc.1, UInt64.le_trans hrc.2 hqc.2⟩
    obtain rfl := h.eq_of_covers hq' hq (hzs.start_lt_limit hp) hpc hcovers
    exact hnil r hr hqk.symm hqc
  unfold Gathers
  rw [within_append]
  rcases h.gathers q hq with hself | ⟨hfits, hlength⟩
  · rw [within_append, List.append_eq_singleton_iff] at hself
    rcases hself with ⟨hnil, hself⟩ | ⟨hself, hnil⟩
    · rw [hnone hxs hX (List.subset_append_left X Y) hnil]
      exact hY.gathers q (mem_within.1 (hself ▸ List.mem_singleton_self q)).1
    · rw [hnone hys hY (List.subset_append_right X Y) hnil, List.append_nil]
      exact hX.gathers q (mem_within.1 (hself ▸ List.mem_singleton_self q)).1
  · right
    refine ⟨hfits, ?_⟩
    have hleX := hX.length_within_le hxs q
    have hleY := hY.length_within_le hys q
    rw [within_append, List.length_append] at hlength
    rw [List.length_append]
    omega

/-! ### Conflicts -/

/-- Parts with bytes are merged unless some two of them contradict each other. -/
theorem exists_merge_ok_iff (hsort : SortsByPlace sort) (hsolid : Solid (allParts coverages)) :
    (∃ m, mergeWith sort coverages = .ok m) ↔ ¬ Contradictory coverages := by
  constructor
  · rintro ⟨m, hok⟩ ⟨p, hp, q, hq, hkind, hover⟩
    rcases kind_eq_or_absorbed_of_merge_ok hsort hok hp hq hover with hsame | habs | habs
    · exact hkind hsame
    · exact hsolid.not_absorbed hp habs
    · exact hsolid.not_absorbed hq habs
  · intro hnot
    exact (not_refused_iff hsort).1 fun hrefused => hnot (contradictory_of_refused hsort hrefused)

theorem Contradictory.mono (hsub : allParts coverages ⊆ allParts reordered)
    (h : Contradictory coverages) : Contradictory reordered := by
  obtain ⟨p, hp, q, hq, hclash⟩ := h
  exact ⟨p, hsub hp, q, hsub hq, hclash⟩

/-- Contradictions are seen on the ground. -/
theorem SameGround.contradictory (h : SameGround (allParts coverages) (allParts reordered))
    (hcontra : Contradictory coverages) : Contradictory reordered := by
  obtain ⟨p, hp, q, hq, hkind, hover⟩ := hcontra
  obtain ⟨x, hxp, hxq⟩ := Span.overlaps_iff_exists_mem.1 hover
  obtain ⟨p', hp', hpk, hxp'⟩ := (h.occupied p.kind x).1 ⟨p, hp, rfl, hxp⟩
  obtain ⟨q', hq', hqk, hxq'⟩ := (h.occupied q.kind x).1 ⟨q, hq, rfl, hxq⟩
  refine ⟨p', hp', q', hq', ?_, Span.overlaps_iff_exists_mem.2 ⟨x, hxp', hxq'⟩⟩
  rw [hpk, hqk]
  exact hkind

/-! ### Groups -/

/-- **Merging is idempotent and can be done in groups**, however ties are broken.

* A merged coverage, merged by itself with ties left as they are, is what it was.
* Where all parts have bytes, and thus none is a marker and none starts at the highest address, two
  groups that can be merged at once can be merged one by one.
* Merging what two such groups were merged to comes to the same as merging them at once: it
  succeeds for the same groups, with the same parts, sizes included. -/
theorem merge_again_and_in_groups (sort : List Part → List Part) (hsort : SortsByPlace sort) :
    (∀ coverages m, mergeWith sort coverages = .ok m → merge [m] = .ok m) ∧
    ∀ left right : List Coverage,
      (∀ p ∈ allParts (left ++ right), p.span.size ≠ 0 ∧ p.span.start ≠ Address.top) →
      ((∃ m, mergeWith sort (left ++ right) = .ok m) →
        (∃ l, mergeWith sort left = .ok l) ∧ ∃ r, mergeWith sort right = .ok r) ∧
      ∀ l r, mergeWith sort left = .ok l → mergeWith sort right = .ok r →
        ∀ m, mergeWith sort [l, r] = .ok m ↔ mergeWith sort (left ++ right) = .ok m := by
  constructor
  · intro coverages m hok
    exact merge_of_canonical (separate_of_merge_ok hsort hok).1 (canonical_of_merge_ok hsort hok)
  · intro left right hbytes
    have hsolid : Solid (allParts (left ++ right)) := fun p hp =>
      (start_lt_stop_iff p).2 (hbytes p hp)
    have hparts := allParts_append left right
    obtain ⟨hleft, hright⟩ := List.forall_mem_append.1 (hparts ▸ hsolid)
    constructor
    · -- A contradiction within a group would be one within both.
      intro hok
      rw [exists_merge_ok_iff hsort hsolid] at hok
      rw [exists_merge_ok_iff hsort hleft, exists_merge_ok_iff hsort hright]
      constructor
      · exact fun h => hok (h.mono (hparts ▸ List.subset_append_left _ _))
      · exact fun h => hok (h.mono (hparts ▸ List.subset_append_right _ _))
    · intro l r hl hr m
      have hcl := condenses_of_merge_ok hsort hleft hl
      have hcr := condenses_of_merge_ok hsort hright hr
      have hlr : allParts [l, r] = l.parts.toList ++ r.parts.toList := by simp [allParts]
      have hsolid' : Solid (allParts [l, r]) :=
        hlr ▸ List.forall_mem_append.2 ⟨hcl.solid, hcr.solid⟩
      have hground : SameGround (allParts (left ++ right)) (allParts [l, r]) := by
        rw [hparts, hlr]
        exact hcl.ground.append hcr.ground
      -- Both succeed or none does, and then with the same parts.
      have hiff : (∃ m, mergeWith sort [l, r] = .ok m) ↔
          ∃ m, mergeWith sort (left ++ right) = .ok m := by
        rw [exists_merge_ok_iff hsort hsolid', exists_merge_ok_iff hsort hsolid]
        exact not_congr ⟨hground.symm.contradictory, hground.contradictory⟩
      have hsame {m' m'' : Coverage} (h' : mergeWith sort [l, r] = .ok m')
          (h'' : mergeWith sort (left ++ right) = .ok m'') : m' = m'' := by
        have hc' := condenses_of_merge_ok hsort hsolid' h'
        have hc'' := condenses_of_merge_ok hsort hsolid h''
        rw [hlr] at hc'
        rw [hparts] at hc''
        have heq := (hcl.trans_append hleft hright hcr hc').unique hc''
        have hlayout' := (separate_of_merge_ok hsort h').1
        have hlayout'' := (separate_of_merge_ok hsort h'').1
        obtain ⟨⟨_⟩, _⟩ := m'
        obtain ⟨⟨_⟩, _⟩ := m''
        simp_all
      constructor
      · intro h'
        obtain ⟨m'', h''⟩ := hiff.1 ⟨m, h'⟩
        rw [hsame h' h'', h'']
      · intro h''
        obtain ⟨m', h'⟩ := hiff.2 ⟨m, h''⟩
        rw [← hsame h' h'', h']

/-- Code is joined across the groups.  The data alone runs past the highest address, and keeps the
size that it was given. -/
theorem merge_again_and_in_groups_of_overrun :
    let left := [ofParts [⟨⟨16, 16⟩, .text⟩, ⟨⟨64, Address.top⟩, .data⟩]]
    let right := [ofParts [⟨⟨24, 16⟩, .text⟩], ofParts [⟨⟨40, 8⟩, .text⟩]]
    let l : Coverage := ⟨#[⟨⟨16, 16⟩, .text⟩, ⟨⟨64, Address.top⟩, .data⟩], .disjoint⟩
    let r : Coverage := ⟨#[⟨⟨24, 24⟩, .text⟩], .disjoint⟩
    let m : Coverage := ⟨#[⟨⟨16, 32⟩, .text⟩, ⟨⟨64, Address.top⟩, .data⟩], .disjoint⟩
    (∀ p ∈ allParts (left ++ right), p.span.size ≠ 0 ∧ p.span.start ≠ Address.top) ∧
      merge left = .ok l ∧ merge right = .ok r ∧ merge [l, r] = .ok m ∧ merge [m] = .ok m := by
  intro left right l r m
  obtain ⟨hagain, hgroups⟩ := merge_again_and_in_groups sortByPlace sortsByPlace_sortByPlace
  have hbytes : ∀ p ∈ allParts (left ++ right), p.span.size ≠ 0 ∧ p.span.start ≠ Address.top := by
    have hparts : allParts (left ++ right) = [⟨⟨16, 16⟩, .text⟩, ⟨⟨64, Address.top⟩, .data⟩,
        ⟨⟨24, 16⟩, .text⟩, ⟨⟨40, 8⟩, .text⟩] := by cbv
    rw [hparts]
    decide
  have hl : merge left = .ok l := by cbv
  have hr : merge right = .ok r := by cbv
  have hm : merge (left ++ right) = .ok m := by cbv
  have hlr := ((hgroups left right hbytes).2 l r hl hr m).2 hm
  exact ⟨hbytes, hl, hr, hlr, hagain _ m hlr⟩

end ByteCensus.Coverage
