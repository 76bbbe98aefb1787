import Mathlib.Data.List.Permutation
import Mathlib.Tactic.ByContra
import ByteCensus.Proofs.Coverage.Sweep

/-!
# What a merge refuses and what it keeps

A merge sorts the parts of all coverages by place and sweeps them once.

* `merge_refused_iff_clash`: the merge fails iff an earlier part clashes with a later one, and the
  error names the later one.  Overlapping parts of different kinds clash, unless the earlier one
  is an absorbed marker; `merge_misses_absorbed_marker` shows that the exception is met.
* `merge_keeps_classification`: what a merged part occupies, a part of its kind occupied before;
  and the bytes of a part are occupied by exactly one merged part, of the same kind.

Both hold for any sorting by place, thus however ties are broken.  The order of the sorted parts
enters through `Ascending` alone: the sweep needs no more than that no part starts before an
earlier one.
-/

namespace ByteCensus.Coverage

variable {sort : List Part → List Part} {coverages : List Coverage} {m : Coverage}

/-- The parts of all coverages. -/
def allParts (coverages : List Coverage) : List Part := coverages.flatMap (·.parts.toList)

theorem mem_allParts {coverages : List Coverage} {p : Part} :
    p ∈ allParts coverages ↔ ∃ c ∈ coverages, p ∈ c.parts := by
  simp [allParts]

theorem SortsByPlace.ascending (hsort : SortsByPlace sort) (parts : List Part) :
    Ascending (sort parts) := by
  apply (hsort.pairwise parts).imp
  rintro p q (hlt | ⟨heq, -⟩)
  · exact UInt64.le_of_lt hlt
  · exact UInt64.le_of_eq heq

theorem SortsByPlace.mem_iff (hsort : SortsByPlace sort) {parts : List Part} {p : Part} :
    p ∈ sort parts ↔ p ∈ parts :=
  (hsort.perm parts).mem_iff

/-- Parts that come one before the other when sorted were there to be sorted. -/
theorem SortsByPlace.mem_of_sublist (hsort : SortsByPlace sort) {parts : List Part} {p q : Part}
    (hsub : [p, q].Sublist (sort parts)) : p ∈ parts ∧ q ∈ parts := by
  have hall : ∀ r ∈ [p, q], r ∈ parts := fun r hr => hsort.mem_iff.1 (hsub.subset hr)
  exact ⟨hall p List.mem_cons_self, hall q (List.mem_cons_of_mem p (List.mem_singleton_self q))⟩

theorem mergeWith_eq_map (sort : List Part → List Part) (coverages : List Coverage) :
    mergeWith sort coverages = (join (sort (allParts coverages))).map fun joined =>
      ⟨joined.toArray, .disjoint⟩ := by
  unfold mergeWith allParts
  cases join (sort (coverages.flatMap (·.parts.toList))) <;> rfl

/-- A merge that succeeds has joined the sorted parts. -/
theorem join_of_merge_ok (hok : mergeWith sort coverages = .ok m) :
    m.layout = .disjoint ∧ join (sort (allParts coverages)) = .ok m.parts.toList := by
  rw [mergeWith_eq_map] at hok
  obtain ⟨joined, hjoin, rfl⟩ := exists_of_map_eq_ok hok
  exact ⟨rfl, hjoin⟩

/-- A merge that fails has failed to join the sorted parts. -/
theorem join_of_merge_error {e : Error} (he : mergeWith sort coverages = .error e) :
    join (sort (allParts coverages)) = .error e := by
  rw [mergeWith_eq_map] at he
  cases hjoin : join (sort (allParts coverages)) with
  | ok joined => simp [hjoin, Except.map] at he
  | error e' => simpa [hjoin, Except.map] using he

theorem separate_of_join {parts out : List Part} (hasc : Ascending parts)
    (hok : join parts = .ok out) : Separate out := by
  cases parts with
  | nil =>
    obtain rfl : [] = out := by simpa [join] using hok
    exact .nil
  | cons first rest => exact (pairwise_of_joinFrom hasc hok).1

theorem mem_part_of_mem_join {parts out : List Part} {q : Part} {x : Address}
    (hasc : Ascending parts) (hok : join parts = .ok out) (hq : q ∈ out) (hx : x ∈ q.span) :
    ∃ p ∈ parts, p.kind = q.kind ∧ x ∈ p.span := by
  cases parts with
  | nil =>
    obtain rfl : [] = out := by simpa [join] using hok
    cases hq
  | cons first rest => exact mem_part_of_mem_joinFrom hasc hok hq hx

theorem mem_join_of_byte {parts out : List Part} {p : Part} {x : Address} (hasc : Ascending parts)
    (hok : join parts = .ok out) (hp : p ∈ parts) (hstart : p.span.start ≤ x)
    (hstop : x < p.span.stop) : ∃ q ∈ out, q.kind = p.kind ∧ x ∈ q.span := by
  cases parts with
  | nil => cases hp
  | cons first rest => exact mem_joinFrom_of_byte hasc hok hp hstart hstop

/-- Merged parts lie one behind the other, and the coverage rightly says so. -/
theorem separate_of_merge_ok (hsort : SortsByPlace sort)
    (hok : mergeWith sort coverages = .ok m) : m.layout = .disjoint ∧ Separate m.parts.toList := by
  obtain ⟨hlayout, hjoin⟩ := join_of_merge_ok hok
  exact ⟨hlayout, separate_of_join (hsort.ascending _) hjoin⟩

/-! ### Refusals -/

theorem absorbed_congr {a b : List Part} {m : Part} (h : ∀ r, r ∈ a ↔ r ∈ b) :
    Absorbed a m ↔ Absorbed b m :=
  ⟨Absorbed.mono fun r => (h r).1, Absorbed.mono fun r => (h r).2⟩

theorem clash_congr {a b : List Part} {p q : Part} (h : ∀ r, r ∈ a ↔ r ∈ b) :
    Clash a p q ↔ Clash b p q := by
  unfold Clash
  rw [absorbed_congr h]

theorem exists_clash_of_join_error {parts : List Part} {e : Error} (hasc : Ascending parts)
    (he : join parts = .error e) :
    ∃ p q, [p, q].Sublist parts ∧ Clash parts p q ∧
      e = .coverageConflict q.span p.kind q.kind := by
  cases parts with
  | nil => simp [join] at he
  | cons first rest => exact exists_clash_of_joinFrom_error (.first first) hasc he

theorem pairwise_not_clash_of_join_ok {parts out : List Part} (hasc : Ascending parts)
    (hok : join parts = .ok out) : parts.Pairwise fun p q => ¬ Clash parts p q := by
  cases parts with
  | nil => exact .nil
  | cons first rest =>
    exact pairwise_not_clash_of_joinFrom_ok (.first first) hasc (List.pairwise_singleton _ _) hok

/-- An error of a merge is a conflict of two clashing parts, and names the later one. -/
theorem exists_clash_of_merge_error (hsort : SortsByPlace sort) {e : Error}
    (he : mergeWith sort coverages = .error e) :
    ∃ p q, [p, q].Sublist (sort (allParts coverages)) ∧ Clash (allParts coverages) p q ∧
      e = .coverageConflict q.span p.kind q.kind := by
  obtain ⟨p, q, hsub, hclash, heq⟩ :=
    exists_clash_of_join_error (hsort.ascending _) (join_of_merge_error he)
  exact ⟨p, q, hsub, (clash_congr fun r => hsort.mem_iff).1 hclash, heq⟩

theorem not_clash_of_merge_ok (hsort : SortsByPlace sort)
    (hok : mergeWith sort coverages = .ok m) {p q : Part}
    (hsub : [p, q].Sublist (sort (allParts coverages))) :
    ¬ Clash (allParts coverages) p q := by
  have hpair := pairwise_not_clash_of_join_ok (hsort.ascending _) (join_of_merge_ok hok).2
  rw [← clash_congr fun r => hsort.mem_iff]
  exact List.pairwise_iff_forall_sublist.1 hpair hsub

/-- Of two different parts one comes before the other in any list of both. -/
theorem sublist_pair_of_ne {parts : List Part} {p q : Part} (hp : p ∈ parts) (hq : q ∈ parts)
    (hne : p ≠ q) : [p, q].Sublist parts ∨ [q, p].Sublist parts := by
  induction parts with
  | nil => cases hp
  | cons r rest ih =>
    rcases List.mem_cons.1 hp with rfl | hp'
    · have hq' := (List.mem_cons.1 hq).resolve_left (Ne.symm hne)
      exact .inl ((List.singleton_sublist.2 hq').cons_cons p)
    · rcases List.mem_cons.1 hq with rfl | hq'
      · exact .inr ((List.singleton_sublist.2 hp').cons_cons q)
      · exact (ih hp' hq').imp (·.cons r) (·.cons r)

/-- After a merge, parts of different kinds overlap only where one of them is absorbed. -/
theorem kind_eq_or_absorbed_of_merge_ok (hsort : SortsByPlace sort)
    (hok : mergeWith sort coverages = .ok m) {p q : Part} (hp : p ∈ allParts coverages)
    (hq : q ∈ allParts coverages) (hover : p.span.Overlaps q.span) :
    p.kind = q.kind ∨ Absorbed (allParts coverages) p ∨ Absorbed (allParts coverages) q := by
  by_cases hkind : p.kind = q.kind
  · exact .inl hkind
  right
  have hne : p ≠ q := fun h => hkind (h ▸ rfl)
  -- Whichever of the two comes first in the sweep must be absorbed, or they would clash.
  rcases sublist_pair_of_ne (hsort.mem_iff.2 hp) (hsort.mem_iff.2 hq) hne with hsub | hsub
  · by_contra hnot
    exact not_clash_of_merge_ok hsort hok hsub ⟨hkind, hover, fun h => hnot (.inl h)⟩
  · by_contra hnot
    exact not_clash_of_merge_ok hsort hok hsub
      ⟨Ne.symm hkind, Span.overlaps_comm.1 hover, fun h => hnot (.inr h)⟩

/-- The answer of a merge is a conflict. -/
def Refused (answer : Except Error Coverage) : Prop :=
  ∃ incoming existingKind incomingKind,
    answer = .error (.coverageConflict incoming existingKind incomingKind)

/-- Two parts overlap and differ in kind. -/
def Contradictory (coverages : List Coverage) : Prop :=
  ∃ p ∈ allParts coverages, ∃ q ∈ allParts coverages, p.kind ≠ q.kind ∧ p.span.Overlaps q.span

/-- A merge fails for a conflict only. -/
theorem refused_of_merge_error (hsort : SortsByPlace sort) {e : Error}
    (he : mergeWith sort coverages = .error e) : Refused (mergeWith sort coverages) := by
  obtain ⟨p, q, -, -, rfl⟩ := exists_clash_of_merge_error hsort he
  exact ⟨_, _, _, he⟩

theorem contradictory_of_refused (hsort : SortsByPlace sort)
    (h : Refused (mergeWith sort coverages)) : Contradictory coverages := by
  obtain ⟨_, _, _, he⟩ := h
  obtain ⟨p, q, hsub, ⟨hkind, hover, -⟩, -⟩ := exists_clash_of_merge_error hsort he
  obtain ⟨hp, hq⟩ := hsort.mem_of_sublist hsub
  exact ⟨p, hp, q, hq, hkind, hover⟩

/-- **Refusals are exact**, up to absorbed markers, however ties are broken.  A merge fails iff some
part clashes with a later one, by start and end, and the error names the two.  Without absorbed
markers it fails iff two parts overlap and differ in kind; and a merge that succeeds certifies that
no address was given two kinds other than by an absorbed marker. -/
theorem merge_refused_iff_clash (sort : List Part → List Part) (hsort : SortsByPlace sort)
    (coverages : List Coverage) :
    (∀ e, mergeWith sort coverages = .error e →
      ∃ p q, [p, q].Sublist (sort (allParts coverages)) ∧
        Clash (allParts coverages) p q ∧ e = .coverageConflict q.span p.kind q.kind) ∧
    (Refused (mergeWith sort coverages) ↔
      ∃ p q, [p, q].Sublist (sort (allParts coverages)) ∧ Clash (allParts coverages) p q) ∧
    ((∀ p ∈ allParts coverages, ¬ Absorbed (allParts coverages) p) →
      (Refused (mergeWith sort coverages) ↔ Contradictory coverages)) ∧
    (∀ m, mergeWith sort coverages = .ok m →
      ∀ p ∈ allParts coverages, ∀ q ∈ allParts coverages,
        ∀ x, x ∈ p.span → x ∈ q.span → p.kind = q.kind ∨
          Absorbed (allParts coverages) p ∨ Absorbed (allParts coverages) q) := by
  refine ⟨fun e he => exists_clash_of_merge_error hsort he, ⟨?_, ?_⟩, fun hnone => ⟨?_, ?_⟩, ?_⟩
  · rintro ⟨_, _, _, he⟩
    obtain ⟨p, q, hsub, hclash, -⟩ := exists_clash_of_merge_error hsort he
    exact ⟨p, q, hsub, hclash⟩
  · rintro ⟨p, q, hsub, hclash⟩
    cases hmerge : mergeWith sort coverages with
    | ok m => exact absurd hclash (not_clash_of_merge_ok hsort hmerge hsub)
    | error e => exact hmerge ▸ refused_of_merge_error hsort hmerge
  · exact contradictory_of_refused hsort
  · rintro ⟨p, hp, q, hq, hkind, hover⟩
    cases hmerge : mergeWith sort coverages with
    | error e => exact hmerge ▸ refused_of_merge_error hsort hmerge
    | ok m =>
      -- A merge that succeeded would leave the two of one kind, or one of them absorbed.
      rcases kind_eq_or_absorbed_of_merge_ok hsort hmerge hp hq hover with h | h | h
      · exact absurd h hkind
      · exact absurd h (hnone p hp)
      · exact absurd h (hnone q hq)
  · intro m hok p hp q hq x hxp hxq
    exact kind_eq_or_absorbed_of_merge_ok hsort hok hp hq
      (Span.overlaps_iff_exists_mem.2 ⟨x, hxp, hxq⟩)

/-- Code and data that overlap: there is nothing that absorbs anything, and the merge is refused. -/
theorem merge_refused_iff_clash_of_overlap :
    let coverages := [ofParts [⟨⟨16, 16⟩, .text⟩], ofParts [⟨⟨24, 16⟩, .data⟩]]
    SortsByPlace sortByPlace ∧
      (∀ p ∈ allParts coverages, ¬ Absorbed (allParts coverages) p) ∧ Contradictory coverages ∧
      Refused (merge coverages) ∧
      ∃ p q, [p, q].Sublist (sortByPlace (allParts coverages)) ∧
        Clash (allParts coverages) p q := by
  intro coverages
  obtain ⟨-, hclash, hrefused, -⟩ :=
    merge_refused_iff_clash sortByPlace sortsByPlace_sortByPlace coverages
  have hparts : allParts coverages = [⟨⟨16, 16⟩, .text⟩, ⟨⟨24, 16⟩, .data⟩] := by cbv
  have hnone : ∀ p ∈ allParts coverages, ¬ Absorbed (allParts coverages) p := by
    rw [hparts]
    rintro p hp ⟨hmarker, -⟩
    revert p
    decide
  have hcontra : Contradictory coverages :=
    ⟨⟨⟨16, 16⟩, .text⟩, by simp [hparts], ⟨⟨24, 16⟩, .data⟩, by simp [hparts], by decide,
      by decide⟩
  have hanswer := (hrefused hnone).2 hcontra
  exact ⟨sortsByPlace_sortByPlace, hnone, hcontra, hanswer, hclash.1 hanswer⟩

/-- A marker of code at the end of other code is joined to it, and the data that starts at the
same address passes, although it overlaps the marker. -/
theorem merge_misses_absorbed_marker :
    ¬ (Refused (merge [ofParts [⟨⟨16, 16⟩, .text⟩, ⟨⟨32, 0⟩, .text⟩, ⟨⟨32, 16⟩, .data⟩]]) ↔
      Contradictory [ofParts [⟨⟨16, 16⟩, .text⟩, ⟨⟨32, 0⟩, .text⟩, ⟨⟨32, 16⟩, .data⟩]]) := by
  have hok : merge [ofParts [⟨⟨16, 16⟩, .text⟩, ⟨⟨32, 0⟩, .text⟩, ⟨⟨32, 16⟩, .data⟩]] =
      .ok ⟨#[⟨⟨16, 16⟩, .text⟩, ⟨⟨32, 16⟩, .data⟩], .disjoint⟩ := by cbv
  have hparts : allParts [ofParts [⟨⟨16, 16⟩, .text⟩, ⟨⟨32, 0⟩, .text⟩, ⟨⟨32, 16⟩, .data⟩]] =
      [⟨⟨16, 16⟩, .text⟩, ⟨⟨32, 0⟩, .text⟩, ⟨⟨32, 16⟩, .data⟩] := by cbv
  intro h
  obtain ⟨_, _, _, he⟩ := h.2 ⟨⟨⟨32, 0⟩, .text⟩, by simp [hparts], ⟨⟨32, 16⟩, .data⟩,
    by simp [hparts], by decide, by decide⟩
  rw [hok] at he
  cases he

/-! ### What is kept -/

/-- Of parts that lie one behind the other only one occupies a given address. -/
theorem filter_mem_eq_singleton {parts : List Part} {q : Part} {x : Address}
    (hpair : Separate parts) (hq : q ∈ parts)
    (hx : x ∈ q.span) : parts.filter (fun p => x ∈ p.span) = [q] := by
  have hmem : q ∈ parts.filter (fun p => x ∈ p.span) := by simpa [hq] using hx
  have hsub := hpair.sublist (List.filter_sublist (p := fun p => decide (x ∈ p.span)))
  have hall : ∀ p ∈ parts.filter (fun p => x ∈ p.span), x ∈ p.span := by simp
  match hf : parts.filter (fun p => x ∈ p.span) with
  | [] => simp [hf] at hmem
  | [p] => simpa [hf, eq_comm] using hmem
  | p :: r :: rest =>
    -- Two of them would both occupy `x`.
    rw [hf] at hsub hall
    have hle := List.rel_of_pairwise_cons hsub List.mem_cons_self
    have hp := (hall p List.mem_cons_self).2
    have hr := (hall r (by simp)).1
    exact absurd (UInt64.lt_of_lt_of_le hp hle) (UInt64.not_lt.2 hr)

/-- **A merge keeps the classification of every address**, however ties are broken: a merged part
of a kind occupies only what parts of that kind occupied, and what the bytes of a part occupy is
occupied by exactly one merged part, which has the kind of that part. -/
theorem merge_keeps_classification (sort : List Part → List Part) (hsort : SortsByPlace sort)
    (coverages : List Coverage) (m : Coverage) (hok : mergeWith sort coverages = .ok m)
    (x : Address) (t : ByteKind) :
    ((∃ q ∈ m.parts, q.kind = t ∧ x ∈ q.span) →
      ∃ c ∈ coverages, ∃ p ∈ c.parts, p.kind = t ∧ x ∈ p.span) ∧
    ((∃ c ∈ coverages, ∃ p ∈ c.parts, p.kind = t ∧ p.span.size ≠ 0 ∧ x ∈ p.span) →
      ∃ q, m.parts.toList.filter (fun q => x ∈ q.span) = [q] ∧ q.kind = t) := by
  have hjoin := (join_of_merge_ok hok).2
  have hasc := hsort.ascending (allParts coverages)
  have hmem (p : Part) : p ∈ sort (allParts coverages) ↔ ∃ c ∈ coverages, p ∈ c.parts :=
    hsort.mem_iff.trans mem_allParts
  constructor
  · rintro ⟨q, hq, hqk, hqx⟩
    obtain ⟨p, hp, hpk, hpx⟩ := mem_part_of_mem_join hasc hjoin (by simpa using hq) hqx
    obtain ⟨c, hc, hpc⟩ := (hmem p).1 hp
    exact ⟨c, hc, p, hpc, hpk.trans hqk, hpx⟩
  · rintro ⟨c, hc, p, hp, hpk, hsized, hpx⟩
    have hstop := hpx.2
    rw [Span.limit_eq_stop_of_sized hsized] at hstop
    obtain ⟨q, hq, hqk, hqx⟩ := mem_join_of_byte hasc hjoin ((hmem p).2 ⟨c, hc, hp⟩) hpx.1 hstop
    -- Merged parts are separate, so no other one occupies `x`.
    exact ⟨q, filter_mem_eq_singleton (separate_of_join hasc hjoin) hq hqx, hqk.trans hpk⟩

/-- Two coverages with overlapping and adjacent code, and data behind it. -/
theorem merge_keeps_classification_of_code :
    let coverages := [ofParts [⟨⟨16, 16⟩, .text⟩, ⟨⟨32, 16⟩, .text⟩],
      ofParts [⟨⟨40, 16⟩, .text⟩, ⟨⟨56, 1⟩, .data⟩]]
    let m : Coverage := ⟨#[⟨⟨16, 40⟩, .text⟩, ⟨⟨56, 1⟩, .data⟩], .disjoint⟩
    merge coverages = .ok m ∧
      ((∃ q ∈ m.parts, q.kind = .text ∧ (41 : Address) ∈ q.span) →
        ∃ c ∈ coverages, ∃ p ∈ c.parts, p.kind = .text ∧ (41 : Address) ∈ p.span) ∧
      ((∃ c ∈ coverages, ∃ p ∈ c.parts,
          p.kind = .text ∧ p.span.size ≠ 0 ∧ (41 : Address) ∈ p.span) →
        ∃ q, m.parts.toList.filter (fun q => (41 : Address) ∈ q.span) = [q] ∧ q.kind = .text) := by
  intro coverages m
  have hok : merge coverages = .ok m := by cbv
  exact ⟨hok, merge_keeps_classification _ sortsByPlace_sortByPlace coverages m hok 41 .text⟩

end ByteCensus.Coverage
