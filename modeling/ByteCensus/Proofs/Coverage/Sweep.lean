import ByteCensus.Coverage.Merge
import ByteCensus.Proofs.Coverage.Index

/-!
# The sweep that joins sorted parts

`joinFrom` compares each part only with the part joined last.  That this is enough follows from
one invariant, `Sweep seen last`, on the parts `seen` so far and the part `last` they were joined
to:

* `accounted`: each part seen ends before `last`, or lies within `last` and has its kind, or is
  an absorbed marker;
* `backed`: each address that `last` occupies is occupied by a part seen, of the same kind and
  not absorbed.

A marker is `Absorbed` where a part with bytes of its own kind ends exactly at the address it
marks: the sweep joins the two and the hull does not occupy that address.  Two parts `Clash` if
they overlap, differ in kind, and the earlier one is not absorbed.

Main statements: the sweep fails iff two parts clash (`exists_clash_of_joinFrom_error` and
`pairwise_not_clash_of_joinFrom_ok`), and where it succeeds the joined parts do not overlap
(`pairwise_of_joinFrom`), occupy nothing else than the parts swept (`mem_part_of_mem_joinFrom`)
and all of their bytes (`mem_joinFrom_of_byte`).
-/

namespace ByteCensus.Coverage

/-! ### One step of the sweep -/

/-- The part that takes the place of `last` when `next` is joined to it. -/
def joinPart (last next : Part) : Part := { last with span := last.span.hull next.span }

@[simp] theorem kind_joinPart (last next : Part) : (joinPart last next).kind = last.kind := rfl

theorem start_joinPart {last next : Part} (h : last.span.start ≤ next.span.start) :
    (joinPart last next).span.start = last.span.start :=
  Span.start_hull h

/-- A step joins parts of one kind that touch, refuses those of different kinds that overlap, and
else leaves `last` behind. -/
theorem joinFrom_cons (last next : Part) (rest : List Part) :
    joinFrom last (next :: rest) =
      if last.kind = next.kind ∧ last.span.Touches next.span then
        joinFrom (joinPart last next) rest
      else if last.span.Overlaps next.span then
        .error (.coverageConflict next.span last.kind next.kind)
      else (joinFrom next rest).map (last :: ·) := by
  rw [joinFrom]
  by_cases hover : last.span.Overlaps next.span
  · by_cases hkind : last.kind = next.kind <;> simp [hover, hkind, Span.Touches, joinPart]
  · by_cases hkind : last.kind = next.kind
    · by_cases hstop : next.span.start = last.span.stop
      · simp [hover, hkind, hstop, Span.Touches, joinPart]
      · simp only [hover, hkind, hstop, Span.Touches, or_false, and_false, ite_false]
        cases joinFrom next rest <;> rfl
    · simp only [hover, hkind, false_and, ite_false]
      cases joinFrom next rest <;> rfl

theorem exists_of_map_eq_ok {α β : Type} {f : α → β} {x : Except Error α} {b : β}
    (h : x.map f = .ok b) : ∃ a, x = .ok a ∧ f a = b := by
  cases x with
  | error e => cases h
  | ok a => exact ⟨a, rfl, Except.ok.inj h⟩

theorem Ascending.start_le {last next : Part} {rest : List Part}
    (h : Ascending (last :: next :: rest)) : last.span.start ≤ next.span.start :=
  List.rel_of_pairwise_cons h List.mem_cons_self

/-- Joining the first two parts keeps the order, since the hull starts where the first part did. -/
theorem Ascending.join {last next : Part} {rest : List Part}
    (h : Ascending (last :: next :: rest)) : Ascending (joinPart last next :: rest) := by
  refine List.pairwise_cons.2 ⟨fun p hp => ?_, h.tail.tail⟩
  rw [start_joinPart h.start_le]
  exact List.rel_of_pairwise_cons h (List.mem_cons_of_mem next hp)

/-! ### Absorbed markers and clashes -/

/-- A marker at the very end of a part with bytes of the same kind. -/
def Absorbed (parts : List Part) (m : Part) : Prop :=
  m.span.size = 0 ∧ ∃ r ∈ parts,
    r.kind = m.kind ∧ r.span.start < m.span.start ∧ r.span.stop = m.span.start

/-- Two parts contradict each other, and the sweep can see it. -/
def Clash (parts : List Part) (p q : Part) : Prop :=
  p.kind ≠ q.kind ∧ p.span.Overlaps q.span ∧ ¬ Absorbed parts p

variable {seen more : List Part} {last next p q : Part}

theorem Absorbed.mono (hsub : seen ⊆ more) (h : Absorbed seen p) : Absorbed more p := by
  obtain ⟨hmarker, r, hr, hrest⟩ := h
  exact ⟨hmarker, r, hsub hr, hrest⟩

/-- Parts that start no earlier than a marker cannot absorb it. -/
theorem not_absorbed_append (hmore : ∀ r ∈ more, p.span.start ≤ r.span.start)
    (h : ¬ Absorbed seen p) : ¬ Absorbed (seen ++ more) p := by
  rintro ⟨hmarker, r, hr, hkind, hstart, hstop⟩
  rcases List.mem_append.1 hr with hr | hr
  · exact h ⟨hmarker, r, hr, hkind, hstart, hstop⟩
  · exact UInt64.not_lt.2 (hmore r hr) hstart

/-! ### The invariant -/

/-- What the part joined last knows about the parts seen. -/
structure Sweep (seen : List Part) (last : Part) : Prop where
  /-- The part starts where one of the parts seen does. -/
  started : ∃ p ∈ seen, p.span.start = last.span.start
  accounted : ∀ p ∈ seen, p.span.limit ≤ last.span.start ∨
    (p.kind = last.kind ∧ last.span.Covers p.span ∧ p.span.stop ≤ last.span.stop) ∨
    Absorbed seen p
  /-- If the part has bytes, they end where those of a part seen of its kind do. -/
  ended : last.span.start < last.span.stop → ∃ r ∈ seen,
    r.kind = last.kind ∧ r.span.start < r.span.stop ∧ r.span.stop = last.span.stop
  backed : ∀ x ∈ last.span, ∃ p ∈ seen, p.kind = last.kind ∧ x ∈ p.span ∧ ¬ Absorbed seen p

namespace Sweep

/-- One part accounts for itself. -/
theorem first (p : Part) : Sweep [p] p where
  started := ⟨p, List.mem_singleton_self p, rfl⟩
  accounted q hq := by
    rw [List.mem_singleton.1 hq]
    exact .inr (.inl ⟨rfl, ⟨UInt64.le_refl _, UInt64.le_refl _⟩, UInt64.le_refl _⟩)
  ended h := ⟨p, List.mem_singleton_self p, rfl, h, rfl⟩
  backed x hx := by
    refine ⟨p, List.mem_singleton_self p, rfl, hx, ?_⟩
    rintro ⟨-, r, hr, -, hlt, -⟩
    rw [List.mem_singleton.1 hr] at hlt
    exact UInt64.lt_irrefl _ hlt

/-- The part joined last starts where some part seen does, so not behind the next one. -/
theorem start_le (h : Sweep seen last) (hasc : ∀ p ∈ seen, p.span.start ≤ next.span.start) :
    last.span.start ≤ next.span.start := by
  obtain ⟨p, hp, hstart⟩ := h.started
  exact hstart ▸ hasc p hp

/-- A part that overlaps `last` and is of another kind clashes with a part seen. -/
theorem exists_clash (h : Sweep seen last) (hasc : ∀ p ∈ seen, p.span.start ≤ next.span.start)
    (hkind : last.kind ≠ next.kind) (hover : last.span.Overlaps next.span) :
    ∃ p ∈ seen, p.kind = last.kind ∧ Clash seen p next := by
  -- `last` occupies the start of `next`, and some part seen backs that.
  obtain ⟨p, hp, hpk, hx, hnot⟩ := h.backed next.span.start ⟨h.start_le hasc, hover.2⟩
  refine ⟨p, hp, hpk, by rwa [hpk], ?_, hnot⟩
  exact Span.overlaps_iff_exists_mem.2
    ⟨_, hx, UInt64.le_refl _, Span.start_lt_limit_of_lt hover.2⟩

/-- Where the sweep does not fail, no part seen clashes with the next one. -/
theorem not_clash (h : Sweep seen last) (hasc : ∀ p ∈ seen, p.span.start ≤ next.span.start)
    (hok : last.kind = next.kind ∨ ¬ last.span.Overlaps next.span) (hp : p ∈ seen) :
    ¬ Clash seen p next := by
  rintro ⟨hkind, hover, hnot⟩
  -- A part seen ends before `last`, lies within it, or is absorbed.
  rcases h.accounted p hp with hbefore | ⟨hpk, hcovers, -⟩ | habs
  · exact Span.not_overlaps_of_limit_le_start
      (UInt64.le_trans hbefore (h.start_le hasc)) hover
  · rcases hok with hlk | hdis
    · exact hkind (hpk.trans hlk)
    · exact hdis (hcovers.overlaps hover)
  · exact hnot habs

/-- A marker that touches `last` without overlapping it is absorbed. -/
theorem absorbed_of_touches (h : Sweep seen last) (hle : last.span.start ≤ next.span.start)
    (hkind : last.kind = next.kind) (htouch : last.span.Touches next.span)
    (hover : ¬ last.span.Overlaps next.span) (hmarker : next.span.size = 0)
    (hocc : next.span.start < next.span.limit) : Absorbed seen next := by
  obtain ⟨hlt, hstop⟩ := Span.start_lt_stop_of_touches hle htouch hover hocc
  obtain ⟨r, hr, hrk, hrlt, hrstop⟩ := h.ended hlt
  exact ⟨hmarker, r, hr, hrk.trans hkind, by rwa [hstop, ← hrstop], hrstop.trans hstop.symm⟩

/-- The hull has room for the next part, unless that is an absorbed marker. -/
theorem covers_or_absorbed (h : Sweep seen last) (hle : last.span.start ≤ next.span.start)
    (hkind : last.kind = next.kind) (htouch : last.span.Touches next.span) :
    (last.span.hull next.span).Covers next.span ∨ Absorbed seen next := by
  have hcovers (hlimit : next.span.size ≠ 0 ∨ next.span.limit ≤ last.span.limit) :
      (last.span.hull next.span).Covers next.span :=
    ⟨(Span.start_hull hle).symm ▸ hle, Span.limit_le_limit_hull_right hle hlimit⟩
  by_cases hmarker : next.span.size = 0
  · by_cases hover : last.span.Overlaps next.span
    · exact .inl (hcovers (.inr (Span.limit_le_of_start_lt hmarker hover.2)))
    · by_cases hocc : next.span.start < next.span.limit
      · exact .inr (h.absorbed_of_touches hle hkind htouch hover hmarker hocc)
      · -- A marker that occupies nothing takes no room.
        refine .inl (hcovers (.inr ?_))
        refine UInt64.le_trans (UInt64.not_lt.1 hocc) ?_
        exact UInt64.le_trans htouch.start_le_stop last.span.stop_le_limit
  · exact .inl (hcovers (.inl hmarker))

/-- Joining the next part keeps the invariant. -/
theorem join (h : Sweep seen last) (hasc : ∀ p ∈ seen, p.span.start ≤ next.span.start)
    (hkind : last.kind = next.kind) (htouch : last.span.Touches next.span) :
    Sweep (seen ++ [next]) (joinPart last next) := by
  have hle := h.start_le hasc
  have hsub : seen ⊆ seen ++ [next] := List.subset_append_left seen [next]
  have hnext : next ∈ seen ++ [next] := List.mem_append_right seen (List.mem_singleton_self next)
  refine ⟨?_, ?_, ?_, ?_⟩
  · obtain ⟨p, hp, hstart⟩ := h.started
    exact ⟨p, hsub hp, by rw [hstart, start_joinPart hle]⟩
  -- The parts seen are accounted for as before, and the next one by the hull.
  · intro p hp
    rw [start_joinPart hle, kind_joinPart]
    rcases List.mem_append.1 hp with hp | hp
    · rcases h.accounted p hp with hbefore | ⟨hpk, ⟨hps, hpl⟩, hpe⟩ | habs
      · exact .inl hbefore
      · refine .inr (.inl ⟨hpk, ⟨?_, ?_⟩, ?_⟩)
        · exact (Span.start_hull hle).symm ▸ hps
        · exact UInt64.le_trans hpl (Span.limit_le_limit_hull_left hle)
        · exact UInt64.le_trans hpe (Span.stop_le_stop_hull_left hle)
      · exact .inr (.inr (habs.mono hsub))
    · rw [List.mem_singleton.1 hp]
      rcases h.covers_or_absorbed hle hkind htouch with hcovers | habs
      · exact .inr (.inl ⟨hkind.symm, hcovers, Span.stop_le_stop_hull_right hle⟩)
      · exact .inr (.inr (habs.mono hsub))
  -- The bytes end where those of `last` do, or those of the next part.
  · intro hlt
    by_cases hstop : next.span.stop ≤ last.span.stop
    · have heq : (joinPart last next).span.stop = last.span.stop := Span.stop_hull_of_le hle hstop
      rw [start_joinPart hle, heq] at hlt
      obtain ⟨r, hr, hrest⟩ := h.ended hlt
      exact ⟨r, hsub hr, heq ▸ hrest⟩
    · have hbehind := UInt64.not_le.1 hstop
      have heq : (joinPart last next).span.stop = next.span.stop :=
        Span.stop_hull_of_ge hle (UInt64.le_of_lt hbehind)
      refine ⟨next, hnext, hkind.symm, ?_, heq.symm⟩
      exact UInt64.lt_of_le_of_lt htouch.start_le_stop hbehind
  -- The hull occupies what `last` did, and the bytes of the next part.
  · intro x hx
    rcases Span.mem_of_mem_hull hle htouch hx with hx | ⟨hsized, hx⟩
    · obtain ⟨p, hp, hpk, hpx, hnot⟩ := h.backed x hx
      refine ⟨p, hsub hp, hpk, hpx, not_absorbed_append (fun r hr => ?_) hnot⟩
      rw [List.mem_singleton.1 hr]
      exact hasc p hp
    · exact ⟨next, hnext, hkind.symm, hx, fun habs => hsized habs.1⟩

/-- A part that is not joined is not absorbed either. -/
theorem not_absorbed (h : Sweep seen last) (hasc : ∀ p ∈ seen, p.span.start ≤ next.span.start)
    (htouch : ¬ (last.kind = next.kind ∧ last.span.Touches next.span))
    (hover : ¬ last.span.Overlaps next.span) (hocc : next.span.start < next.span.limit) :
    ¬ Absorbed seen next := by
  have hle := h.start_le hasc
  have hlimit := Span.limit_le_start_of_not_overlaps hle hover
  rintro ⟨-, r, hr, hrk, hrlt, hrstop⟩
  -- The part that would absorb it is accounted for by `last`.
  rcases h.accounted r hr with hbefore | ⟨hrl, -, hstop⟩ | ⟨hmarker, -⟩
  · -- `last` would start where the marker does.
    have hge : next.span.start ≤ last.span.start :=
      hrstop ▸ UInt64.le_trans r.span.stop_le_limit hbefore
    have hlocc := Span.start_lt_limit_of_lt (UInt64.lt_of_le_of_lt hle hocc)
    exact UInt64.not_lt.2 (UInt64.le_trans hlimit hge) hlocc
  · -- `last` would end there, and be joined.
    refine htouch ⟨hrl.symm.trans hrk, .inr (UInt64.le_antisymm (hrstop ▸ hstop) ?_)⟩
    exact UInt64.le_trans last.span.stop_le_limit hlimit
  · rw [← hrstop, Span.stop_eq_start_of_marker hmarker] at hrlt
    exact UInt64.lt_irrefl _ hrlt

/-- Going on with the next part, where it is not joined, keeps the invariant. -/
theorem push (h : Sweep seen last) (hasc : ∀ p ∈ seen, p.span.start ≤ next.span.start)
    (htouch : ¬ (last.kind = next.kind ∧ last.span.Touches next.span))
    (hover : ¬ last.span.Overlaps next.span) : Sweep (seen ++ [next]) next := by
  have hle := h.start_le hasc
  have hlimit := Span.limit_le_start_of_not_overlaps hle hover
  have hsub : seen ⊆ seen ++ [next] := List.subset_append_left seen [next]
  have hnext : next ∈ seen ++ [next] := List.mem_append_right seen (List.mem_singleton_self next)
  refine ⟨⟨next, hnext, rfl⟩, ?_, fun hlt => ⟨next, hnext, rfl, hlt, rfl⟩, ?_⟩
  · intro p hp
    rcases List.mem_append.1 hp with hp | hp
    -- All that `last` accounted for ends before the next part starts.
    · rcases h.accounted p hp with hbefore | ⟨-, ⟨-, hpl⟩, -⟩ | habs
      · exact .inl (UInt64.le_trans hbefore hle)
      · exact .inl (UInt64.le_trans hpl hlimit)
      · exact .inr (.inr (habs.mono hsub))
    · rw [List.mem_singleton.1 hp]
      exact .inr (.inl ⟨rfl, ⟨UInt64.le_refl _, UInt64.le_refl _⟩, UInt64.le_refl _⟩)
  · intro x hx
    have hnot := h.not_absorbed hasc htouch hover (UInt64.lt_of_le_of_lt hx.1 hx.2)
    refine ⟨next, hnext, rfl, hx, not_absorbed_append (fun r hr => ?_) hnot⟩
    rw [List.mem_singleton.1 hr]
    exact UInt64.le_refl _

end Sweep

/-! ### Whole sweeps -/

theorem Ascending.seen_le {rest : List Part} (h : Ascending (seen ++ next :: rest)) :
    ∀ p ∈ seen, p.span.start ≤ next.span.start :=
  fun p hp => (List.pairwise_append.1 h).2.2 p hp next List.mem_cons_self

/-- **Soundness of refusals**: a failing sweep names a part that clashes with an earlier one. -/
theorem exists_clash_of_joinFrom_error {rest : List Part} {e : Error} (h : Sweep seen last)
    (hasc : Ascending (seen ++ rest)) (he : joinFrom last rest = .error e) :
    ∃ p q, [p, q].Sublist (seen ++ rest) ∧ Clash (seen ++ rest) p q ∧
      e = .coverageConflict q.span p.kind q.kind := by
  induction rest generalizing seen last with
  | nil => simp [joinFrom] at he
  | cons next rest ih =>
    have hle := hasc.seen_le
    rw [joinFrom_cons] at he
    have hassoc : seen ++ next :: rest = (seen ++ [next]) ++ rest := by simp
    split at he
    -- Joined: the error comes later.
    · next htouch =>
      rw [hassoc] at hasc ⊢
      exact ih (h.join hle htouch.1 htouch.2) hasc he
    · next htouch =>
      split at he
      -- Refused here, since `last` overlaps the next part.
      · next hover =>
        have hkind : last.kind ≠ next.kind := fun hk => htouch ⟨hk, .inl hover⟩
        obtain ⟨p, hp, hpk, hne, hpo, hnot⟩ := h.exists_clash hle hkind hover
        refine ⟨p, next, ?_, ⟨hne, hpo, not_absorbed_append (fun r hr => ?_) hnot⟩, ?_⟩
        · exact (List.singleton_sublist.2 hp).append
            (List.singleton_sublist.2 List.mem_cons_self)
        · rcases List.mem_cons.1 hr with rfl | hr
          · exact hle p hp
          · exact (List.pairwise_append.1 hasc).2.2 p hp r (List.mem_cons_of_mem next hr)
        · rw [hpk]
          exact (Except.error.inj he).symm
      · next hover =>
        cases hrest : joinFrom next rest with
        | ok out => simp [hrest, Except.map] at he
        | error e' =>
          obtain rfl : e' = e := by simpa [hrest, Except.map] using he
          rw [hassoc] at hasc ⊢
          exact ih (h.push hle htouch hover) hasc hrest

/-- **Completeness of refusals**: after a sweep that succeeds no two parts clash. -/
theorem pairwise_not_clash_of_joinFrom_ok {rest out : List Part} (h : Sweep seen last)
    (hasc : Ascending (seen ++ rest))
    (hseen : seen.Pairwise fun p q => ¬ Clash (seen ++ rest) p q)
    (hok : joinFrom last rest = .ok out) :
    (seen ++ rest).Pairwise fun p q => ¬ Clash (seen ++ rest) p q := by
  induction rest generalizing seen last out with
  | nil => simpa using hseen
  | cons next rest ih =>
    have hle := hasc.seen_le
    have hassoc : seen ++ next :: rest = (seen ++ [next]) ++ rest := by simp
    -- Where the sweep goes on, the next part clashes with none seen.
    have hstep (hcase : last.kind = next.kind ∨ ¬ last.span.Overlaps next.span) :
        (seen ++ [next]).Pairwise fun p q => ¬ Clash ((seen ++ [next]) ++ rest) p q := by
      rw [← hassoc]
      refine List.pairwise_append.2 ⟨hseen, List.pairwise_singleton _ _, ?_⟩
      intro p hp q hq hclash
      rw [List.mem_singleton.1 hq] at hclash
      obtain ⟨hkind, hover, hnot⟩ := hclash
      exact h.not_clash hle hcase hp
        ⟨hkind, hover, fun habs => hnot (habs.mono (List.subset_append_left _ _))⟩
    rw [joinFrom_cons] at hok
    split at hok
    · next htouch =>
      rw [hassoc] at hasc ⊢
      exact ih (h.join hle htouch.1 htouch.2) hasc (hstep (.inl htouch.1)) hok
    · next htouch =>
      split at hok
      · cases hok
      · next hover =>
        obtain ⟨out', hrest, -⟩ := exists_of_map_eq_ok hok
        rw [hassoc] at hasc ⊢
        exact ih (h.push hle htouch hover) hasc (hstep (.inr hover)) hrest

/-! ### The joined parts -/

/-- The joined parts lie one behind the other, and none starts before the first part swept. -/
theorem pairwise_of_joinFrom {rest out : List Part} (hasc : Ascending (last :: rest))
    (hok : joinFrom last rest = .ok out) :
    Separate out ∧ ∀ q ∈ out, last.span.start ≤ q.span.start := by
  induction rest generalizing last out with
  | nil =>
    obtain rfl : [last] = out := by simpa [joinFrom] using hok
    exact ⟨List.pairwise_singleton _ _, fun q hq => by
      rw [List.mem_singleton.1 hq]; exact UInt64.le_refl _⟩
  | cons next rest ih =>
    have hle := hasc.start_le
    rw [joinFrom_cons] at hok
    split at hok
    · next htouch =>
      obtain ⟨hpair, hstart⟩ := ih hasc.join hok
      rw [start_joinPart hle] at hstart
      exact ⟨hpair, hstart⟩
    · split at hok
      · cases hok
      · next hover =>
        obtain ⟨joined, hrest, rfl⟩ := exists_of_map_eq_ok hok
        obtain ⟨hpair, hstart⟩ := ih hasc.tail hrest
        have hlimit := Span.limit_le_start_of_not_overlaps hle hover
        -- What is joined later starts no earlier than `next`, and that behind `last`.
        constructor
        · exact List.pairwise_cons.2
            ⟨fun q hq => UInt64.le_trans hlimit (hstart q hq), hpair⟩
        · intro q hq
          rcases List.mem_cons.1 hq with rfl | hq
          · exact UInt64.le_refl _
          · exact UInt64.le_trans hle (hstart q hq)

/-- **Nothing is invented**: what a joined part occupies, a part of its kind occupied before. -/
theorem mem_part_of_mem_joinFrom {rest out : List Part} {x : Address}
    (hasc : Ascending (last :: rest)) (hok : joinFrom last rest = .ok out)
    (hq : q ∈ out) (hx : x ∈ q.span) : ∃ p ∈ last :: rest, p.kind = q.kind ∧ x ∈ p.span := by
  induction rest generalizing last out with
  | nil =>
    obtain rfl : [last] = out := by simpa [joinFrom] using hok
    exact ⟨q, hq, rfl, hx⟩
  | cons next rest ih =>
    have hle := hasc.start_le
    rw [joinFrom_cons] at hok
    split at hok
    · next htouch =>
      obtain ⟨p, hp, hpk, hpx⟩ := ih hasc.join hok hq
      rcases List.mem_cons.1 hp with rfl | hp
      · -- The hull occupies what one of the two parts does.
        rcases Span.mem_of_mem_hull hle htouch.2 hpx with hpx | ⟨-, hpx⟩
        · exact ⟨last, List.mem_cons_self, hpk, hpx⟩
        · exact ⟨next, by simp, htouch.1.symm.trans hpk, hpx⟩
      · exact ⟨p, by simp [hp], hpk, hpx⟩
    · split at hok
      · cases hok
      · obtain ⟨joined, hrest, rfl⟩ := exists_of_map_eq_ok hok
        rcases List.mem_cons.1 hq with rfl | hq
        · exact ⟨q, List.mem_cons_self, rfl, hx⟩
        · obtain ⟨p, hp, hpk, hpx⟩ := ih hasc.tail hrest hq
          exact ⟨p, List.mem_cons_of_mem last hp, hpk, hpx⟩

/-- **No byte is lost**: what the bytes of a part occupy, a joined part of its kind occupies. -/
theorem mem_joinFrom_of_byte {rest out : List Part} {x : Address}
    (hasc : Ascending (last :: rest)) (hok : joinFrom last rest = .ok out)
    (hp : p ∈ last :: rest) (hstart : p.span.start ≤ x) (hstop : x < p.span.stop) :
    ∃ q ∈ out, q.kind = p.kind ∧ x ∈ q.span := by
  have hmem : x ∈ p.span := ⟨hstart, UInt64.lt_of_lt_of_le hstop p.span.stop_le_limit⟩
  induction rest generalizing last out p with
  | nil =>
    obtain rfl : [last] = out := by simpa [joinFrom] using hok
    exact ⟨p, hp, rfl, hmem⟩
  | cons next rest ih =>
    have hle := hasc.start_le
    rw [joinFrom_cons] at hok
    split at hok
    · next htouch =>
      -- A byte of the hull is a byte of what the hull is joined to in the end.
      have hin (hbeg : last.span.start ≤ x) (hend : x < (joinPart last next).span.stop) :
          ∃ q ∈ out, q.kind = (joinPart last next).kind ∧ x ∈ q.span := by
        rw [← start_joinPart hle] at hbeg
        exact ih hasc.join hok List.mem_cons_self hbeg hend
          ⟨hbeg, UInt64.lt_of_lt_of_le hend (Span.stop_le_limit _)⟩
      rcases List.mem_cons.1 hp with rfl | hp
      · exact hin hstart (UInt64.lt_of_lt_of_le hstop (Span.stop_le_stop_hull_left hle))
      · rcases List.mem_cons.1 hp with rfl | hp
        · rw [← htouch.1, ← kind_joinPart last]
          exact hin (UInt64.le_trans hle hstart)
            (UInt64.lt_of_lt_of_le hstop (Span.stop_le_stop_hull_right hle))
        · exact ih hasc.join hok (List.mem_cons_of_mem _ hp) hstart hstop hmem
    · split at hok
      · cases hok
      · obtain ⟨joined, hrest, rfl⟩ := exists_of_map_eq_ok hok
        rcases List.mem_cons.1 hp with rfl | hp
        · exact ⟨p, List.mem_cons_self, rfl, hmem⟩
        · obtain ⟨q, hq, hqk, hqx⟩ := ih hasc.tail hrest hp hstart hstop hmem
          exact ⟨q, List.mem_cons_of_mem last hq, hqk, hqx⟩

end ByteCensus.Coverage
