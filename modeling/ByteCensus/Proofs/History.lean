import Mathlib.Data.Finset.Card
import Mathlib.Order.Bounds.Basic
import ByteCensus.Proofs.Store

/-!
# A store is determined by its history

The history of a store are the entries that were offered to it, one after the other, refused ones
included.  What the store has at an address is decided by those of them that start there
(`get?_offerAll`): each one comes upon the entry that is there by then, and `settle` says what
becomes of the two.

Where newer entries replace older ones that is the last one, and where they are refused it is the
first one.  A store that keeps older entries has the first one too, but `GrownFrom` those of its
kind that came later: it has grown to the greatest of their sizes, and it has the first owner that
came with an entry larger than all before it.  `history_determines_entries` puts this together.
-/

namespace ByteCensus.Store

variable {s : Store} {e kept first : Evidence} {x : Address} {given : List Evidence}

/-! ### Entries one by one -/

/-- The store after an entry was offered to it; one that is refused leaves the store as it was. -/
def offer (s : Store) (e : Evidence) : Store :=
  match s.insert e with
  | .ok (_, s') => s'
  | .error _ => s

/-- The store after all entries of a history were offered to it, in order. -/
def offerAll (s : Store) (history : List Evidence) : Store := history.foldl offer s

/-- What becomes of the entry at an address, if there is one, when another one is offered there. -/
def settle (policy : DuplicatePolicy) (kept : Option Evidence) (e : Evidence) : Evidence :=
  match policy, kept with
  | _, none => e
  | .replace, some _ => e
  | .reject, some kept => kept
  | .keepFirst, some kept =>
    if kept.kind = e.kind ∧ kept.span.size < e.span.size then widen kept e else kept

/-- The store refuses an entry whose start is taken, under the policy to reject all of these, and
under the policy to keep the older entry if that is of another kind. -/
theorem exists_insert_eq_error_iff :
    (∃ err, s.insert e = .error err) ↔ ∃ kept, s.get? e.start = some kept ∧
      (s.policy = .reject ∨ s.policy = .keepFirst ∧ kept.kind ≠ e.kind) := by
  unfold insert
  cases hkept : s.get? e.start with
  | none => simp
  | some kept =>
    cases hpolicy : s.policy with
    | replace => simp
    | reject => simp
    | keepFirst =>
      by_cases hkind : kept.kind = e.kind
      · by_cases hle : e.span.size ≤ kept.span.size <;> simp [hkind, hle]
      · simp [hkind]

theorem policy_offer (s : Store) (e : Evidence) : (s.offer e).policy = s.policy := by
  unfold offer
  split
  · next hinsert => exact policy_of_insert hinsert
  · rfl

/-- An entry that is offered touches the address where it starts, and no other. -/
theorem get?_offer (s : Store) (e : Evidence) (x : Address) :
    (s.offer e).get? x = if e.start = x then some (settle s.policy (s.get? x) e) else s.get? x := by
  unfold offer
  split
  · next hinsert =>
    obtain ⟨hfree, -, rfl⟩ | ⟨kept, hkept, ⟨hpolicy, -, rfl⟩ | ⟨hpolicy, hkind, ⟨hle, -, rfl⟩ |
      ⟨hlt, -, rfl⟩⟩⟩ := insert_eq_ok hinsert
    -- The start was free.
    · rw [get?_put]
      split
      · next hstart => rw [← hstart, hfree, settle]
      · rfl
    -- The entry there is overwritten.
    · rw [get?_put, hpolicy]
      split
      · next hstart => rw [← hstart, hkept, settle]
      · rfl
    · split
      · next hstart =>
        have hnot : ¬ kept.span.size < e.span.size := UInt64.not_lt.2 hle
        rw [← hstart, hkept, hpolicy]
        simp [settle, hnot]
      · rfl
    -- The entry there is widened.
    · rw [get?_put, hpolicy]
      show (if e.start = x then _ else _) = _
      split
      · next hstart =>
        rw [← hstart, hkept]
        simp [settle, hkind, hlt]
      · rfl
  · next err hinsert =>
    -- Refused, and `settle` keeps what is there for the same two reasons.
    obtain ⟨kept, hkept, hpolicy⟩ := exists_insert_eq_error_iff.1 ⟨err, hinsert⟩
    split
    · next hstart =>
      rw [← hstart, hkept]
      rcases hpolicy with hpolicy | ⟨hpolicy, hkind⟩ <;> simp [settle, *]
    · rfl

theorem policy_offerAll (s : Store) (history : List Evidence) :
    (s.offerAll history).policy = s.policy := by
  induction history generalizing s with
  | nil => rfl
  | cons e rest ih => exact (ih (s.offer e)).trans (policy_offer s e)

/-- **What a store has at an address depends on the entries offered there**, in order. -/
theorem get?_offerAll (s : Store) (history : List Evidence) (x : Address) :
    (s.offerAll history).get? x =
      (history.filter (·.start = x)).foldl (fun kept e => some (settle s.policy kept e))
        (s.get? x) := by
  induction history generalizing s with
  | nil => rfl
  | cons e rest ih =>
    show ((s.offer e).offerAll rest).get? x = _
    rw [ih, policy_offer, get?_offer]
    by_cases hstart : e.start = x <;> simp [hstart]

/-! ### One address -/

/-- What the entries given at an address make of it, one after the other. -/
def settleAll (policy : DuplicatePolicy) (given : List Evidence) : Option Evidence :=
  given.foldl (fun kept e => some (settle policy kept e)) none

theorem settleAll_append (policy : DuplicatePolicy) (given : List Evidence) (e : Evidence) :
    settleAll policy (given ++ [e]) = some (settle policy (settleAll policy given) e) := by
  simp [settleAll]

/-- There is an entry at an address as soon as one was given. -/
theorem isSome_settleAll_iff (policy : DuplicatePolicy) (given : List Evidence) :
    (settleAll policy given).isSome ↔ given ≠ [] := by
  cases given using List.reverseRecOn with
  | nil => simp [settleAll]
  | append_singleton given e => simp [settleAll_append]

theorem settleAll_replace (given : List Evidence) : settleAll .replace given = given.getLast? := by
  cases given using List.reverseRecOn with
  | nil => rfl
  | append_singleton given e =>
    rw [settleAll_append, List.getLast?_concat]
    cases settleAll .replace given <;> rfl

theorem settleAll_reject (given : List Evidence) : settleAll .reject given = given.head? := by
  induction given using List.reverseRecOn with
  | nil => rfl
  | append_singleton given e ih =>
    rw [settleAll_append, ih]
    cases given <;> rfl

/-- Those of the entries that are larger than all before them, if the `earlier` ones came first. -/
def recordsAfter (earlier : List Evidence) : List Evidence → List Evidence
  | [] => []
  | e :: rest =>
    if ∀ x ∈ earlier, x.span.size < e.span.size then e :: recordsAfter (earlier ++ [e]) rest
    else recordsAfter (earlier ++ [e]) rest

/-- Those of the entries that are larger than all before them; the first one always is. -/
def records (entries : List Evidence) : List Evidence := recordsAfter [] entries

theorem recordsAfter_append (earlier entries : List Evidence) (e : Evidence) :
    recordsAfter earlier (entries ++ [e]) = recordsAfter earlier entries ++
      if ∀ x ∈ earlier ++ entries, x.span.size < e.span.size then [e] else [] := by
  induction entries generalizing earlier with
  | nil => simp [recordsAfter]
  | cons y rest ih =>
    rw [List.cons_append, recordsAfter, recordsAfter, ih, ← List.append_cons]
    split <;> rfl

theorem records_append (entries : List Evidence) (e : Evidence) :
    records (entries ++ [e]) = records entries ++
      if ∀ x ∈ entries, x.span.size < e.span.size then [e] else [] :=
  recordsAfter_append [] entries e

/-- One more size is the greatest if it is greater than the greatest before. -/
theorem isGreatest_insert {sizes : Set UInt64} {m : UInt64} (h : IsGreatest sizes m) (n : UInt64) :
    IsGreatest (Insert.insert n sizes) (if m < n then n else m) := by
  split
  · next hlt =>
    refine ⟨Set.mem_insert n sizes, ?_⟩
    rintro k (rfl | hk)
    · exact UInt64.le_refl _
    · exact UInt64.le_trans (h.2 hk) (UInt64.le_of_lt hlt)
  · next hnot =>
    refine ⟨Set.mem_insert_of_mem n h.1, ?_⟩
    rintro k (rfl | hk)
    · exact UInt64.not_lt.1 hnot
    · exact h.2 hk

/-- The entry is the first one of those given at its start, grown with the others of its kind: to
the greatest of their sizes, and with the first owner that one of them had when it was larger than
all before it. -/
structure GrownFrom (first : Evidence) (given : List Evidence) (e : Evidence) : Prop where
  start_eq : e.start = first.start
  kind_eq : e.kind = first.kind
  source_eq : e.source = first.source
  package_eq : e.package = first.package
  detail_eq : e.detail = first.detail
  size_greatest : IsGreatest
    {n | ∃ y ∈ given.filter (·.kind = first.kind), y.span.size = n} e.span.size
  function_eq :
    e.function = (records (given.filter (·.kind = first.kind))).findSome? (·.function)

theorem GrownFrom.refl (first : Evidence) : GrownFrom first [first] first := by
  refine ⟨rfl, rfl, rfl, rfl, rfl, ?_, ?_⟩
  · simp [IsGreatest, upperBounds]
  · simp [records, recordsAfter]

/-- A larger entry of the same kind is larger than all of them. -/
theorem GrownFrom.lt_iff (h : GrownFrom first given kept) (e : Evidence) :
    kept.span.size < e.span.size ↔
      ∀ y ∈ given.filter (·.kind = first.kind), y.span.size < e.span.size := by
  obtain ⟨⟨y, hy, hsize⟩, hbound⟩ := h.size_greatest
  constructor
  · intro hlt z hz
    exact UInt64.lt_of_le_of_lt (hbound ⟨z, hz, rfl⟩) hlt
  · intro hall
    exact hsize ▸ hall y hy

/-- The next entry that is given makes it grow, or leaves it. -/
theorem GrownFrom.settle (h : GrownFrom first given kept) (hstart : e.start = first.start) :
    GrownFrom first (given ++ [e]) (settle .keepFirst (some kept) e) := by
  by_cases hkind : e.kind = first.kind
  -- The entry is of the same kind: it counts among the sizes, and is a record if it is larger than
  -- all.
  · have hsame : (given ++ [e]).filter (·.kind = first.kind) =
        given.filter (·.kind = first.kind) ++ [e] := by simp [hkind]
    have hsettle : Store.settle .keepFirst (some kept) e =
        if kept.span.size < e.span.size then widen kept e else kept := by
      simp [Store.settle, hkind, h.kind_eq]
    have hgreatest : IsGreatest
        {n | ∃ y ∈ (given ++ [e]).filter (·.kind = first.kind), y.span.size = n}
        (if kept.span.size < e.span.size then e.span.size else kept.span.size) := by
      have hsizes : {n | ∃ y ∈ given.filter (·.kind = first.kind) ++ [e], y.span.size = n} =
          Insert.insert e.span.size
            {n | ∃ y ∈ given.filter (·.kind = first.kind), y.span.size = n} := by
        ext n
        simp [or_and_right, exists_or, or_comm, eq_comm]
      rw [hsame, hsizes]
      exact isGreatest_insert h.size_greatest _
    have hfunction : (records ((given ++ [e]).filter (·.kind = first.kind))).findSome?
          (·.function) =
        if kept.span.size < e.span.size then kept.function <|> e.function else kept.function := by
      rw [hsame, records_append, List.findSome?_append, ← h.function_eq]
      simp only [h.lt_iff e]
      split <;> simp
    rw [hsettle]
    split
    · next hlt =>
      rw [if_pos hlt] at hgreatest hfunction
      exact ⟨hstart, h.kind_eq, h.source_eq, h.package_eq, h.detail_eq, hgreatest,
        hfunction.symm⟩
    · next hnot =>
      rw [if_neg hnot] at hgreatest hfunction
      exact ⟨h.start_eq, h.kind_eq, h.source_eq, h.package_eq, h.detail_eq, hgreatest,
        hfunction.symm⟩
  -- An entry of another kind is refused, and the list of those of the first kind is the same.
  · have hsame : (given ++ [e]).filter (·.kind = first.kind) =
        given.filter (·.kind = first.kind) := by simp [hkind]
    have hsettle : Store.settle .keepFirst (some kept) e = kept := by
      simp [Store.settle, h.kind_eq, Ne.symm hkind]
    rw [hsettle]
    refine ⟨h.start_eq, h.kind_eq, h.source_eq, h.package_eq, h.detail_eq, ?_, ?_⟩
    · rw [hsame]
      exact h.size_greatest
    · rw [hsame]
      exact h.function_eq

/-- The entries given at one start make of the first one an entry that has grown from it. -/
theorem exists_grownFrom_of_settleAll (hstart : ∀ e ∈ given, e.start = first.start) :
    ∃ e, settleAll .keepFirst (first :: given) = some e ∧ GrownFrom first (first :: given) e := by
  -- From the right, since an entry is settled with what all before it have made.
  induction given using List.reverseRecOn with
  | nil => exact ⟨first, rfl, .refl first⟩
  | append_singleton given e ih =>
    obtain ⟨hgiven, he⟩ := List.forall_mem_append.1 hstart
    obtain ⟨kept, hkept, hgrown⟩ := ih hgiven
    refine ⟨_, ?_, hgrown.settle (he e (List.mem_singleton_self e))⟩
    rw [← List.cons_append, settleAll_append, hkept]

/-! ### Whole histories -/

/-- A store has as many entries as it has starts. -/
theorem size_eq_card (s : Store) : s.size = (s.entries.map Evidence.start).toFinset.card := by
  have hnodup : (s.entries.map Evidence.start).Nodup := by
    rw [List.Nodup, List.pairwise_map]
    exact s.ascending.imp UInt64.ne_of_lt
  rw [List.toFinset_card_of_nodup hnodup, List.length_map]
  rfl

theorem mem_starts_iff : x ∈ s.entries.map Evidence.start ↔ (s.get? x).isSome := by
  simp only [List.mem_map, Option.isSome_iff_exists, get?_eq_some_iff]

/-- **A store is determined by its history.**  Entries are offered to an empty store, one after the
other, and refused ones leave it as it was.  Then in the end

* each entry is found under its own start, and there are as many as different starts were offered;
* what is found at an address depends on the entries that were offered there, in order: it is the
  last one where newer entries replace older ones, the first one where they are rejected, and
  otherwise the first one, grown with those of its kind;
* the next entry is refused iff its start is taken and the policy is to reject it, or to keep the
  older one and that is of another kind.  The error names the start and both kinds, and the store
  stays as it was. -/
theorem history_determines_entries (policy : DuplicatePolicy) (history : List Evidence) :
    let s := (empty policy).offerAll history
    (∀ e ∈ s.entries, ∀ x, s.get? x = some e ↔ x = e.start) ∧
    s.size = (history.map Evidence.start).toFinset.card ∧
    (∀ x,
      let given := history.filter (·.start = x)
      (∀ other, other.filter (·.start = x) = given →
        ((empty policy).offerAll other).get? x = s.get? x) ∧
      match policy with
      | .replace => s.get? x = given.getLast?
      | .reject => s.get? x = given.head?
      | .keepFirst =>
        match given with
        | [] => s.get? x = none
        | first :: _ => ∃ e, s.get? x = some e ∧ GrownFrom first given e) ∧
    ∀ e,
      ((∃ err, s.insert e = .error err) ↔ ∃ kept, s.get? e.start = some kept ∧
        (policy = .reject ∨ policy = .keepFirst ∧ kept.kind ≠ e.kind)) ∧
      ∀ err, s.insert e = .error err → s.offer e = s ∧
        ∃ kept, s.get? e.start = some kept ∧
          err = .duplicateStart e.start kept.kind e.kind := by
  intro s
  have hpolicy : s.policy = policy := policy_offerAll _ history
  -- All points are about `settleAll`, applied to what was offered at one address.
  have hget (history : List Evidence) (x : Address) :
      ((empty policy).offerAll history).get? x = settleAll policy (history.filter (·.start = x)) :=
    get?_offerAll (empty policy) history x
  refine ⟨?_, ?_, ?_, ?_⟩
  · intro e he x
    rw [get?_eq_some_iff]
    exact ⟨fun h => h.2.symm, fun h => ⟨he, h.symm⟩⟩
  · rw [size_eq_card]
    congr 1
    ext x
    rw [List.mem_toFinset, List.mem_toFinset, mem_starts_iff, hget, isSome_settleAll_iff]
    simp [List.filter_eq_nil_iff]
  · intro x given
    have hx : s.get? x = settleAll policy given := hget history x
    refine ⟨?_, ?_⟩
    · intro other hother
      rw [hget, hother, hx]
    · rw [hx]
      cases policy with
      | replace => exact settleAll_replace given
      | reject => exact settleAll_reject given
      | keepFirst =>
        have hstart : ∀ e ∈ given, e.start = x := fun e he => by
          simpa using (List.mem_filter.1 he).2
        cases hgiven : given with
        | nil => rfl
        | cons first rest =>
          rw [hgiven, List.forall_mem_cons] at hstart
          exact exists_grownFrom_of_settleAll fun e he => (hstart.2 e he).trans hstart.1.symm
  · intro e
    refine ⟨?_, ?_⟩
    · rw [exists_insert_eq_error_iff, hpolicy]
    · intro err herr
      refine ⟨?_, insert_eq_error herr⟩
      rw [offer, herr]

/-- A marker grows twice.  It has no owner, so that the first larger entry gives it one, and the
entry of another kind is refused. -/
example :
    let marker : Evidence := .ofSymbol ⟨16, 0⟩ .text ⟨0⟩ ⟨"entry"⟩
    let owned (size : UInt64) (f : FunctionId) : Evidence :=
      .ofPcTable ⟨16, size⟩ ⟨1⟩ f ⟨"f", "p", "", none⟩
    let table : Evidence := .ofSymbol ⟨16, 64⟩ .data ⟨0⟩ ⟨"table"⟩
    ((empty .keepFirst).offerAll [marker, owned 8 ⟨3⟩, table, owned 4 ⟨5⟩, owned 32 ⟨7⟩]).entries =
      [{ marker with span := ⟨16, 32⟩, function := some ⟨3⟩ }] := by
  decide

end ByteCensus.Store
