import ByteCensus.Proofs.Arbitration
import ByteCensus.Proofs.Coverage.Sweep
import Mathlib.Data.List.Permutation

/-!
# The order of symbols

A store that keeps older entries may be given the same entries in any order.  Which one of those
with the same start it was given first shows in what became of the others and in the details that
it keeps, but not in its parts: of the parts given at one address it has the largest, and an entry
of another kind there would have been refused, in whatever order it came.

`Store.Gathered` says what such a store knows of the parts that it was given.  That alone determines
its parts (`Gathered.mem_parts_iff`), and whether it would accept more of them
(`Gathered.exists_insertAll`); neither depends on an order.  A coverage of the parts does not even
depend on the order in which they are listed (`Store.coverage_eq_of_perm`).

`Ledger.freeze_ignores_symbol_order` says what this means for the symbol table.
-/

namespace ByteCensus

/-! ### Entries one after the other -/

namespace Store

variable {s s' : Store} {e : Evidence} {p : Part} {given more : List Part}

/-- The store after all of the entries were inserted, in order; an error if one is refused. -/
def insertAll (s : Store) : List Evidence → Except Error Store
  | [] => .ok s
  | e :: rest => do
    let (_, s) ← s.insert e
    s.insertAll rest

/-- Parts with the same start have the same kind. -/
def Agree (parts : List Part) : Prop :=
  ∀ p ∈ parts, ∀ q ∈ parts, p.span.start = q.span.start → p.kind = q.kind

theorem Agree.subset (h : Agree more) (hsub : given ⊆ more) : Agree given :=
  fun p hp q hq => h p (hsub hp) q (hsub hq)

/-- The store keeps older entries, and was given exactly these parts. -/
structure Gathered (s : Store) (given : List Part) : Prop where
  policy_eq : s.policy = .keepFirst
  keeps : ∀ p ∈ given, s.Keeps p
  backed : ∀ e ∈ s.entries, e.part ∈ given

namespace Gathered

theorem empty : (Store.empty .keepFirst).Gathered [] :=
  ⟨rfl, List.forall_mem_nil _, List.forall_mem_nil _⟩

theorem policy_ne (h : s.Gathered given) : s.policy ≠ .reject := by
  rw [h.policy_eq]
  exact DuplicatePolicy.noConfusion

theorem insert {outcome : InsertOutcome} (h : s.Gathered given)
    (hinsert : s.insert e = .ok (outcome, s')) : s'.Gathered (given ++ [e.part]) := by
  refine ⟨?_, ?_, ?_⟩
  · exact (policy_of_insert hinsert).trans h.policy_eq
  · rw [List.forall_mem_append, List.forall_mem_singleton]
    exact ⟨fun p hp => (h.keeps p hp).insert h.policy_eq hinsert, keeps_of_insert hinsert⟩
  · have hold : ∀ x ∈ s.entries, x.part ∈ given ++ [e.part] :=
      fun x hx => List.mem_append_left _ (h.backed x hx)
    have hnew : e.part ∈ given ++ [e.part] := List.mem_append_right _ (List.mem_singleton_self _)
    obtain ⟨-, -, rfl⟩ | ⟨kept, -, ⟨-, -, rfl⟩ | ⟨-, hkind, ⟨-, -, rfl⟩ | ⟨-, -, rfl⟩⟩⟩ :=
      insert_eq_ok hinsert
    · exact forall_mem_put hold hnew
    · exact forall_mem_put hold hnew
    · exact hold
    · -- The widened entry has the span of the new one, and had its kind before.
      have hwidened : (widen kept e).part = e.part := by
        show Part.mk e.span kept.kind = ⟨e.span, e.kind⟩
        rw [hkind]
      exact forall_mem_put hold (hwidened ▸ hnew)

theorem insertAll {entries : List Evidence} (h : s.Gathered given)
    (hinsert : s.insertAll entries = .ok s') :
    s'.Gathered (given ++ entries.map Evidence.part) := by
  induction entries generalizing s given with
  | nil =>
    obtain rfl := Except.ok.inj hinsert
    rwa [List.map_nil, List.append_nil]
  | cons e rest ih =>
    rw [Store.insertAll] at hinsert
    cases hfirst : s.insert e with
    | error err =>
      rw [hfirst] at hinsert
      cases hinsert
    | ok accepted =>
      rw [hfirst] at hinsert
      rw [List.map_cons, List.append_cons]
      exact ih (h.insert hfirst) hinsert

/-- Of the parts given at one address the store has the largest. -/
theorem mem_parts_iff (h : s.Gathered given) :
    p ∈ s.parts ↔
      p ∈ given ∧ ∀ q ∈ given, q.span.start = p.span.start → q.span.size ≤ p.span.size := by
  unfold parts
  rw [List.mem_map]
  constructor
  · rintro ⟨e, he, rfl⟩
    refine ⟨h.backed e he, ?_⟩
    intro q hq hstart
    -- The entry that keeps `q` has the start of `e`, so it is `e`.
    obtain ⟨e', he', -, hsize⟩ := h.keeps q hq
    have hfound : s.get? q.span.start = some e := get?_eq_some_iff.2 ⟨he, hstart.symm⟩
    obtain rfl : e' = e := Option.some.inj (he'.symm.trans hfound)
    exact hsize
  · rintro ⟨hp, hlargest⟩
    obtain ⟨e, he, hkind, hsize⟩ := h.keeps p hp
    obtain ⟨hmem, hstart⟩ := get?_eq_some_iff.1 he
    -- The entry at this start is at least as large as `p`, and it was given as well.
    have hsame : e.span.size = p.span.size :=
      UInt64.le_antisymm (hlargest e.part (h.backed e hmem) hstart) hsize
    have hspan : e.span = p.span := congrArg₂ Span.mk hstart hsame
    exact ⟨e, hmem, by rw [Evidence.part, hspan, hkind]⟩

/-- What was accepted agrees. -/
theorem agree (h : s.Gathered given) : Agree given := by
  intro p hp q hq hstart
  obtain ⟨e, he, hkind, -⟩ := h.keeps p hp
  obtain ⟨e', he', hkind', -⟩ := h.keeps q hq
  rw [hstart, he'] at he
  obtain rfl := Option.some.inj he
  exact hkind.symm.trans hkind'

/-- What agrees is accepted. -/
theorem exists_insertAll {entries : List Evidence} (h : s.Gathered given)
    (hagree : Agree (given ++ entries.map Evidence.part)) :
    ∃ s', s.insertAll entries = .ok s' := by
  induction entries generalizing s given with
  | nil => exact ⟨s, rfl⟩
  | cons e rest ih =>
    rw [List.map_cons, List.append_cons] at hagree
    -- The entry that is met was given before, and agrees with this one.
    have hkind : ∀ kept, s.get? e.start = some kept → kept.kind = e.kind := by
      intro kept hkept
      obtain ⟨hmem, hstart⟩ := get?_eq_some_iff.1 hkept
      have hgiven : kept.part ∈ given := h.backed kept hmem
      exact hagree kept.part (by simp [hgiven]) e.part (by simp) hstart
    obtain ⟨outcome, s₁, hfirst⟩ := exists_insert_eq_ok_of_kind h.policy_ne hkind
    rw [Store.insertAll, hfirst]
    exact ih (h.insert hfirst) hagree

end Gathered

/-! ### The parts of a store -/

theorem pairwise_parts (s : Store) : s.parts.Pairwise fun p q => p.span.start < q.span.start := by
  unfold parts
  rw [List.pairwise_map]
  exact s.ascending

theorem nodup_parts (s : Store) : s.parts.Nodup := by
  apply s.pairwise_parts.imp
  rintro p _ hlt rfl
  exact UInt64.lt_irrefl _ hlt

/-- A store has one part at an address. -/
theorem eq_of_start_eq {q : Part} (hp : p ∈ s.parts) (hq : q ∈ s.parts)
    (hstart : p.span.start = q.span.start) : p = q := by
  obtain ⟨e, he, rfl⟩ := List.mem_map.1 hp
  obtain ⟨e', he', rfl⟩ := List.mem_map.1 hq
  have hfound : s.get? e.start = some e := get?_eq_some_iff.2 ⟨he, rfl⟩
  have hfound' : s.get? e.start = some e' := get?_eq_some_iff.2 ⟨he', hstart.symm⟩
  rw [Option.some.inj (hfound.symm.trans hfound')]

theorem parts_eq_of_mem_iff (h : ∀ p, p ∈ s.parts ↔ p ∈ s'.parts) : s.parts = s'.parts := by
  have hperm : s.parts.Perm s'.parts :=
    (List.perm_ext_iff_of_nodup s.nodup_parts s'.nodup_parts).2 h
  refine hperm.eq_of_pairwise ?_ s.pairwise_parts s'.pairwise_parts
  intro p q _ _ hlt hgt
  exact absurd (UInt64.lt_trans hlt hgt) (UInt64.lt_irrefl _)

/-- Stores that were given the same parts have the same coverage. -/
theorem Gathered.coverage_eq (h : s.Gathered given) (h' : s'.Gathered more)
    (hsame : ∀ p, p ∈ given ↔ p ∈ more) : s'.coverage = s.coverage := by
  unfold coverage
  congr 1
  apply parts_eq_of_mem_iff
  intro p
  rw [h.mem_parts_iff, h'.mem_parts_iff]
  simp only [hsame]

/-- The parts of a store have one coverage, in whatever order they are listed. -/
theorem coverage_eq_of_perm {snapshot : List Part} (hperm : snapshot.Perm s.parts) :
    Coverage.ofParts snapshot = s.coverage := by
  have hsorted : Coverage.sortParts snapshot = Coverage.sortParts s.parts := by
    have hsame : (Coverage.sortParts snapshot).Perm s.parts :=
      (Coverage.sortParts_perm snapshot).trans hperm
    have hordered : s.parts.Pairwise Part.ListedBefore := s.pairwise_parts.imp .inl
    rw [sortParts_parts]
    refine hsame.eq_of_pairwise ?_ (Coverage.pairwise_sortParts snapshot) hordered
    -- Parts that are listed before each other start at the same address, where there is only one.
    intro p q hp hq hpq hqp
    have hstart : p.span.start = q.span.start := by
      simp only [Part.ListedBefore, UInt64.lt_iff_toNat_lt, ← UInt64.toNat_inj] at hpq hqp ⊢
      omega
    exact eq_of_start_eq (hsame.mem_iff.1 hp) hq hstart
  unfold coverage Coverage.ofParts
  rw [hsorted]

end Store

/-! ### Symbols one after the other -/

/-- A symbol of the symbol table. -/
structure Symbol where
  span : Span
  kind : ByteKind
  package : PackageId
  detail : SymbolDetail
deriving DecidableEq, Repr

/-- What a ledger records of a symbol. -/
def Symbol.evidence (s : Symbol) : Evidence := .ofSymbol s.span s.kind s.package s.detail

namespace Ledger

/-- The ledger after all of the symbols were recorded, in order; an error if one is refused. -/
def recordSymbols (l : Ledger) : List Symbol → Except Error Ledger
  | [] => .ok l
  | s :: rest => do
    let (_, l) ← l.recordSymbol s.span s.kind s.package s.detail
    l.recordSymbols rest

theorem recordSymbols_eq (l : Ledger) (symbols : List Symbol) :
    l.recordSymbols symbols = (l.symbols.insertAll (symbols.map Symbol.evidence)).map
      fun symbols => { l with symbols } := by
  induction symbols generalizing l with
  | nil => rfl
  | cons s rest ih =>
    rw [recordSymbols, recordSymbol, List.map_cons, Store.insertAll, Symbol.evidence]
    cases l.symbols.insert (.ofSymbol s.span s.kind s.package s.detail) with
    | error e => rfl
    | ok accepted => exact ih { l with symbols := accepted.2 }

/-- What was recorded in an empty symbol table. -/
theorem gathered_of_recordSymbols {l l' : Ledger} {symbols : List Symbol}
    (hempty : l.symbols = .empty .keepFirst) (hok : l.recordSymbols symbols = .ok l') :
    l'.symbols.Gathered (symbols.map fun s => s.evidence.part) := by
  rw [recordSymbols_eq, hempty] at hok
  cases hinsert : (Store.empty .keepFirst).insertAll (symbols.map Symbol.evidence) with
  | error err =>
    rw [hinsert] at hok
    cases hok
  | ok store =>
    rw [hinsert] at hok
    obtain rfl := Except.ok.inj hok
    have hgathered := Store.Gathered.empty.insertAll hinsert
    rwa [List.nil_append, List.map_map] at hgathered

/-- Symbols that agree can be recorded in an empty symbol table. -/
theorem exists_recordSymbols {l : Ledger} {symbols : List Symbol}
    (hempty : l.symbols = .empty .keepFirst)
    (hagree : Store.Agree (symbols.map fun s => s.evidence.part)) :
    ∃ l', l.recordSymbols symbols = .ok l' := by
  have hagree' : Store.Agree ([] ++ (symbols.map Symbol.evidence).map Evidence.part) := by
    rwa [List.nil_append, List.map_map]
  obtain ⟨store, hinsert⟩ := Store.Gathered.empty.exists_insertAll hagree'
  rw [recordSymbols_eq, hempty, hinsert]
  exact ⟨_, rfl⟩

end Ledger

/-- Rulings read nothing of an arbiter but its coverage. -/
theorem Arbiter.rule_congr {a a' : Arbiter} (h : a'.symbolCoverage = a.symbolCoverage) :
    a'.rule = a.rule := by
  funext f finding
  unfold rule verdict
  rw [h]

namespace Ledger

/-- **The frozen coverage does not depend on the order of the symbols.**  If symbols can be recorded
in an empty symbol table that keeps older entries, then they can in any other order.  Frozen, the
two symbol tables have the same coverage, in whatever order their entries are listed for it; so
they answer alike what is asked of them, and rule alike on every finding. -/
theorem freeze_ignores_symbol_order (l l' : Ledger) (symbols reordered : List Symbol)
    (hempty : l.symbols = .empty .keepFirst) (hok : l.recordSymbols symbols = .ok l')
    (hperm : symbols.Perm reordered) :
    ∃ l'', l.recordSymbols reordered = .ok l'' ∧
      l''.freeze.symbolCoverage = l'.freeze.symbolCoverage ∧
      (∀ snapshot : List Part, snapshot.Perm l''.symbols.parts →
        Coverage.ofParts snapshot = l'.freeze.symbolCoverage) ∧
      (∀ span, l''.freeze.symbolKind? span = l'.freeze.symbolKind? span) ∧
      (∀ span, l''.freeze.symbolCoverage.hits span = l'.freeze.symbolCoverage.hits span) ∧
      ∀ f finding, l''.freeze.rule f finding = l'.freeze.rule f finding := by
  have hgathered := gathered_of_recordSymbols hempty hok
  have hparts := hperm.map fun s => s.evidence.part
  obtain ⟨l'', hok'⟩ := exists_recordSymbols hempty (hgathered.agree.subset hparts.symm.subset)
  have hgathered' := gathered_of_recordSymbols hempty hok'
  have hcoverage : l''.freeze.symbolCoverage = l'.freeze.symbolCoverage :=
    hgathered.coverage_eq hgathered' fun p => hparts.mem_iff
  refine ⟨l'', hok', hcoverage, ?_, ?_, ?_, ?_⟩
  · intro snapshot hsnapshot
    exact (Store.coverage_eq_of_perm hsnapshot).trans hcoverage
  · intro span
    unfold Arbiter.symbolKind?
    rw [hcoverage]
  · intro span
    rw [hcoverage]
  · intro f finding
    rw [Arbiter.rule_congr hcoverage]

/-- Code at one address is widened in one order and kept in the other, next to a marker of data that
it overlaps. -/
theorem freeze_ignores_symbol_order_of_widened :
    let l := Ledger.empty default
    let small : Symbol := ⟨⟨16, 8⟩, .text, ⟨0⟩, ⟨"entry"⟩⟩
    let large : Symbol := ⟨⟨16, 24⟩, .text, ⟨1⟩, ⟨"body"⟩⟩
    let marker : Symbol := ⟨⟨20, 0⟩, .data, ⟨0⟩, ⟨"table"⟩⟩
    let coverage : Coverage :=
      ⟨#[⟨⟨16, 24⟩, .text⟩, ⟨⟨20, 0⟩, .data⟩], .crowded #[0, 0]⟩
    l.symbols = .empty .keepFirst ∧
      [small, marker, large].Perm [large, small, marker] ∧
      (∃ l', l.recordSymbols [small, marker, large] = .ok l' ∧
        l'.freeze.symbolCoverage = coverage) ∧
      ∃ l'', l.recordSymbols [large, small, marker] = .ok l'' ∧
        l''.freeze.symbolCoverage = coverage := by
  intro l small large marker coverage
  have hempty : l.symbols = .empty .keepFirst := rfl
  have hperm : [small, marker, large].Perm [large, small, marker] := by decide
  have hok : (l.recordSymbols [small, marker, large]).map (·.freeze.symbolCoverage) =
      .ok coverage := by cbv
  obtain ⟨l', hl', hcoverage⟩ := Coverage.exists_of_map_eq_ok hok
  obtain ⟨l'', hl'', hsame, -⟩ := freeze_ignores_symbol_order l l' _ _ hempty hl' hperm
  exact ⟨hempty, hperm, ⟨l', hl', hcoverage⟩, l'', hl'', hsame.trans hcoverage⟩

end Ledger

end ByteCensus
