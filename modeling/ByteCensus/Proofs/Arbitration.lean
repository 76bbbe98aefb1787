import ByteCensus.Session
import ByteCensus.Proofs.Store

/-!
# Arbitration is a linear scan of the symbol table

`Arbiter.rule` asks the frozen coverage.  What it decides can be said of the symbol table alone,
by the symbols that overlap the finding (`Store.overlapping`): without any the store of the
function decides, with data only the finding is shadowed, and else it is in conflict with the
first symbol, by start, that is no data.  `rule_refines_scan` puts this together.

An arbiter has its coverage from the symbols it holds, by its type, so nothing here depends on how
often the table was frozen and reopened.
-/

namespace ByteCensus

/-- A function written back as it was leaves the program as it was. -/
theorem Program.setFunction_self {p : Program} {id : FunctionId} {f : Program.Function}
    (hf : p.function? id = some f) :
    p.setFunction id f = p := by
  unfold setFunction
  have hself : p.functions.set id.index.toNat f = p.functions := by
    obtain ⟨hlt, rfl⟩ := List.getElem?_eq_some_iff.1 hf
    exact List.set_getElem_self hlt
  rw [hself]

namespace Arbiter

variable {a : Arbiter} {span : Span}

/-! ### The verdict -/

/-- The verdict of the coverage is one over the symbols that overlap. -/
theorem verdict_eq (a : Arbiter) (span : Span) :
    a.verdict span =
      ((a.ledger.symbols.overlapping span).find? (·.kind ≠ .data)).elim
        ((a.ledger.symbols.overlapping span).head?.map (·.kind)) (some ·.kind) := by
  unfold verdict
  rw [a.symbolCoverage_eq, Store.hits_coverage]
  dsimp only
  rw [List.map_map, List.find?_map, List.head?_map]
  have hkind : (Part.kind ∘ Evidence.part) = Evidence.kind := rfl
  have htest : ((fun kind => decide (kind ≠ ByteKind.data)) ∘ Evidence.kind) =
      fun e : Evidence => decide (e.kind ≠ .data) := rfl
  rw [hkind, htest]
  cases (a.ledger.symbols.overlapping span).find? (·.kind ≠ .data) <;> rfl

/-- Every symbol that overlaps is data if the search for another one fails. -/
theorem kind_eq_data_of_find? (hfind :
    (a.ledger.symbols.overlapping span).find? (fun e => e.kind ≠ .data) = none) :
    ∀ e ∈ a.ledger.symbols.overlapping span, e.kind = .data := by
  intro e he
  have := List.find?_eq_none.1 hfind e he
  simpa using this

/-- The coverage has no verdict iff no symbol overlaps. -/
theorem verdict_eq_none_iff :
    a.verdict span = none ↔ a.ledger.symbols.overlapping span = [] := by
  rw [verdict_eq]
  constructor
  · intro h
    cases hfind : (a.ledger.symbols.overlapping span).find? (·.kind ≠ .data) with
    | none =>
      rw [hfind] at h
      exact List.head?_eq_none_iff.1 (Option.map_eq_none_iff.1 h)
    | some e =>
      rw [hfind] at h
      cases h
  · intro h
    rw [h]
    rfl

theorem verdict_eq_data_iff :
    a.verdict span = some .data ↔
      a.ledger.symbols.overlapping span ≠ [] ∧
        ∀ e ∈ a.ledger.symbols.overlapping span, e.kind = .data := by
  rw [verdict_eq]
  cases hfind : (a.ledger.symbols.overlapping span).find? (·.kind ≠ .data) with
  | none =>
    -- Nothing but data overlaps, so the verdict is that of the first symbol, if there is one.
    have hdata := kind_eq_data_of_find? hfind
    constructor
    · intro h
      refine ⟨?_, hdata⟩
      intro hnil
      rw [hnil] at h
      cases h
    · rintro ⟨hne, -⟩
      obtain ⟨e, rest, hcons⟩ := List.exists_cons_of_ne_nil hne
      rw [hcons]
      have he : e ∈ a.ledger.symbols.overlapping span := hcons ▸ List.mem_cons_self
      exact congrArg some (hdata e he)
  | some e =>
    -- A symbol that is no data overrules all others.
    have hother : e.kind ≠ .data := by simpa using List.find?_some hfind
    constructor
    · intro h
      exact absurd (Option.some.inj h) hother
    · rintro ⟨-, hdata⟩
      exact absurd (hdata e (List.mem_of_find?_eq_some hfind)) hother

theorem verdict_eq_other_iff {kind : ByteKind} (hkind : kind ≠ .data) :
    a.verdict span = some kind ↔
      ∃ e ∈ a.ledger.symbols.overlapping span, e.kind = kind ∧
        ∀ e' ∈ a.ledger.symbols.overlapping span, e'.kind ≠ .data → e.start ≤ e'.start := by
  -- The symbols that overlap come in order of their starts, so the first hit is the lowest.
  have hlowest (e : Evidence) : _ ↔ _ :=
    Store.find?_eq_some_iff_lowest (p := fun e => e.kind ≠ .data) (e := e)
      (a.ledger.symbols.pairwise_overlapping span)
  simp only [decide_eq_true_eq] at hlowest
  rw [verdict_eq]
  constructor
  · intro h
    cases hfind : (a.ledger.symbols.overlapping span).find? (·.kind ≠ .data) with
    | none =>
      rw [hfind] at h
      obtain ⟨e, hhead, rfl⟩ := Option.map_eq_some_iff.1 h
      exact absurd (kind_eq_data_of_find? hfind e (List.mem_of_head? hhead)) hkind
    | some e =>
      rw [hfind] at h
      obtain rfl := Option.some.inj h
      obtain ⟨he, -, hle⟩ := (hlowest e).1 hfind
      exact ⟨e, he, rfl, hle⟩
  · rintro ⟨e, he, rfl, hle⟩
    rw [(hlowest e).2 ⟨he, hkind, hle⟩]
    rfl

/-! ### The ruling -/

variable {f g : Program.Function} {finding : Finding}

/-- Without a verdict the store of the function decides. -/
theorem rule_of_verdict_none (hverdict : a.verdict finding.span = none) :
    a.rule f finding =
      (f.findings.insert (.ofFinding finding.span f.package f.id finding.detail)).map
        fun (outcome, findings) => (.recorded outcome, { f with findings }) := by
  unfold rule
  rw [hverdict]
  dsimp only
  cases f.findings.insert (.ofFinding finding.span f.package f.id finding.detail) <;> rfl

theorem rule_of_verdict_data (hverdict : a.verdict finding.span = some .data) :
    a.rule f finding = .ok (.shadowed, f) := by
  unfold rule
  rw [hverdict]

theorem rule_of_verdict_other {kind : ByteKind} (hkind : kind ≠ .data)
    (hverdict : a.verdict finding.span = some kind) :
    a.rule f finding = .error (.conflict ⟨finding.span, kind, .data⟩) := by
  unfold rule
  rw [hverdict]
  cases kind with
  | data => exact absurd rfl hkind
  | _ => rfl

/-- All that a ruling can be.  A store refuses duplicates only. -/
theorem rule_cases (a : Arbiter) (f : Program.Function) (finding : Finding) :
    (∃ outcome findings, a.verdict finding.span = none ∧
      f.findings.insert (.ofFinding finding.span f.package f.id finding.detail) =
        .ok (outcome, findings) ∧
      a.rule f finding = .ok (.recorded outcome, { f with findings })) ∨
    (∃ kept, a.verdict finding.span = none ∧ f.findings.get? finding.span.start = some kept ∧
      a.rule f finding = .error (.duplicateStart finding.span.start kept.kind .data)) ∨
    (a.verdict finding.span = some .data ∧ a.rule f finding = .ok (.shadowed, f)) ∨
    ∃ kind ≠ ByteKind.data, a.verdict finding.span = some kind ∧
      a.rule f finding = .error (.conflict ⟨finding.span, kind, .data⟩) := by
  cases hverdict : a.verdict finding.span with
  | none =>
    have hrule := rule_of_verdict_none (f := f) hverdict
    cases hinsert :
        f.findings.insert (.ofFinding finding.span f.package f.id finding.detail) with
    | ok accepted =>
      left
      rw [hinsert] at hrule
      exact ⟨accepted.1, accepted.2, rfl, rfl, hrule⟩
    | error err =>
      right; left
      obtain ⟨kept, hkept, rfl⟩ := Store.insert_eq_error hinsert
      rw [hinsert] at hrule
      exact ⟨kept, rfl, hkept, hrule⟩
  | some kind =>
    right; right
    by_cases hkind : kind = .data
    · left
      rw [hkind] at hverdict ⊢
      exact ⟨rfl, rule_of_verdict_data hverdict⟩
    · right
      exact ⟨kind, hkind, rfl, rule_of_verdict_other hkind hverdict⟩

/-- A finding is ruled on, is in conflict, or is refused by the store. -/
theorem rule_outcome (a : Arbiter) (f : Program.Function) (finding : Finding) :
    (∃ ruling g, a.rule f finding = .ok (ruling, g)) ∨
    (∃ c, a.rule f finding = .error (.conflict c)) ∨
    ∃ start kept refused, a.rule f finding = .error (.duplicateStart start kept refused) := by
  obtain ⟨_, _, -, -, hrule⟩ | ⟨_, -, -, hrule⟩ | ⟨-, hrule⟩ | ⟨_, -, -, hrule⟩ :=
    rule_cases a f finding
  · exact .inl ⟨_, _, hrule⟩
  · exact .inr (.inr ⟨_, _, _, hrule⟩)
  · exact .inl ⟨_, _, hrule⟩
  · exact .inr (.inl ⟨_, hrule⟩)

theorem rule_eq_shadowed_iff :
    a.rule f finding = .ok (.shadowed, g) ↔ g = f ∧ a.verdict finding.span = some .data := by
  constructor
  · intro hruled
    obtain ⟨_, _, -, -, hrule⟩ | ⟨_, -, -, hrule⟩ | ⟨hverdict, hrule⟩ | ⟨_, -, -, hrule⟩ :=
      rule_cases a f finding
    all_goals
      rw [hrule] at hruled
      cases hruled
    exact ⟨rfl, hverdict⟩
  · rintro ⟨rfl, hverdict⟩
    exact rule_of_verdict_data hverdict

theorem rule_eq_conflict_iff {c : Conflict} :
    a.rule f finding = .error (.conflict c) ↔
      ∃ kind ≠ ByteKind.data, a.verdict finding.span = some kind ∧
        c = ⟨finding.span, kind, .data⟩ := by
  constructor
  · intro hruled
    obtain ⟨_, _, -, -, hrule⟩ | ⟨_, -, -, hrule⟩ | ⟨-, hrule⟩ | ⟨kind, hkind, hverdict, hrule⟩ :=
      rule_cases a f finding
    all_goals
      rw [hrule] at hruled
      cases hruled
    exact ⟨kind, hkind, hverdict, rfl⟩
  · rintro ⟨kind, hkind, hverdict, rfl⟩
    exact rule_of_verdict_other hkind hverdict

/-! ### Admission and conflict, by the parts of the coverage -/

/-- No symbol says anything about the bytes. -/
def Admits (a : Arbiter) (span : Span) : Prop :=
  ∀ q ∈ a.symbolCoverage.parts, ¬ span.Overlaps q.span

theorem admits_iff : a.Admits span ↔ a.verdict span = none := by
  rw [verdict_eq_none_iff, Store.overlapping, List.filter_eq_nil_iff]
  unfold Admits
  rw [a.symbolCoverage_eq]
  constructor
  · intro h e he hover
    rw [decide_eq_true_eq, Span.overlaps_comm] at hover
    exact h e.part (Store.mem_parts_coverage.2 ⟨e, he, rfl⟩) hover
  · intro h q hq hover
    obtain ⟨e, he, rfl⟩ := Store.mem_parts_coverage.1 hq
    exact h e he (decide_eq_true (Span.overlaps_comm.1 hover))

/-- The conflict of a finding with the first part of the symbol coverage that overlaps it and is no
data. -/
def conflict? (a : Arbiter) (finding : Finding) : Option Conflict :=
  (a.symbolCoverage.parts.toList.find? fun q =>
    q.kind ≠ .data ∧ q.span.Overlaps finding.span).map fun q => ⟨finding.span, q.kind, .data⟩

theorem conflict?_eq (a : Arbiter) (finding : Finding) :
    a.conflict? finding = ((a.ledger.symbols.overlapping finding.span).find? (·.kind ≠ .data)).map
      fun e => ⟨finding.span, e.kind, .data⟩ := by
  unfold conflict? Store.overlapping
  -- The parts of the coverage are those of the symbols, in the same order.
  rw [a.symbolCoverage_eq, Store.coverage, Coverage.toList_parts_ofParts, Store.sortParts_parts,
    Store.parts, List.find?_map, Option.map_map, List.find?_filter]
  congr 2
  funext e
  rw [Function.comp_apply, decide_eq_decide, decide_eq_true_eq, decide_eq_true_eq, and_comm]
  exact Iff.rfl

theorem conflict?_eq_some_iff {c : Conflict} :
    a.conflict? finding = some c ↔ a.rule f finding = .error (.conflict c) := by
  rw [rule_eq_conflict_iff, conflict?_eq, verdict_eq]
  cases hfind : (a.ledger.symbols.overlapping finding.span).find? (·.kind ≠ .data) with
  | none =>
    -- The verdict can only be data here, which is no conflict.
    have hdata := kind_eq_data_of_find? hfind
    constructor
    · intro h
      cases h
    · rintro ⟨kind, hkind, hhead, -⟩
      obtain ⟨e, he, rfl⟩ := Option.map_eq_some_iff.1 hhead
      exact absurd (hdata e (List.mem_of_head? he)) hkind
  | some e =>
    have hother : e.kind ≠ .data := by simpa using List.find?_some hfind
    constructor
    · intro h
      exact ⟨e.kind, hother, rfl, (Option.some.inj h).symm⟩
    · rintro ⟨kind, -, hkind, rfl⟩
      cases hkind
      rfl

/-- There is a conflict iff a part that is no data overlaps the finding. -/
theorem conflict?_isSome_iff {finding : Finding} :
    (a.conflict? finding).isSome ↔
      ∃ q ∈ a.symbolCoverage.parts, q.kind ≠ .data ∧ q.span.Overlaps finding.span := by
  unfold conflict?
  rw [Option.isSome_map, List.find?_isSome]
  simp only [Array.mem_toList_iff, decide_eq_true_eq]

/-- A ruling that records nothing returns the function as it was. -/
theorem eq_of_rule_of_not_recorded {ruling : Ruling}
    (hrule : a.rule f finding = .ok (ruling, g)) (hnot : ∀ outcome, ruling ≠ .recorded outcome) :
    g = f := by
  cases ruling with
  | recorded outcome => exact absurd rfl (hnot outcome)
  | shadowed => exact (rule_eq_shadowed_iff.1 hrule).1

/-- A finding is ruled on as long as the symbol table is frozen. -/
theorem attempt_finding {s : Session} {id : FunctionId} (hphase : s.phase = .arbitrating a) :
    s.attempt (.finding id finding) = (s.requireFunction id).bind fun f =>
      (Session.orRefuse (a.rule f finding)).map fun ruled =>
        (.ruling ruled.1, s.withProgram (s.run.program.setFunction id ruled.2)) := by
  have harbiter : s.requireArbiter = .ok a := by
    unfold Session.requireArbiter
    rw [hphase]
  unfold Session.attempt
  dsimp only
  rw [harbiter]
  rfl

/-- Only a ruling that records changes anything in a session. -/
theorem step_finding_of_not_recorded {s : Session} {id : FunctionId}
    (hphase : s.phase = .arbitrating a) (hf : s.run.program.function? id = some f)
    (hnot : ∀ outcome g, a.rule f finding ≠ .ok (.recorded outcome, g)) :
    (s.step (.finding id finding)).2 = s := by
  unfold Session.step
  rw [attempt_finding hphase, Session.requireFunction, hf]
  cases hrule : a.rule f finding with
  | error err =>
    dsimp only [Except.bind]
    rw [hrule]
    rfl
  | ok ruled =>
    obtain ⟨ruling, g⟩ := ruled
    -- The finding was shadowed, and the function is written back as it was.
    have hg : g = f := eq_of_rule_of_not_recorded hrule fun outcome h => hnot outcome g (h ▸ hrule)
    dsimp only [Except.bind]
    rw [hrule, hg]
    show s.withProgram (s.run.program.setFunction id f) = s
    rw [Program.setFunction_self hf]
    rfl

/-! ### The scan -/

/-- **Arbitration refines a linear scan of the symbol table.**  Whatever the arbiter, the function
and the finding, with the symbols that overlap the finding at hand:

* the finding is shadowed exactly if there are some and all are data;
* it is in conflict exactly if one of them is no data, and then with the one of these that starts
  lowest;
* without any the answer and the new store are those of adding the finding to the store;
* a session in which the finding is not recorded is left as it was. -/
theorem rule_refines_scan (a : Arbiter) (f : Program.Function) (finding : Finding) :
    let scan := a.ledger.symbols.overlapping finding.span
    (∀ g, a.rule f finding = .ok (.shadowed, g) ↔
      g = f ∧ scan ≠ [] ∧ ∀ e ∈ scan, e.kind = .data) ∧
    ((∃ c, a.rule f finding = .error (.conflict c)) ↔ ∃ e ∈ scan, e.kind ≠ .data) ∧
    (∀ c, a.rule f finding = .error (.conflict c) ↔
      ∃ e ∈ scan, e.kind ≠ .data ∧ (∀ e' ∈ scan, e'.kind ≠ .data → e.start ≤ e'.start) ∧
        c = ⟨finding.span, e.kind, .data⟩) ∧
    (scan = [] → a.rule f finding =
      (f.findings.insert (.ofFinding finding.span f.package f.id finding.detail)).map
        fun (outcome, findings) => (.recorded outcome, { f with findings })) ∧
    ∀ (s : Session) (id : FunctionId),
      s.phase = .arbitrating a → s.run.program.function? id = some f →
      (∀ outcome g, a.rule f finding ≠ .ok (.recorded outcome, g)) →
      (s.step (.finding id finding)).2 = s := by
  intro scan
  have hconflict (c : Conflict) : a.rule f finding = .error (.conflict c) ↔
      ∃ e ∈ scan, e.kind ≠ .data ∧ (∀ e' ∈ scan, e'.kind ≠ .data → e.start ≤ e'.start) ∧
        c = ⟨finding.span, e.kind, .data⟩ := by
    rw [rule_eq_conflict_iff]
    constructor
    · rintro ⟨kind, hkind, hverdict, rfl⟩
      obtain ⟨e, he, rfl, hle⟩ := (verdict_eq_other_iff hkind).1 hverdict
      exact ⟨e, he, hkind, hle, rfl⟩
    · rintro ⟨e, he, hkind, hle, rfl⟩
      exact ⟨e.kind, hkind, (verdict_eq_other_iff hkind).2 ⟨e, he, rfl, hle⟩, rfl⟩
  refine ⟨?_, ?_, hconflict, ?_, ?_⟩
  · intro g
    rw [rule_eq_shadowed_iff, verdict_eq_data_iff]
  · have hlowest := Store.exists_lowest_iff (p := fun e => e.kind ≠ .data)
      (a.ledger.symbols.pairwise_overlapping finding.span)
    simp only [decide_eq_true_eq] at hlowest
    rw [← hlowest]
    constructor
    · rintro ⟨c, hc⟩
      obtain ⟨e, he, hkind, hle, -⟩ := (hconflict c).1 hc
      exact ⟨e, he, hkind, hle⟩
    · rintro ⟨e, he, hkind, hle⟩
      exact ⟨_, (hconflict _).2 ⟨e, he, hkind, hle, rfl⟩⟩
  · intro hnil
    exact rule_of_verdict_none (verdict_eq_none_iff.2 hnil)
  · intro s id hphase hf hnot
    exact step_finding_of_not_recorded hphase hf hnot

end Arbiter

end ByteCensus
