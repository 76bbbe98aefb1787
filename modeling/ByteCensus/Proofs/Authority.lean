import ByteCensus.Proofs.Coverage.Occupied
import ByteCensus.Proofs.Findings

/-!
# Authoritative evidence

`Arbiter.authoritative` lists the evidence behind the final coverage: the pc-table, the symbols and
the findings of all functions.  The final coverage is a merge, so what is known of merges can be
said of this evidence (`exists_disagreement_of_error`).

Two invariants of a session tell what can disagree.  Each store holds what its own decoder reported
(`Ledger.Sourced`).  And each finding was admitted by the arbiter that rules now, so that it is data
and apart from all symbols (`Session.Admitted`): before the symbol table is frozen no function has
findings, and afterwards the symbols stay as they are.

`coverage_error_is_disagreement`: the final coverage fails only where two pieces of evidence really
disagree, and these are never a symbol and a finding.
-/

namespace ByteCensus

/-! ### The evidence behind the final coverage -/

namespace Arbiter

variable {a : Arbiter} {p : Program}

/-- All evidence that counts. -/
def authoritative (a : Arbiter) (p : Program) : List Evidence :=
  a.ledger.pcTable.entries ++ a.ledger.symbols.entries ++
    p.functions.flatMap (·.findings.entries)

/-- The coverages that the final one is merged from. -/
def sources (a : Arbiter) (p : Program) : List Coverage :=
  a.ledger.pcTable.coverage :: a.symbolCoverage ::
    ((p.functions.map (·.findings)).filter (!·.isEmpty)).map Store.coverage

theorem authoritativeCoverage_eq (a : Arbiter) (p : Program) :
    a.authoritativeCoverage p = Coverage.merge (a.sources p) := rfl

theorem mem_authoritative {e : Evidence} :
    e ∈ a.authoritative p ↔ e ∈ a.ledger.pcTable.entries ∨ e ∈ a.ledger.symbols.entries ∨
      ∃ f ∈ p.functions, e ∈ f.findings.entries := by
  simp [authoritative]

/-- The parts that are merged are those of the evidence that counts. -/
theorem mem_allParts_sources {q : Part} :
    q ∈ Coverage.allParts (a.sources p) ↔ ∃ e ∈ a.authoritative p, e.part = q := by
  have hfindings : (∃ c ∈ ((p.functions.map (·.findings)).filter (!·.isEmpty)).map Store.coverage,
      q ∈ c.parts) ↔ ∃ f ∈ p.functions, ∃ e ∈ f.findings.entries, e.part = q := by
    constructor
    · rintro ⟨c, hc, hq⟩
      obtain ⟨s, hs, rfl⟩ := List.mem_map.1 hc
      obtain ⟨f, hf, rfl⟩ := List.mem_map.1 (List.mem_of_mem_filter hs)
      exact ⟨f, hf, Store.mem_parts_coverage.1 hq⟩
    · rintro ⟨f, hf, e, he, rfl⟩
      -- A store with an entry is not left out.
      have hfull : (!f.findings.isEmpty) = true := by
        rw [Store.isEmpty, Bool.not_eq_true', List.isEmpty_eq_false_iff]
        exact List.ne_nil_of_mem he
      have hs : f.findings ∈ (p.functions.map (·.findings)).filter (!·.isEmpty) :=
        List.mem_filter.2 ⟨List.mem_map.2 ⟨f, hf, rfl⟩, hfull⟩
      exact ⟨_, List.mem_map.2 ⟨_, hs, rfl⟩, Store.mem_parts_coverage.2 ⟨e, he, rfl⟩⟩
  rw [Coverage.mem_allParts, sources, List.exists_mem_cons_iff, List.exists_mem_cons_iff,
    hfindings, a.symbolCoverage_eq, Store.mem_parts_coverage, Store.mem_parts_coverage]
  simp only [mem_authoritative]
  constructor
  · rintro (⟨e, he, rfl⟩ | ⟨e, he, rfl⟩ | ⟨f, hf, e, he, rfl⟩)
    · exact ⟨e, .inl he, rfl⟩
    · exact ⟨e, .inr (.inl he), rfl⟩
    · exact ⟨e, .inr (.inr ⟨f, hf, he⟩), rfl⟩
  · rintro ⟨e, he | he | ⟨f, hf, he⟩, rfl⟩
    · exact .inl ⟨e, he, rfl⟩
    · exact .inr (.inl ⟨e, he, rfl⟩)
    · exact .inr (.inr ⟨f, hf, e, he, rfl⟩)

/-- What the final coverage says of an address is what some evidence says that is no absorbed
marker. -/
theorem mem_authoritativeCoverage_iff {c : Coverage} (hok : a.authoritativeCoverage p = .ok c)
    (kind : ByteKind) (x : Address) :
    (∃ q ∈ c.parts, q.kind = kind ∧ x ∈ q.span) ↔
      ∃ e ∈ a.authoritative p, e.kind = kind ∧ x ∈ e.span ∧
        ¬ Coverage.Absorbed (Coverage.allParts (a.sources p)) e.part := by
  rw [authoritativeCoverage_eq] at hok
  rw [Coverage.mem_merge_iff Coverage.sortsByPlace_sortByPlace hok]
  constructor
  · rintro ⟨q, hq, hkind, hx, hnot⟩
    obtain ⟨e, he, rfl⟩ := mem_allParts_sources.1 hq
    exact ⟨e, he, hkind, hx, hnot⟩
  · rintro ⟨e, he, hkind, hx, hnot⟩
    exact ⟨e.part, mem_allParts_sources.2 ⟨e, he, rfl⟩, hkind, hx, hnot⟩

/-- A final coverage that fails names two pieces of evidence that disagree. -/
theorem exists_disagreement_of_error {err : Error}
    (herr : a.authoritativeCoverage p = .error err) :
    ∃ e ∈ a.authoritative p, ∃ e' ∈ a.authoritative p, e'.kind ≠ e.kind ∧
      e'.span.Overlaps e.span ∧ err = .coverageConflict e.span e'.kind e.kind := by
  rw [authoritativeCoverage_eq] at herr
  have hsort := Coverage.sortsByPlace_sortByPlace
  -- The clash is between two of the sorted parts, and each of those is that of some evidence.
  obtain ⟨r, q, hsub, ⟨hkind, hover, -⟩, rfl⟩ := Coverage.exists_clash_of_merge_error hsort herr
  obtain ⟨hr, hq⟩ := hsort.mem_of_sublist hsub
  obtain ⟨e', he', rfl⟩ := mem_allParts_sources.1 hr
  obtain ⟨e, he, rfl⟩ := mem_allParts_sources.1 hq
  exact ⟨e, he, e', he', hkind, hover, rfl⟩

end Arbiter

/-! ### Each store holds the evidence of its own decoder -/

namespace Ledger

variable {l l' : Ledger}

structure Sourced (l : Ledger) : Prop where
  pcTable : ∀ e ∈ l.pcTable.entries, e.source = .pcTable
  symbols : ∀ e ∈ l.symbols.entries, e.source = .symbol
  debugInfo : ∀ e ∈ l.debugInfo.entries, e.source = .debugInfo

theorem sourced_empty (policies : SpacePolicies) : (empty policies).Sourced := by
  constructor <;> exact fun e he => absurd he List.not_mem_nil

/-- Widening an entry leaves it to the decoder that reported it first. -/
theorem source_of_insert {s s' : Store} {e : Evidence} {source : Source}
    {outcome : InsertOutcome} (h : s.insert e = .ok (outcome, s'))
    (hs : ∀ x ∈ s.entries, x.source = source) (he : e.source = source) :
    ∀ x ∈ s'.entries, x.source = source :=
  Store.forall_mem_insert h hs he fun _ hkept => hkept

theorem Sourced.recordPcTable (hl : l.Sourced) {span : Span} {f : Program.Function}
    {detail : PcTableDetail} {outcome : InsertOutcome}
    (h : l.recordPcTable span f detail = .ok (outcome, l')) : l'.Sourced := by
  obtain ⟨_, hinsert, rfl⟩ := insert_of_recordPcTable h
  exact ⟨source_of_insert hinsert hl.pcTable rfl, hl.symbols, hl.debugInfo⟩

theorem Sourced.recordSymbol (hl : l.Sourced) {span : Span} {kind : ByteKind}
    {package : PackageId} {detail : SymbolDetail} {handle : SymbolHandle}
    (h : l.recordSymbol span kind package detail = .ok (handle, l')) : l'.Sourced := by
  obtain ⟨_, _, hinsert, -, rfl⟩ := insert_of_recordSymbol h
  exact ⟨hl.pcTable, source_of_insert hinsert hl.symbols rfl, hl.debugInfo⟩

theorem Sourced.recordDebugInfo (hl : l.Sourced) {span : Span} {kind : ByteKind}
    {package : PackageId} {detail : DebugInfoDetail} {outcome : InsertOutcome}
    (h : l.recordDebugInfo span kind package detail = .ok (outcome, l')) : l'.Sourced := by
  obtain ⟨_, hinsert, rfl⟩ := insert_of_recordDebugInfo h
  exact ⟨hl.pcTable, hl.symbols, source_of_insert hinsert hl.debugInfo rfl⟩

theorem Sourced.attach (hl : l.Sourced) {symbol : SymbolHandle} {function : FunctionId}
    (h : l.attach symbol function = .ok l') : l'.Sourced := by
  obtain ⟨e, hget, rfl⟩ := attach_eq_ok_iff.1 h
  have hsource := hl.symbols e (Store.get?_eq_some_iff.1 hget).1
  exact ⟨hl.pcTable, Store.forall_mem_put hl.symbols hsource, hl.debugInfo⟩

end Ledger

/-! ### Sessions -/

namespace Session

variable {s t : Session} {what : Step} {a : Arbiter} {l : Ledger}

/-- No step puts evidence into the store of another decoder. -/
theorem Effect.sourced (h : Effect s what t) (hs : s.phase.ledger.Sourced) :
    t.phase.ledger.Sourced := by
  cases h with
  | pcTable hphase _ h =>
    rw [hphase] at hs
    exact hs.recordPcTable h
  | latePcTable hphase _ h =>
    rw [hphase] at hs
    exact hs.recordPcTable (Arbiter.ledger_of_recordPcTable h)
  | symbol hphase h =>
    rw [hphase] at hs
    exact hs.recordSymbol h
  | attach hphase _ h =>
    rw [hphase] at hs
    exact hs.attach h
  | debugInfo hphase h =>
    rw [hphase] at hs
    exact hs.recordDebugInfo h
  | lateDebugInfo hphase h =>
    rw [hphase] at hs
    exact hs.recordDebugInfo (Arbiter.ledger_of_recordDebugInfo h)
  | freeze hphase =>
    rw [hphase] at hs
    exact hs
  | reopen hphase =>
    rw [hphase] at hs
    exact hs
  | reset policies => cases policies <;> exact Ledger.sourced_empty _
  | _ => exact hs

/-- Each finding was admitted by the arbiter that rules now. -/
def Admitted (s : Session) : Prop :=
  ∀ f ∈ s.run.program.functions, ∀ e ∈ f.findings.entries,
    ∃ a, s.phase = .arbitrating a ∧ IsFinding a.symbolCoverage f e

/-- As long as the evidence is being collected, no finding is stored. -/
theorem Effect.no_findings (h : Effect s what t) (hphase : s.phase = .collecting l)
    (hs : ∀ f ∈ s.run.program.functions, f.findings.entries = []) :
    ∀ f ∈ t.run.program.functions, f.findings.entries = [] := by
  have hnot {a : Arbiter} : s.phase ≠ .arbitrating a := by
    rw [hphase]
    intro h
    cases h
  cases h with
  | package name =>
    show ∀ f ∈ (s.run.program.addPackage name).2.functions, _
    rw [Program.functions_addPackage]
    exact hs
  | function hadd => exact Program.forall_functions_addFunction hadd hs rfl
  | newProgram policy =>
    intro f hf
    cases hf
  | finding harbitrating => exact absurd harbitrating hnot
  | ingest b config harbitrating => exact absurd harbitrating hnot
  | _ => exact hs

/-- As long as the symbol table stays frozen, each finding stays admitted. -/
theorem Effect.admitted (h : Effect s what t) (hstays : what.staysFrozen) (hs : s.Admitted) :
    t.Admitted := by
  cases hphase : s.phase with
  | collecting l =>
    -- Before the table is frozen no arbiter can have admitted anything.
    have hnone : ∀ f ∈ s.run.program.functions, f.findings.entries = [] := by
      intro f hf
      apply List.eq_nil_iff_forall_not_mem.2
      intro e he
      obtain ⟨a, harbitrating, -⟩ := hs f hf e he
      rw [hphase] at harbitrating
      cases harbitrating
    intro f hf e he
    rw [h.no_findings hphase hnone f hf] at he
    cases he
  | arbitrating a =>
    have hholds : ∀ f ∈ s.run.program.functions, HoldsFindings a.symbolCoverage f := by
      intro f hf e he
      obtain ⟨a', harbitrating, hfinding⟩ := hs f hf e he
      obtain rfl := Phase.arbitrating.inj (hphase.symm.trans harbitrating)
      exact hfinding
    obtain ⟨a', hphase', hsymbols⟩ := h.phase_of_staysFrozen hstays hphase
    -- The next arbiter has the same symbols, so it admits the same.
    have hcoverage : a'.symbolCoverage = a.symbolCoverage := by
      rw [a'.symbolCoverage_eq, a.symbolCoverage_eq, hsymbols]
    intro f hf e he
    refine ⟨a', hphase', ?_⟩
    rw [hcoverage]
    exact h.holdsFindings hphase hholds f hf e he

/-! ### Disagreements -/

/-- Where a piece of evidence comes from, and what that says of it. -/
theorem source_cases (hsourced : a.ledger.Sourced) (hadmitted : s.Admitted)
    (hphase : s.phase = .arbitrating a) {e : Evidence}
    (he : e ∈ a.authoritative s.run.program) :
    e.source = .pcTable ∨ (e.source = .symbol ∧ e.part ∈ a.symbolCoverage.parts) ∨
      e.kind = .data ∧ ∀ q ∈ a.symbolCoverage.parts, ¬ e.span.Overlaps q.span := by
  rcases Arbiter.mem_authoritative.1 he with he | he | ⟨f, hf, he⟩
  · exact .inl (hsourced.pcTable e he)
  · refine .inr (.inl ⟨hsourced.symbols e he, ?_⟩)
    rw [a.symbolCoverage_eq, Store.mem_parts_coverage]
    exact ⟨e, he, rfl⟩
  · obtain ⟨a', hphase', hfinding⟩ := hadmitted f hf e he
    obtain rfl := Phase.arbitrating.inj (hphase.symm.trans hphase')
    exact .inr (.inr ⟨hfinding.kind_eq, hfinding.apart⟩)

/-- Evidence that overlaps other evidence of another kind comes from the pc-table, or both come
from the symbol table. -/
theorem disagreement_cases (hsourced : a.ledger.Sourced) (hadmitted : s.Admitted)
    (hphase : s.phase = .arbitrating a) {e e' : Evidence}
    (he : e ∈ a.authoritative s.run.program) (he' : e' ∈ a.authoritative s.run.program)
    (hkind : e'.kind ≠ e.kind) (hover : e'.span.Overlaps e.span) :
    e.source = .pcTable ∨ e'.source = .pcTable ∨ e.source = .symbol ∧ e'.source = .symbol := by
  rcases source_cases hsourced hadmitted hphase he with
    hpc | ⟨hsymbol, hpart⟩ | ⟨hdata, hapart⟩
  · exact .inl hpc
  · rcases source_cases hsourced hadmitted hphase he' with
      hpc' | ⟨hsymbol', -⟩ | ⟨-, hapart'⟩
    · exact .inr (.inl hpc')
    · exact .inr (.inr ⟨hsymbol, hsymbol'⟩)
    · exact absurd hover (hapart' e.part hpart)
  · rcases source_cases hsourced hadmitted hphase he' with
      hpc' | ⟨-, hpart'⟩ | ⟨hdata', -⟩
    · exact .inr (.inl hpc')
    · exact absurd (Span.overlaps_comm.1 hover) (hapart e'.part hpart')
    · exact absurd (hdata'.trans hdata.symm) hkind

/-- **A final coverage that fails names a real disagreement, and never one between a symbol and a
finding.**  A session begins with no evidence and an empty program, and takes any steps, answered
or refused, none of which leads back from arbitration; so the symbol table is frozen once.  If the
final coverage then fails, the error is a conflict over a span with two kinds, and

* the two kinds differ;
* some evidence that counts has that span and the second kind, and it overlaps some evidence that
  counts and has the first kind;
* whenever that holds of two pieces of evidence, one is from the pc-table or both are symbols. -/
theorem coverage_error_is_disagreement (s : Session) (policies : SpacePolicies)
    (policy : DuplicatePolicy) (whats : List Step)
    (hempty : s.phase = .collecting (.empty policies))
    (hnew : s.run.program = .empty policy) (hstays : ∀ what ∈ whats, what.staysFrozen) :
    let t := (s.steps whats).2
    ∀ a err, t.phase = .arbitrating a → t.run.coverage a = .error err →
      ∃ incoming existingKind incomingKind,
        err = .coverageConflict incoming existingKind incomingKind ∧
        existingKind ≠ incomingKind ∧
        (∃ e ∈ a.authoritative t.run.program, e.span = incoming ∧ e.kind = incomingKind ∧
          ∃ e' ∈ a.authoritative t.run.program,
            e'.kind = existingKind ∧ e'.span.Overlaps e.span) ∧
        ∀ e ∈ a.authoritative t.run.program, ∀ e' ∈ a.authoritative t.run.program,
          e.span = incoming → e.kind = incomingKind → e'.kind = existingKind →
          e'.span.Overlaps e.span →
          e.source = .pcTable ∨ e'.source = .pcTable ∨
            e.source = .symbol ∧ e'.source = .symbol := by
  intro t a err hphase herr
  have hsourced_start : s.phase.ledger.Sourced := by
    rw [hempty]
    exact Ledger.sourced_empty policies
  have hadmitted_start : s.Admitted := by
    intro f hf
    rw [hnew] at hf
    cases hf
  -- Both invariants hold at the start and are kept by each step.
  have hsourced : a.ledger.Sourced := by
    have ht : t.phase.ledger.Sourced :=
      steps_induction (fun _ _ _ heffect _ hs => heffect.sourced hs) hstays hsourced_start
    rwa [hphase] at ht
  have hadmitted : t.Admitted :=
    steps_induction (fun _ _ _ heffect hallowed hs => heffect.admitted hallowed hs) hstays
      hadmitted_start
  obtain ⟨e, he, e', he', hkind, hover, rfl⟩ := Arbiter.exists_disagreement_of_error herr
  refine ⟨e.span, e'.kind, e.kind, rfl, hkind, ⟨e, he, rfl, rfl, e', he', rfl, hover⟩, ?_⟩
  rintro d hd d' hd' - hdk hdk' hdover
  refine disagreement_cases hsourced hadmitted hphase hd hd' ?_ hdover
  rw [hdk, hdk']
  exact hkind

/-- Code of the pc-table reaches into a data symbol; the finding beside them is no part of it. -/
theorem coverage_error_is_disagreement_of_pcTable :
    let s := Session.start (.start 4096 none default)
    let whats : List Step := [.addPackage "p", .addFunction "f" ⟨0⟩ .function "",
      .pcTable ⟨16, 32⟩ ⟨0⟩ ⟨"f", "p", "", none⟩, .symbol ⟨32, 8⟩ .data ⟨0⟩ ⟨"table"⟩, .freeze,
      .finding ⟨0⟩ ⟨⟨64, 8⟩, default⟩]
    let t := (s.steps whats).2
    let a := t.phase.ledger.freeze
    s.phase = .collecting (.empty default) ∧ s.run.program = .empty .keepFirst ∧
      (∀ what ∈ whats, what.staysFrozen) ∧ t.phase = .arbitrating a ∧
      t.run.coverage a = .error (.coverageConflict ⟨32, 8⟩ .text .data) ∧
      ∃ e ∈ a.authoritative t.run.program, e.span = ⟨32, 8⟩ ∧ e.kind = .data := by
  intro s whats t a
  have hempty : s.phase = .collecting (.empty default) := rfl
  have hnew : s.run.program = .empty .keepFirst := rfl
  have hstays : ∀ what ∈ whats, what.staysFrozen := by decide
  have hphase : t.phase = .arbitrating a := by
    unfold a t
    cbv
  have herr : t.run.coverage a = .error (.coverageConflict ⟨32, 8⟩ .text .data) := by
    unfold a t
    cbv
  obtain ⟨_, _, _, heq, -, ⟨e, he, hspan, hkind, -⟩, -⟩ :=
    coverage_error_is_disagreement s default .keepFirst whats hempty hnew hstays a _ hphase herr
  cases heq
  exact ⟨hempty, hnew, hstays, hphase, herr, e, he, hspan, hkind⟩

end Session

end ByteCensus
