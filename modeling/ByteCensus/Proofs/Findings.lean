import Mathlib.Data.List.Permutation
import ByteCensus.Proofs.Evolution

/-!
# Stored findings stay apart from the symbol table

A finding reaches the store of a function only where the symbol table says nothing
(`Arbiter.Rules.eq_or_insert`).  What is stored can be overwritten and widened later, each time
to the extent of a finding that was ruled on itself, so every entry stays apart from the symbol
table: `IsFinding.widen`.

`Apart` is the invariant of a session with a frozen symbol table.  Each effect keeps it
(`Effect.apart`), thus every run does; `stored_findings_apart` says what that means for a session
that begins with an empty program.
-/

namespace ByteCensus

variable {a : Arbiter} {symbols : Coverage} {f g : Program.Function} {e kept : Evidence}

/-! ### Entries -/

/-- An entry as the store of a function may hold it, next to symbols with that coverage. -/
structure IsFinding (symbols : Coverage) (f : Program.Function) (e : Evidence) : Prop where
  apart : ∀ p ∈ symbols.parts, ¬ e.span.Overlaps p.span
  kind_eq : e.kind = .data
  source_eq : e.source = .disassembly
  function_eq : e.function = some f.id
  package_eq : e.package = f.package

theorem isFinding_ofFinding {finding : Finding}
    (h : ∀ p ∈ symbols.parts, ¬ finding.span.Overlaps p.span) :
    IsFinding symbols f (.ofFinding finding.span f.package f.id finding.detail) :=
  ⟨h, rfl, rfl, rfl, rfl⟩

/-- The extent of a widened entry is that of the newer one, and its owner that of the older one. -/
theorem IsFinding.widen (hkept : IsFinding symbols f kept) (he : IsFinding symbols f e) :
    IsFinding symbols f (Store.widen kept e) := by
  refine ⟨he.apart, hkept.kind_eq, hkept.source_eq, ?_, hkept.package_eq⟩
  show (kept.function <|> e.function) = some f.id
  rw [hkept.function_eq]
  rfl

/-- It does not matter what else the store holds. -/
theorem IsFinding.withFindings (h : IsFinding symbols f e) (findings : Store) :
    IsFinding symbols { f with findings } e :=
  ⟨h.apart, h.kind_eq, h.source_eq, h.function_eq, h.package_eq⟩

/-- The store of the function holds nothing but findings. -/
def HoldsFindings (symbols : Coverage) (f : Program.Function) : Prop :=
  ∀ e ∈ f.findings.entries, IsFinding symbols f e

theorem HoldsFindings.rules (hrules : a.Rules f g) (h : HoldsFindings a.symbolCoverage f) :
    HoldsFindings a.symbolCoverage g := by
  obtain rfl | ⟨_, _, findings, hadmits, hinsert, rfl⟩ := hrules.eq_or_insert
  · exact h
  · have hnew := isFinding_ofFinding (f := f) hadmits
    have hall : ∀ e ∈ findings.entries, IsFinding a.symbolCoverage f e :=
      Store.forall_mem_insert hinsert h hnew fun _ hkept => hkept.widen hnew
    intro e he
    exact (hall e he).withFindings findings

/-! ### Sessions -/

namespace Session

variable {s t : Session} {what : Step}

/-- Findings are ruled on by symbols with that coverage, and all functions hold findings only. -/
structure Apart (s : Session) (symbols : Coverage) : Prop where
  frozen : ∃ a, s.phase = .arbitrating a ∧ a.symbolCoverage = symbols
  holds : ∀ f ∈ s.run.program.functions, HoldsFindings symbols f

theorem Effect.holdsFindings (h : Effect s what t) (hphase : s.phase = .arbitrating a)
    (hs : ∀ f ∈ s.run.program.functions, HoldsFindings a.symbolCoverage f) :
    ∀ f ∈ t.run.program.functions, HoldsFindings a.symbolCoverage f := by
  have hsame {a' : Arbiter} (h' : s.phase = .arbitrating a') : a' = a :=
    Phase.arbitrating.inj (h'.symm.trans hphase)
  -- The effects not named below leave the program alone.
  cases h with
  | package name =>
    show ∀ f ∈ (s.run.program.addPackage name).2.functions, _
    rw [Program.functions_addPackage]
    exact hs
  | function hadd =>
    apply Program.forall_functions_addFunction hadd hs
    intro e he
    cases he
  | newProgram policy =>
    intro f hf
    cases hf
  | finding hphase' hf hrule =>
    rw [hsame hphase'] at hrule
    have hholds := hs _ (Program.mem_of_function? hf)
    exact Program.forall_functions_setFunction hs (hholds.rules ⟨_, _, hrule⟩)
  | ingest b config hphase' =>
    rw [hsame hphase']
    apply Program.forall_functions_ingest _ hs
    intro f g hrules hholds
    exact hholds.rules hrules
  | _ => exact hs

theorem Effect.apart (h : Effect s what t) (hstays : what.staysFrozen) (hs : s.Apart symbols) :
    t.Apart symbols := by
  obtain ⟨a, hphase, rfl⟩ := hs.frozen
  refine ⟨?_, h.holdsFindings hphase hs.holds⟩
  obtain ⟨a', hphase', hsymbols⟩ := h.phase_of_staysFrozen hstays hphase
  refine ⟨a', hphase', ?_⟩
  rw [a'.symbolCoverage_eq, a.symbolCoverage_eq, hsymbols]

theorem Apart.steps {whats : List Step} (h : s.Apart symbols)
    (hstays : ∀ what ∈ whats, what.staysFrozen) : (s.steps whats).2.Apart symbols :=
  steps_induction (fun _ _ _ heffect hwhat hs => heffect.apart hwhat hs) hstays h

/-- **Stored findings neither contradict nor repeat the frozen symbol table.**  A session that
rules on findings by an arbiter begins with an empty program, and takes any steps that leave the
symbol table frozen, each one answered or refused.  Then the symbol coverage is still the same,
and in the store of each function every entry

* is found under its own start and nowhere else;
* overlaps no part of the symbol coverage;
* is data that disassembly reported, owned by the function and its package. -/
theorem stored_findings_apart (s : Session) (a : Arbiter) (policy : DuplicatePolicy)
    (whats : List Step) (hphase : s.phase = .arbitrating a)
    (hnew : s.run.program = .empty policy) (hstays : ∀ what ∈ whats, what.staysFrozen) :
    let t := (s.steps whats).2
    (∃ a', t.phase = .arbitrating a' ∧ a'.symbolCoverage = a.symbolCoverage) ∧
    ∀ f ∈ t.run.program.functions, ∀ e ∈ f.findings.entries,
      (∀ start, f.findings.get? start = some e ↔ start = e.start) ∧
      (∀ p ∈ a.symbolCoverage.parts, ¬ e.span.Overlaps p.span) ∧
      e.kind = .data ∧ e.source = .disassembly ∧
      e.function = some f.id ∧ e.package = f.package := by
  intro t
  have hstart : s.Apart a.symbolCoverage := by
    refine ⟨⟨a, hphase, rfl⟩, ?_⟩
    rw [hnew]
    intro f hf
    cases hf
  have ht : t.Apart a.symbolCoverage := hstart.steps hstays
  refine ⟨ht.frozen, ?_⟩
  intro f hf e he
  have hfinding := ht.holds f hf e he
  refine ⟨?_, hfinding.apart, hfinding.kind_eq, hfinding.source_eq, hfinding.function_eq,
    hfinding.package_eq⟩
  intro start
  rw [Store.get?_eq_some_iff]
  exact ⟨fun h => h.2.symm, fun h => ⟨he, h.symm⟩⟩

/-- One finding is widened, one refused, and a batch ends at a conflict. -/
theorem stored_findings_apart_widened :
    let symbols := ((Store.empty .keepFirst).put (.ofSymbol ⟨32, 16⟩ .text ⟨0⟩ ⟨"code"⟩)).put
      (.ofSymbol ⟨64, 8⟩ .data ⟨0⟩ ⟨"table"⟩)
    let a := Ledger.freeze { Ledger.empty default with symbols }
    let s : Session := ⟨.start 4096 none default, .arbitrating a, []⟩
    let batch := Batch.ofList
      [(⟨0⟩, [⟨⟨40, 2⟩, default⟩, ⟨⟨24, 4⟩, default⟩, ⟨⟨64, 4⟩, default⟩])]
    let whats : List Step := [.addPackage "p", .addFunction "f" ⟨0⟩ .function "",
      .finding ⟨0⟩ ⟨⟨16, 4⟩, default⟩, .finding ⟨0⟩ ⟨⟨16, 8⟩, default⟩,
      .finding ⟨0⟩ ⟨⟨28, 8⟩, default⟩, .ingest batch none]
    let t := (s.steps whats).2
    s.phase = .arbitrating a ∧ s.run.program = .empty .keepFirst ∧
      (∀ what ∈ whats, what.staysFrozen) ∧
      t.run.program.functions.map (·.findings.parts) = [[⟨⟨16, 8⟩, .data⟩, ⟨⟨24, 4⟩, .data⟩]] ∧
      ∀ f ∈ t.run.program.functions, ∀ e ∈ f.findings.entries,
        ∀ p ∈ a.symbolCoverage.parts, ¬ e.span.Overlaps p.span := by
  intro symbols a s batch whats t
  have hnew : s.run.program = .empty .keepFirst := rfl
  have hstays : ∀ what ∈ whats, what.staysFrozen := by decide
  have hstored :
      t.run.program.functions.map (·.findings.parts) = [[⟨⟨16, 8⟩, .data⟩, ⟨⟨24, 4⟩, .data⟩]] := by
    unfold t
    decide_cbv
  obtain ⟨-, happart⟩ := stored_findings_apart s a .keepFirst whats rfl hnew hstays
  refine ⟨rfl, hnew, hstays, hstored, ?_⟩
  intro f hf e he
  exact (happart f hf e he).2.1

end Session

end ByteCensus
