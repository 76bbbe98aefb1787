import ByteCensus.Proofs.Authority
import ByteCensus.Proofs.Evolution
import ByteCensus.Proofs.Ingest.Answered

/-!
# What becomes of findings in the final coverage

A finding that is accepted ends in one of two ways (`Arbiter.RuledOn.keeps_or_shadowed`).  If no
symbol overlaps it, the store of its function keeps it, and never gives it up.  Otherwise all
symbols that overlap it are data, the finding is shadowed, and nothing of it is stored.

The first kind is in the final coverage with every address.  The second kind is there only with
the addresses that other evidence occupies, and a data symbol over some of its bytes is enough to
shadow all of it.  `finding_in_coverage_iff` follows a finding through a session to the final
coverage, and `shadowed_finding_loses_bytes` shows one of which half the bytes are lost.
-/

namespace ByteCensus

variable {a : Arbiter} {f g : Program.Function} {finding : Finding}

/-- What comes of a finding that was ruled on, where older entries stay. -/
theorem Arbiter.RuledOn.keeps_or_shadowed (h : a.RuledOn finding f g)
    (hpolicy : f.findings.policy = .keepFirst) :
    (a.ledger.symbols.overlapping finding.span = [] ∧ g.findings.Keeps ⟨finding.span, .data⟩) ∨
      a.ledger.symbols.overlapping finding.span ≠ [] ∧
        ∀ e ∈ a.ledger.symbols.overlapping finding.span, e.kind = .data := by
  obtain ⟨f', ruling, g', hbefore, hruled, hafter⟩ := h
  have hpolicy' : f'.findings.policy = .keepFirst :=
    (Program.Function.Evolves.of_rulings hbefore).policy_eq.trans hpolicy
  obtain ⟨outcome, findings, hverdict, hinsert, hrule⟩ | ⟨_, -, -, hrule⟩ | ⟨hverdict, hrule⟩ |
      ⟨_, -, -, hrule⟩ := rule_cases a f' finding
  all_goals
    rw [hrule] at hruled
    cases hruled
  · left
    have hkeeps : findings.Keeps ⟨finding.span, .data⟩ := Store.keeps_of_insert hinsert
    refine ⟨verdict_eq_none_iff.1 hverdict, ?_⟩
    exact (Program.Function.Evolves.of_rulings hafter).keeps
      ((Store.policy_of_insert hinsert).trans hpolicy') hkeeps
  · exact .inr (verdict_eq_data_iff.1 hverdict)

namespace Session

variable {s t : Session} {what : Step} {reply : Reply} {id : FunctionId}

/-! ### Answered steps -/

/-- The findings that a step hands over, each with its function. -/
def Step.findings : Step → List (FunctionId × Finding)
  | .finding function finding => [(function, finding)]
  | .ingest batch _ => batch.groups.flatMap fun group => group.2.map (group.1, ·)
  | _ => []

theorem attempt_of_answer (h : (s.step what).1 = .ok reply) :
    s.attempt what = .ok (reply, (s.step what).2) := by
  unfold step at h ⊢
  cases hattempt : s.attempt what with
  | ok answer =>
    rw [hattempt] at h
    cases h
    rfl
  | error refusal =>
    rw [hattempt] at h
    cases h

theorem ruledOn_of_answered_finding (h : s.attempt (.finding id finding) = .ok (reply, t)) :
    ∃ a f g, s.phase = .arbitrating a ∧ s.run.program.function? id = some f ∧
      t.run.program.function? id = some g ∧ a.RuledOn finding f g := by
  unfold attempt at h
  obtain ⟨a, harbiter, h⟩ := bind_eq_ok h
  obtain ⟨f, hf, h⟩ := bind_eq_ok h
  obtain ⟨⟨ruling, g⟩, hrule, h⟩ := bind_eq_ok h
  cases h
  have hfunction := function?_of_requireFunction hf
  refine ⟨a, f, g, phase_of_requireArbiter harbiter, hfunction, ?_, ?_⟩
  · obtain ⟨hlt, -⟩ := List.getElem?_eq_some_iff.1 hfunction
    exact List.getElem?_set_self hlt
  · exact ⟨f, ruling, g, .refl, eq_ok_of_orRefuse hrule, .refl⟩

theorem ruledOn_of_answered_batch {batch : Batch} {config : Option IngestConfig}
    {findings : List Finding} (h : s.attempt (.ingest batch config) = .ok (reply, t))
    (hnumbered : s.run.program.Numbered) (hgroup : (id, findings) ∈ batch.groups)
    (hmem : finding ∈ findings) :
    ∃ a f g, s.phase = .arbitrating a ∧ s.run.program.function? id = some f ∧
      t.run.program.function? id = some g ∧ a.RuledOn finding f g := by
  unfold attempt at h
  obtain ⟨a, harbiter, h⟩ := bind_eq_ok h
  obtain ⟨total, htotal, h⟩ := bind_eq_ok h
  cases h
  have hok : (s.run.program.ingest a (config.getD s.run.config.ingest) batch).1 = .ok total :=
    eq_ok_of_orRefuse htotal
  obtain ⟨f, hf⟩ := Option.isSome_iff_exists.1 (Program.known_of_ingest_eq_ok hok _ hgroup)
  have hfind : batch.find? f.id = some findings := by
    rw [hnumbered.id_eq hf]
    exact Batch.find?_of_mem hgroup
  obtain ⟨g, hg, hruled⟩ := Program.ruledOn_ingest hok hf hfind hmem
  exact ⟨a, f, g, phase_of_requireArbiter harbiter, hf, hg, hruled⟩

/-- **An answered step has ruled on all findings that it hands over.** -/
theorem ruledOn_of_answer (hanswer : (s.step what).1 = .ok reply)
    (hnumbered : s.run.program.Numbered) (hmem : (id, finding) ∈ what.findings) :
    ∃ a f g, s.phase = .arbitrating a ∧ s.run.program.function? id = some f ∧
      (s.step what).2.run.program.function? id = some g ∧ a.RuledOn finding f g := by
  have hattempt := attempt_of_answer hanswer
  cases what with
  | finding function handed =>
    obtain ⟨rfl, rfl⟩ := Prod.mk.inj (List.mem_singleton.1 hmem)
    exact ruledOn_of_answered_finding hattempt
  | ingest batch config =>
    obtain ⟨⟨function, findings⟩, hgroup, hhanded⟩ := List.mem_flatMap.1 hmem
    obtain ⟨handed, hin, heq⟩ := List.mem_map.1 hhanded
    obtain ⟨rfl, rfl⟩ := Prod.mk.inj heq
    exact ruledOn_of_answered_batch hattempt hnumbered hgroup hin
  | _ => cases hmem

/-! ### From a finding to the final coverage -/

/-- What a function keeps is in the final coverage. -/
theorem mem_coverage_of_keeps {c : Coverage} {p : Part} (hf : f ∈ s.run.program.functions)
    (hkeeps : f.findings.Keeps p) (hsized : p.span.size ≠ 0) (hok : s.run.coverage a = .ok c)
    {x : Address} (hx : x ∈ p.span) : ∃ q ∈ c.parts, q.kind = p.kind ∧ x ∈ q.span := by
  obtain ⟨e, he, hkind, hsize, hcovers⟩ := hkeeps.exists_covers
  -- The entry that keeps the part counts, and it has bytes, so that no merge absorbs it.
  have hcounts : e ∈ a.authoritative s.run.program :=
    Arbiter.mem_authoritative.2 (.inr (.inr ⟨f, hf, he⟩))
  have hmem : e.part ∈ Coverage.allParts (a.sources s.run.program) :=
    Arbiter.mem_allParts_sources.2 ⟨e, hcounts, rfl⟩
  have hesized : e.part.span.size ≠ 0 := by
    intro hzero
    have hle : p.span.size ≤ e.part.span.size := hsize
    rw [hzero] at hle
    exact hsized (UInt64.le_zero_iff.1 hle)
  rw [← hkind]
  have hsort := Coverage.sortsByPlace_sortByPlace
  exact Coverage.mem_merge_of_sized hsort hok hmem hesized (hcovers.mem hx)

/-- What has come of an accepted finding when the session is over: a function keeps it, or it was
shadowed. -/
theorem keeps_or_shadowed_of_steps {before after : List Step}
    (hnew : s.run.program = .empty .keepFirst)
    (hsteps : ∀ step ∈ before ++ what :: after, step.staysFrozen ∧ step.keepsProgram)
    (hanswer : ((s.steps before).2.step what).1 = .ok reply)
    (hmem : (id, finding) ∈ what.findings)
    (hphase : (s.steps (before ++ what :: after)).2.phase = .arbitrating a) :
    (a.ledger.symbols.overlapping finding.span = [] ∧
      ∃ f ∈ (s.steps (before ++ what :: after)).2.run.program.functions,
        f.findings.Keeps ⟨finding.span, .data⟩) ∨
    a.ledger.symbols.overlapping finding.span ≠ [] ∧
      ∀ e ∈ a.ledger.symbols.overlapping finding.span, e.kind = .data := by
  rw [steps_append] at hphase ⊢
  obtain ⟨hbefore, hfrom⟩ := List.forall_mem_append.1 hsteps
  have hafter := (List.forall_mem_cons.1 hfrom).2
  have hbuilt : (Program.empty .keepFirst).Evolves (s.steps before).2.run.program := by
    rw [← hnew]
    exact evolves_steps fun step hstep => (hbefore step hstep).2
  obtain ⟨a', f, g, hphase', hf, hg, hruled⟩ :=
    ruledOn_of_answer hanswer hbuilt.numbered_of_empty hmem
  -- Older entries stay in this store, before the finding is ruled on and afterwards.
  have hfpolicy := hbuilt.policy_of_empty hf
  have hgpolicy : g.findings.policy = .keepFirst :=
    (Program.Function.Evolves.of_rulings hruled.rulings).policy_eq.trans hfpolicy
  -- The symbols are still those that the finding was ruled on by.
  obtain ⟨a'', hphase'', hsymbols⟩ :=
    phase_of_steps (fun step hstep => (hfrom step hstep).1) hphase'
  obtain rfl : a'' = a := Phase.arbitrating.inj (hphase''.symm.trans hphase)
  rw [hsymbols]
  rcases hruled.keeps_or_shadowed hfpolicy with ⟨hnone, hkeeps⟩ | hshadowed
  · obtain ⟨h, hh, hgh⟩ :=
      (evolves_steps fun step hstep => (hafter step hstep).2).kept _ g hg
    exact .inl ⟨hnone, h, List.mem_of_getElem? hh, hgh.keeps hgpolicy hkeeps⟩
  · exact .inr hshadowed

/-- **Which addresses of a finding the final coverage has.**  A session begins with an empty program
whose stores keep older entries, and takes any steps, of which none leads back from arbitration or
begins another program.  One of these steps hands over a finding with bytes, alone or in a batch,
and is answered.  If the final coverage exists in the end,

* the symbols that overlap the finding are all data;
* the coverage has an address of the finding as data iff no symbol overlaps the finding, or some
  data that counts occupies the address and is no absorbed marker. -/
theorem finding_in_coverage_iff (s : Session) (before : List Step) (what : Step)
    (after : List Step) (reply : Reply) (id : FunctionId) (finding : Finding)
    (hnew : s.run.program = .empty .keepFirst)
    (hsteps : ∀ step ∈ before ++ what :: after, step.staysFrozen ∧ step.keepsProgram)
    (hanswer : ((s.steps before).2.step what).1 = .ok reply)
    (hmem : (id, finding) ∈ what.findings) (hsized : finding.span.size ≠ 0) :
    let t := (s.steps (before ++ what :: after)).2
    ∀ a c, t.phase = .arbitrating a → t.run.coverage a = .ok c →
      let symbols := a.ledger.symbols.overlapping finding.span
      (∀ e ∈ symbols, e.kind = .data) ∧
      ∀ x ∈ finding.span, (∃ q ∈ c.parts, q.kind = .data ∧ x ∈ q.span) ↔
        symbols = [] ∨ ∃ e ∈ a.authoritative t.run.program, e.kind = .data ∧ x ∈ e.span ∧
          ¬ Coverage.Absorbed (Coverage.allParts (a.sources t.run.program)) e.part := by
  intro t a c hphase hok symbols
  have hevidence := Arbiter.mem_authoritativeCoverage_iff hok .data
  rcases keeps_or_shadowed_of_steps hnew hsteps hanswer hmem hphase with
    ⟨hnone, f, hf, hkeeps⟩ | ⟨hsome, hdata⟩
  -- The store keeps the finding, so the coverage has all of its addresses.
  · have hnone' : symbols = [] := hnone
    rw [hnone']
    refine ⟨List.forall_mem_nil _, fun x hx => ?_⟩
    have hcovered := mem_coverage_of_keeps hf hkeeps hsized hok hx
    exact iff_of_true hcovered (.inl rfl)
  -- Shadowed: what the coverage has there it owes to other evidence.
  · refine ⟨hdata, fun x _ => ?_⟩
    rw [hevidence]
    exact (or_iff_right hsome).symm

/-- A finding is widened by a batch, and the final coverage has all its bytes. -/
theorem finding_in_coverage_iff_of_widened :
    let symbols := (Store.empty .keepFirst).put (.ofSymbol ⟨32, 16⟩ .data ⟨0⟩ ⟨"table"⟩)
    let s : Session := ⟨.start 4096 none default,
      .arbitrating (Ledger.freeze { Ledger.empty default with symbols }), []⟩
    let before : List Step := [.addPackage "p", .addFunction "f" ⟨0⟩ .function "",
      .finding ⟨0⟩ ⟨⟨64, 4⟩, default⟩]
    let finding : Finding := ⟨⟨64, 8⟩, default⟩
    let what : Step := .ingest (.ofList [(⟨0⟩, [⟨⟨40, 4⟩, default⟩, finding])]) none
    let after : List Step := [.finding ⟨0⟩ ⟨⟨64, 2⟩, default⟩]
    let t := (s.steps (before ++ what :: after)).2
    let a := t.phase.ledger.freeze
    ∃ reply c, s.run.program = .empty .keepFirst ∧
      (∀ step ∈ before ++ what :: after, step.staysFrozen ∧ step.keepsProgram) ∧
      ((s.steps before).2.step what).1 = .ok reply ∧ (⟨0⟩, finding) ∈ what.findings ∧
      finding.span.size ≠ 0 ∧ t.phase = .arbitrating a ∧ t.run.coverage a = .ok c ∧
      ∀ x ∈ finding.span, ∃ q ∈ c.parts, q.kind = .data ∧ x ∈ q.span := by
  intro symbols s before finding what after t a
  have hnew : s.run.program = .empty .keepFirst := rfl
  have hsteps : ∀ step ∈ before ++ what :: after, step.staysFrozen ∧ step.keepsProgram := by decide
  have hanswer : ((s.steps before).2.step what).1 =
      .ok (.tally ⟨1, 0, 0, 1, 1⟩) := by
    unfold s before what symbols finding
    cbv
  have hmem : (⟨0⟩, finding) ∈ what.findings := by decide
  have hsized : finding.span.size ≠ 0 := by decide
  have hphase : t.phase = .arbitrating a := by
    unfold a t s before what after symbols finding
    cbv
  have hok : t.run.coverage a =
      .ok ⟨#[⟨⟨32, 16⟩, .data⟩, ⟨⟨64, 8⟩, .data⟩], .disjoint⟩ := by
    unfold a t s before what after symbols finding
    cbv
  have hnone : a.ledger.symbols.overlapping finding.span = [] := by
    unfold a t s before what after symbols finding
    decide_cbv
  obtain ⟨-, hiff⟩ := finding_in_coverage_iff s before what after _ ⟨0⟩ finding hnew hsteps
    hanswer hmem hsized a _ hphase hok
  exact ⟨_, _, hnew, hsteps, hanswer, hmem, hsized, hphase, hok,
    fun x hx => (hiff x hx).2 (.inl hnone)⟩

/-- A data symbol over the first half of a finding shadows it, and the final coverage has no part
over the other half. -/
theorem shadowed_finding_loses_bytes :
    let symbols := (Store.empty .keepFirst).put (.ofSymbol ⟨32, 16⟩ .data ⟨0⟩ ⟨"table"⟩)
    let s : Session := ⟨.start 4096 none default,
      .arbitrating (Ledger.freeze { Ledger.empty default with symbols }), []⟩
    let before : List Step := [.addPackage "p", .addFunction "f" ⟨0⟩ .function ""]
    let finding : Finding := ⟨⟨40, 16⟩, default⟩
    let what : Step := .finding ⟨0⟩ finding
    let t := (s.steps (before ++ [what])).2
    let a := t.phase.ledger.freeze
    s.run.program = .empty .keepFirst ∧
      ((s.steps before).2.step what).1 = .ok (.ruling .shadowed) ∧ t.phase = .arbitrating a ∧
      ∃ c, t.run.coverage a = .ok c ∧ ∃ x ∈ finding.span,
        ¬ ∃ q ∈ c.parts, q.kind = .data ∧ x ∈ q.span := by
  intro symbols s before finding what t a
  have hnew : s.run.program = .empty .keepFirst := rfl
  have hanswer : ((s.steps before).2.step what).1 = .ok (.ruling .shadowed) := by
    unfold s before what symbols finding
    cbv
  have hphase : t.phase = .arbitrating a := by
    unfold a t s before what symbols finding
    cbv
  have hok : t.run.coverage a = .ok ⟨#[⟨⟨32, 16⟩, .data⟩], .disjoint⟩ := by
    unfold a t s before what symbols finding
    cbv
  exact ⟨hnew, hanswer, hphase, _, hok, 50, by decide, by decide⟩

end Session

end ByteCensus
