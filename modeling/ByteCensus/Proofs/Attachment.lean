import Mathlib.Data.List.Permutation
import ByteCensus.Proofs.Lockstep

/-!
# Attaching symbols to functions

The handle of a symbol is the address of its entry.  Entries are never taken out, so a handle stays
good for as long as the evidence is kept: `Effect.symbols_cases` lists what a step can make of the
symbol table and of the handles, and `Handled` is what all of that keeps.

An attachment writes the owner of an entry, and nobody reads it: a session with the owners taken
out (`Session.unattached`) goes in lockstep with the session itself, and does not notice the
attachments (`Session.steps_unattached`).

Only an insertion that overwrites an entry takes an owner away.  Where older entries stay, the
owner of a symbol is the function that it was attached to last (`owner?_steps`).
-/

namespace ByteCensus

/-! ### Evidence without owners -/

/-- The evidence as if no function owned it. -/
def Evidence.unattached (e : Evidence) : Evidence := { e with function := none }

namespace Store

variable {s : Store} {e : Evidence} {x : Address}

/-- The store as if no function owned any entry. -/
def unattached (s : Store) : Store where
  policy := s.policy
  entries := s.entries.map Evidence.unattached
  ascending := List.pairwise_map.2 s.ascending

theorem get?_unattached (s : Store) (x : Address) :
    s.unattached.get? x = (s.get? x).map Evidence.unattached := by
  show (s.entries.map Evidence.unattached).find? (·.start = x) = _
  rw [List.find?_map]
  rfl

/-- An entry goes to the same place with its owner and without. -/
theorem placeIn_map_unattached (e : Evidence) (entries : List Evidence) :
    placeIn e.unattached (entries.map Evidence.unattached) =
      (placeIn e entries).map Evidence.unattached := by
  induction entries with
  | nil => rfl
  | cons first rest ih =>
    have he : e.unattached.start = e.start := rfl
    have hfirst : first.unattached.start = first.start := rfl
    rw [List.map_cons, placeIn, placeIn, he, hfirst, ih]
    split
    · rfl
    · split <;> rfl

/-- Writing an entry and taking owners out can be exchanged. -/
theorem put_unattached (s : Store) (e : Evidence) :
    s.unattached.put e.unattached = (s.put e).unattached := by
  rw [Store.mk.injEq]
  exact ⟨rfl, placeIn_map_unattached e s.entries⟩

theorem parts_unattached (s : Store) : s.unattached.parts = s.parts := by
  show (s.entries.map Evidence.unattached).map Evidence.part = s.entries.map Evidence.part
  rw [List.map_map]
  rfl

theorem coverage_unattached (s : Store) : s.unattached.coverage = s.coverage := by
  unfold coverage
  rw [parts_unattached]

/-- Writing an entry that is there changes nothing. -/
theorem placeIn_of_mem {entries : List Evidence}
    (hasc : entries.Pairwise fun e f => e.start < f.start) (he : e ∈ entries) :
    placeIn e entries = entries := by
  induction entries with
  | nil => cases he
  | cons first rest ih =>
    obtain ⟨hfirst, hrest⟩ := List.pairwise_cons.1 hasc
    rw [placeIn]
    rcases List.mem_cons.1 he with rfl | he
    · rw [if_neg (UInt64.lt_irrefl _), if_pos rfl]
    · have hlt := hfirst e he
      rw [if_neg (UInt64.lt_asymm hlt), if_neg (UInt64.ne_of_lt hlt).symm, ih hrest he]

theorem put_of_get? (h : s.get? x = some e) : s.put e = s := by
  rw [Store.mk.injEq]
  exact ⟨rfl, placeIn_of_mem s.ascending (get?_eq_some_iff.1 h).1⟩

/-- What is inserted without an owner is inserted all the same where no entry has one. -/
theorem insert_unattached (s : Store) (hfree : e.function = none) :
    s.unattached.insert e =
      (s.insert e).map (Prod.map id unattached) := by
  have he : e.unattached = e := by
    rw [Evidence.unattached, ← hfree]
  have hput : s.unattached.put e = (s.put e).unattached := by
    rw [← put_unattached, he]
  have hpolicy : s.unattached.policy = s.policy := rfl
  unfold insert
  rw [get?_unattached, hpolicy]
  cases s.get? e.start with
  | none =>
    dsimp only [Option.map_none]
    rw [hput]
    rfl
  | some kept =>
    have hkind : kept.unattached.kind = kept.kind := rfl
    have hspan : kept.unattached.span = kept.span := rfl
    dsimp only [Option.map_some]
    rw [hkind, hspan]
    -- Under each policy the same happens, to entries of the same spans and kinds.
    cases s.policy with
    | reject => rfl
    | replace =>
      dsimp only
      rw [hput]
      rfl
    | keepFirst =>
      -- A widened entry has the owner of the older one, since the newer one has none.
      have hwiden : widen kept.unattached e = (widen kept e).unattached := by
        unfold widen
        rw [hfree]
        rfl
      dsimp only
      split
      · rfl
      · split
        · rfl
        · show Except.ok (_, s.unattached.put (widen kept.unattached e)) = _
          rw [hwiden, put_unattached]
          rfl

/-- Writing the owner of an entry makes no difference where there are no owners. -/
theorem unattached_put_owner (hget : s.get? x = some e) (id : FunctionId) :
    (s.put { e with function := some id }).unattached = s.unattached := by
  have hget' : s.unattached.get? x = some e.unattached := by
    rw [get?_unattached, hget]
    rfl
  rw [← put_unattached]
  exact put_of_get? hget'

/-! ### Owners -/

/-- The owner of the entry with that start. -/
def owner? (s : Store) (x : Address) : Option FunctionId := (s.get? x).bind (·.function)

theorem owner?_put_owner (hget : s.get? x = some e) (id : FunctionId) (y : Address) :
    (s.put { e with function := some id }).owner? y = if x = y then some id else s.owner? y := by
  have hx : e.start = x := start_of_get? hget
  have hstart : ({ e with function := some id } : Evidence).start = x := hx
  unfold owner?
  rw [get?_put, hstart]
  split <;> rfl

/-- Where older entries stay, evidence without an owner takes none away. -/
theorem owner?_insert {s' : Store} {outcome : InsertOutcome} (hfree : e.function = none)
    (hpolicy : s.policy ≠ .replace) (h : s.insert e = .ok (outcome, s')) (x : Address) :
    s'.owner? x = s.owner? x := by
  obtain ⟨hget, -, rfl⟩ | ⟨kept, hget, ⟨hreplace, -, -⟩ | ⟨-, -, ⟨-, -, rfl⟩ | ⟨-, -, rfl⟩⟩⟩ :=
    insert_eq_ok h
  -- A new entry has no owner, as there was none before.
  · unfold owner?
    rw [get?_put]
    split
    · next hstart =>
      rw [← hstart, hget]
      exact hfree
    · rfl
  · exact absurd hreplace hpolicy
  · rfl
  -- A widened entry keeps its owner.
  · have hstart : (widen kept e).start = e.start := rfl
    unfold owner?
    rw [get?_put, hstart]
    split
    · next hstart =>
      rw [← hstart, hget]
      show (kept.function <|> e.function) = kept.function
      rw [hfree]
      cases kept.function <;> rfl
    · rfl

/-- Entries are never taken out. -/
theorem isSome_get?_put (h : (s.get? x).isSome) (e : Evidence) : ((s.put e).get? x).isSome := by
  rw [get?_put]
  split
  · rfl
  · exact h

/-- After an insertion there is an entry wherever there was one, and where the evidence starts. -/
theorem isSome_get?_insert {s' : Store} {outcome : InsertOutcome}
    (h : s.insert e = .ok (outcome, s')) (hx : e.start = x ∨ (s.get? x).isSome) :
    (s'.get? x).isSome := by
  have hput (e' : Evidence) (hstart : e'.start = e.start) : ((s.put e').get? x).isSome := by
    rcases hx with hx | hx
    · rw [get?_put, if_pos (hstart.trans hx)]
      rfl
    · exact isSome_get?_put hx e'
  obtain ⟨-, -, rfl⟩ | ⟨kept, hget, ⟨-, -, rfl⟩ | ⟨-, -, ⟨-, -, rfl⟩ | ⟨-, -, rfl⟩⟩⟩ :=
    insert_eq_ok h
  · exact hput e rfl
  · exact hput e rfl
  · rcases hx with rfl | hx
    · rw [hget]
      rfl
    · exact hx
  · exact hput (widen kept e) rfl

end Store

/-! ### Sessions without owners -/

/-- The ledger as if no function owned any symbol. -/
def Ledger.unattached (l : Ledger) : Ledger := { l with symbols := l.symbols.unattached }

/-- The arbiter as if no function owned any symbol; the coverage is the same. -/
def Arbiter.unattached (a : Arbiter) : Arbiter where
  ledger := a.ledger.unattached
  symbolCoverage := a.symbolCoverage
  symbolCoverage_eq := by
    show _ = a.ledger.symbols.unattached.coverage
    rw [Store.coverage_unattached]
    exact a.symbolCoverage_eq

def Phase.unattached : Phase → Phase
  | collecting l => collecting l.unattached
  | arbitrating a => arbitrating a.unattached

theorem Phase.symbolCoverage?_unattached (phase : Phase) :
    phase.unattached.symbolCoverage? = phase.symbolCoverage? := by
  cases phase <;> rfl

namespace Ledger

/-- Recording a symbol does not depend on owners, and gives none. -/
theorem recordSymbol_unattached (l : Ledger) (span : Span) (kind : ByteKind)
    (package : PackageId) (detail : SymbolDetail) :
    l.unattached.recordSymbol span kind package detail =
      (l.recordSymbol span kind package detail).map (Prod.map id unattached) := by
  have hinsert := l.symbols.insert_unattached (e := .ofSymbol span kind package detail) rfl
  have hsymbols : l.unattached.symbols = l.symbols.unattached := rfl
  unfold recordSymbol
  rw [hsymbols, hinsert]
  cases l.symbols.insert (.ofSymbol span kind package detail) <;> rfl

theorem recordPcTable_unattached (l : Ledger) (span : Span) (f : Program.Function)
    (detail : PcTableDetail) :
    l.unattached.recordPcTable span f detail =
      (l.recordPcTable span f detail).map (Prod.map id unattached) := by
  unfold recordPcTable
  dsimp only [unattached]
  cases l.pcTable.insert (.ofPcTable span f.package f.id detail) <;> rfl

theorem recordDebugInfo_unattached (l : Ledger) (span : Span) (kind : ByteKind)
    (package : PackageId) (detail : DebugInfoDetail) :
    l.unattached.recordDebugInfo span kind package detail =
      (l.recordDebugInfo span kind package detail).map (Prod.map id unattached) := by
  unfold recordDebugInfo
  dsimp only [unattached]
  cases l.debugInfo.insert (.ofDebugInfo span kind package detail) <;> rfl

theorem freeze_unattached (l : Ledger) : l.unattached.freeze = l.freeze.unattached := by
  unfold freeze Arbiter.unattached
  rw [Arbiter.mk.injEq]
  exact ⟨rfl, l.symbols.coverage_unattached⟩

end Ledger

namespace Arbiter

theorem recordPcTable_unattached (a : Arbiter) (span : Span) (f : Program.Function)
    (detail : PcTableDetail) :
    a.unattached.recordPcTable span f detail =
      (a.recordPcTable span f detail).map (Prod.map id unattached) := by
  unfold recordPcTable
  dsimp only [unattached, Ledger.unattached]
  cases a.ledger.pcTable.insert (.ofPcTable span f.package f.id detail) <;> rfl

theorem recordDebugInfo_unattached (a : Arbiter) (span : Span) (kind : ByteKind)
    (package : PackageId) (detail : DebugInfoDetail) :
    a.unattached.recordDebugInfo span kind package detail =
      (a.recordDebugInfo span kind package detail).map (Prod.map id unattached) := by
  unfold recordDebugInfo
  dsimp only [unattached, Ledger.unattached]
  cases a.ledger.debugInfo.insert (.ofDebugInfo span kind package detail) <;> rfl

end Arbiter

namespace Session

variable {s t : Session} {what : Step} {whats : List Step} {number : Nat} {handle : SymbolHandle}
  {id : FunctionId} {x : Address}

/-- The session as if no function owned any symbol. -/
def unattached (s : Session) : Session := { s with phase := s.phase.unattached }

/-- The step is no attachment. -/
def Step.attachesNothing : Step → Bool
  | .attach .. => false
  | _ => true

theorem unattached_eq_mapEvidence (s : Session) :
    s.unattached = s.mapEvidence Ledger.unattached Arbiter.unattached := by
  obtain ⟨run, phase, handles⟩ := s
  cases phase <;> rfl

/-- All other steps overlook the owners. -/
theorem Step.overlooks_of_attachesNothing (hnot : what.attachesNothing) :
    what.Overlooks Ledger.unattached Arbiter.unattached := by
  cases what with
  | pcTable span id detail =>
    exact fun f => ⟨(·.recordPcTable_unattached _ f _), (·.recordPcTable_unattached _ f _)⟩
  | symbol span kind package detail => exact (·.recordSymbol_unattached span kind package detail)
  | attach number id => cases hnot
  | debugInfo span kind package detail =>
    exact ⟨(·.recordDebugInfo_unattached ..), (·.recordDebugInfo_unattached ..)⟩
  | freeze => exact fun l => ⟨l.freeze_unattached, rfl⟩
  | coverage => exact fun _ _ => rfl
  | addPackage | addFunction | newProgram | setBuild => trivial
  | reopen | reset | finding | ingest => exact fun _ => rfl

/-- An attachment is not seen where there are no owners. -/
theorem Effect.unattached_eq (h : Effect s what t) (hattach : what.attachesNothing = false) :
    t.unattached = s.unattached := by
  cases h with
  | same => rfl
  | attach hphase _ h =>
    obtain ⟨e, hget, rfl⟩ := Ledger.attach_eq_ok_iff.1 h
    unfold unattached Phase.unattached Ledger.unattached
    simp only [hphase, Store.unattached_put_owner hget]
  | _ => cases hattach

/-- **Without the owners a session does not notice attachments**, and goes in lockstep with the
session itself in all other steps. -/
theorem steps_unattached (s : Session) (whats : List Step) :
    s.unattached.steps (whats.filter (·.attachesNothing)) =
      (s.answersTo (·.attachesNothing) whats, (s.steps whats).2.unattached) := by
  rw [unattached_eq_mapEvidence, unattached_eq_mapEvidence]
  refine steps_mapEvidence (fun _ => Step.overlooks_of_attachesNothing) ?_ s whats
  intro s what hattach
  rw [← unattached_eq_mapEvidence, ← unattached_eq_mapEvidence]
  exact (effect_step s what).unattached_eq hattach

/-! ### Handles -/

/-- The step keeps the evidence collected. -/
def Step.keepsEvidence : Step → Bool
  | .reset _ => false
  | _ => true

/-- All that a step can make of the symbol table and of the handles. -/
theorem Effect.symbols_cases (h : Effect s what t) (hkeeps : what.keepsEvidence) :
    (t.phase.ledger.symbols = s.phase.ledger.symbols ∧ t.handles = s.handles) ∨
    (∃ e outcome, e.function = none ∧
      s.phase.ledger.symbols.insert e = .ok (outcome, t.phase.ledger.symbols) ∧
      t.handles = s.handles ++ [⟨e.start⟩]) ∨
    ∃ number id handle e, what = .attach number id ∧ s.handles[number]? = some handle ∧
      s.phase.ledger.symbols.get? handle.start = some e ∧
      t.phase.ledger.symbols = s.phase.ledger.symbols.put { e with function := some id } ∧
      t.handles = s.handles := by
  have hledger {l : Ledger} (hphase : s.phase = .collecting l) : s.phase.ledger = l := by
    rw [hphase]
    rfl
  have harbiter {a : Arbiter} (hphase : s.phase = .arbitrating a) : s.phase.ledger = a.ledger := by
    rw [hphase]
    rfl
  -- Two effects touch the symbol table, a symbol and an attachment; all others are in the first
  -- case.
  cases h with
  | reset => cases hkeeps
  | symbol hphase h =>
    right; left
    obtain ⟨outcome, _, hinsert, rfl, rfl⟩ := Ledger.insert_of_recordSymbol h
    rw [hledger hphase]
    exact ⟨_, outcome, rfl, hinsert, rfl⟩
  | attach hphase hhandle h =>
    right; right
    obtain ⟨e, hget, rfl⟩ := Ledger.attach_eq_ok_iff.1 h
    rw [hledger hphase]
    exact ⟨_, _, _, e, rfl, hhandle, hget, rfl, rfl⟩
  | pcTable hphase _ h =>
    left
    obtain ⟨_, -, rfl⟩ := Ledger.insert_of_recordPcTable h
    rw [hledger hphase]
    exact ⟨rfl, rfl⟩
  | debugInfo hphase h =>
    left
    obtain ⟨_, -, rfl⟩ := Ledger.insert_of_recordDebugInfo h
    rw [hledger hphase]
    exact ⟨rfl, rfl⟩
  | latePcTable hphase _ h =>
    left
    rw [harbiter hphase]
    exact ⟨Arbiter.symbols_of_recordPcTable h, rfl⟩
  | lateDebugInfo hphase h =>
    left
    rw [harbiter hphase]
    exact ⟨Arbiter.symbols_of_recordDebugInfo h, rfl⟩
  | freeze hphase =>
    left
    rw [hledger hphase]
    exact ⟨rfl, rfl⟩
  | reopen hphase =>
    left
    rw [harbiter hphase]
    exact ⟨rfl, rfl⟩
  | _ => exact .inl ⟨rfl, rfl⟩

/-- Every handle is the address of an entry. -/
def Handled (s : Session) : Prop :=
  ∀ handle ∈ s.handles, (s.phase.ledger.symbols.get? handle.start).isSome

/-- Handles go on to be addresses of entries. -/
theorem Handled.effect (hs : s.Handled) (h : Effect s what t) (hkeeps : what.keepsEvidence) :
    t.Handled := by
  intro handle hhandle
  obtain ⟨hsymbols, hhandles⟩ | ⟨e, outcome, -, hinsert, hhandles⟩ |
      ⟨_, _, _, e, -, -, -, hsymbols, hhandles⟩ := h.symbols_cases hkeeps
  · rw [hsymbols]
    exact hs handle (hhandles ▸ hhandle)
  · rw [hhandles, List.mem_append, List.mem_singleton] at hhandle
    apply Store.isSome_get?_insert hinsert
    rcases hhandle with hhandle | rfl
    · exact .inr (hs handle hhandle)
    · exact .inl rfl
  · rw [hsymbols]
    exact Store.isSome_get?_put (hs handle (hhandles ▸ hhandle)) _

/-- Handles are only ever added. -/
theorem Effect.handles_prefix (h : Effect s what t) (hkeeps : what.keepsEvidence) :
    s.handles <+: t.handles := by
  obtain ⟨-, hhandles⟩ | ⟨_, _, -, -, hhandles⟩ | ⟨_, _, _, _, -, -, -, -, hhandles⟩ :=
    h.symbols_cases hkeeps
  · exact hhandles ▸ List.prefix_refl _
  · exact hhandles ▸ List.prefix_append _ _
  · exact hhandles ▸ List.prefix_refl _

/-- The handle in the answer to a step stands where the answer says. -/
theorem handles_of_answered_symbol {span : Span} {kind : ByteKind} {package : PackageId}
    {detail : SymbolDetail}
    (h : (s.step (.symbol span kind package detail)).1 = .ok (.handle number handle)) :
    (s.step (.symbol span kind package detail)).2.handles[number]? = some handle := by
  unfold step at h ⊢
  cases hattempt : s.attempt (.symbol span kind package detail) with
  | error refusal =>
    rw [hattempt] at h
    cases h
  | ok answer =>
    rw [hattempt] at h
    unfold attempt at hattempt
    obtain ⟨_, -, hattempt⟩ := bind_eq_ok hattempt
    obtain ⟨_, -, hattempt⟩ := bind_eq_ok hattempt
    cases hattempt
    cases h
    exact List.getElem?_concat_length

/-- **A handle once returned is good from then on.** -/
theorem handles_of_returned {span : Span} {kind : ByteKind} {package : PackageId}
    {detail : SymbolDetail} (hkeeps : ∀ what ∈ whats, what.keepsEvidence)
    (h : (.symbol span kind package detail, .ok (.handle number handle)) ∈
      whats.zip (s.steps whats).1) : (s.steps whats).2.handles[number]? = some handle := by
  obtain ⟨before, after, rfl, hanswer⟩ := exists_of_mem_zip h
  have hafter := (List.forall_mem_cons.1 (List.forall_mem_append.1 hkeeps).2).2
  -- It is there after its step, and the list of handles only grows from then on.
  rw [steps_append, steps]
  refine steps_induction (P := fun t => t.handles[number]? = some handle) ?_ hafter
    (handles_of_answered_symbol hanswer)
  intro t what u heffect hwhat hhandle
  obtain ⟨hlt, rfl⟩ := List.getElem?_eq_some_iff.1 hhandle
  exact List.prefix_iff_getElem?.1 (heffect.handles_prefix hwhat) number hlt

/-- An attachment succeeds wherever there is a ledger and the handle is good. -/
theorem attempt_attach_of_get? {l : Ledger} {e : Evidence} (hphase : s.phase = .collecting l)
    (hhandle : s.handles[number]? = some handle)
    (hget : l.symbols.get? handle.start = some e) (id : FunctionId) :
    let l' : Ledger := { l with symbols := l.symbols.put { e with function := some id } }
    l.attach handle id = .ok l' ∧
      s.attempt (.attach number id) = .ok (.attached, { s with phase := .collecting l' }) := by
  intro l'
  have hattach : l.attach handle id = .ok l' := Ledger.attach_eq_ok_iff.2 ⟨e, hget, rfl⟩
  have hledger : s.requireLedger = .ok l := by
    unfold requireLedger
    rw [hphase]
  refine ⟨hattach, ?_⟩
  unfold attempt
  simp only [hledger, hhandle]
  show (orRefuse (l.attach handle id) >>= _) = _
  rw [hattach]
  rfl

/-- An attachment that succeeds wrote the owner of an entry, and nothing else. -/
theorem attach_of_attempt_eq_ok {reply : Reply}
    (h : s.attempt (.attach number id) = .ok (reply, t)) :
    ∃ l l' handle e, s.phase = .collecting l ∧ s.handles[number]? = some handle ∧
      l.symbols.get? handle.start = some e ∧
      l' = { l with symbols := l.symbols.put { e with function := some id } } ∧
      t = { s with phase := .collecting l' } := by
  unfold attempt at h
  obtain ⟨l, hledger, h⟩ := bind_eq_ok h
  split at h
  · cases h
  · next handle hhandle =>
    obtain ⟨_, hattach, h⟩ := bind_eq_ok h
    cases h
    obtain ⟨e, hget, rfl⟩ := Ledger.attach_eq_ok_iff.1 (eq_ok_of_orRefuse hattach)
    exact ⟨l, _, handle, e, phase_of_requireLedger hledger, hhandle, hget, rfl, rfl⟩

/-! ### Owners -/

/-- The address of the symbol that a step attaches, and the function. -/
def attached? (s : Session) (what : Step) : Option (Address × FunctionId) :=
  match what, (s.step what).1 with
  | .attach number id, .ok _ => s.handles[number]?.map fun handle => (handle.start, id)
  | _, _ => none

/-- The attachments that the steps make, in order. -/
def attachments (s : Session) : List Step → List (Address × FunctionId)
  | [] => []
  | what :: rest => (s.attached? what).toList ++ (s.step what).2.attachments rest

/-- The function to which a symbol is attached last. -/
def lastAttached (made : List (Address × FunctionId)) (x : Address) : Option FunctionId :=
  (made.filter (·.1 = x)).getLast?.map (·.2)

/-- A later attachment counts before an earlier one. -/
theorem lastAttached_append (made later : List (Address × FunctionId)) (x : Address) :
    lastAttached (made ++ later) x = (lastAttached later x).or (lastAttached made x) := by
  unfold lastAttached
  rw [List.filter_append, List.getLast?_append]
  cases (later.filter (·.1 = x)).getLast? <;> rfl

theorem attached?_of_attachesNothing (hnot : what.attachesNothing) : s.attached? what = none := by
  cases what with
  | attach => cases hnot
  | _ => rfl

/-- No step changes the policy of the symbol table but one that throws the evidence away. -/
theorem policy_of_effect (h : Effect s what t) (hkeeps : what.keepsEvidence) :
    t.phase.ledger.symbols.policy = s.phase.ledger.symbols.policy := by
  obtain ⟨hsymbols, -⟩ | ⟨e, outcome, -, hinsert, -⟩ | ⟨_, _, _, e, -, -, -, hsymbols, -⟩ :=
    h.symbols_cases hkeeps
  · rw [hsymbols]
  · exact Store.policy_of_insert hinsert
  · rw [hsymbols]
    rfl

/-- Attached symbols get the function as their owner, and no other step changes owners. -/
theorem owner?_step (hkeeps : what.keepsEvidence)
    (hpolicy : s.phase.ledger.symbols.policy ≠ .replace) (x : Address) :
    (s.step what).2.phase.ledger.symbols.owner? x =
      (lastAttached (s.attached? what).toList x).or (s.phase.ledger.symbols.owner? x) := by
  have heffect := effect_step s what
  by_cases hnot : what.attachesNothing = true
  · rw [attached?_of_attachesNothing hnot]
    obtain ⟨hsymbols, -⟩ | ⟨e, outcome, hfree, hinsert, -⟩ | ⟨_, _, _, _, rfl, -⟩ :=
      heffect.symbols_cases hkeeps
    · rw [hsymbols]
      rfl
    · rw [Store.owner?_insert hfree hpolicy hinsert]
      rfl
    · cases hnot
  -- An attachment; it may have been refused, and then it is not counted.
  · obtain ⟨number, id, rfl⟩ : ∃ number id, what = .attach number id := by
      cases what with
      | attach number id => exact ⟨number, id, rfl⟩
      | _ => exact absurd rfl hnot
    unfold attached? step
    cases hattempt : s.attempt (.attach number id) with
    | error refusal => rfl
    | ok answer =>
      obtain ⟨l, l', handle, e, hphase, hhandle, hget, rfl, hanswer⟩ :=
        attach_of_attempt_eq_ok hattempt
      dsimp only
      rw [hanswer, hhandle, hphase]
      show (l.symbols.put { e with function := some id }).owner? x =
        (lastAttached [(handle.start, id)] x).or (l.symbols.owner? x)
      rw [Store.owner?_put_owner hget]
      unfold lastAttached
      by_cases hx : handle.start = x
      · simp [hx]
      · simp [hx]

/-- **Where older entries stay, the owner of a symbol is the function that it was attached to
last.** -/
theorem owner?_steps (hkeeps : ∀ what ∈ whats, what.keepsEvidence)
    (hpolicy : s.phase.ledger.symbols.policy ≠ .replace) (x : Address) :
    (s.steps whats).2.phase.ledger.symbols.owner? x =
      (lastAttached (s.attachments whats) x).or (s.phase.ledger.symbols.owner? x) := by
  -- Induction on the steps, from the first one on; the later attachments count first.
  induction whats generalizing s with
  | nil => rfl
  | cons what rest ih =>
    obtain ⟨hwhat, hrest⟩ := List.forall_mem_cons.1 hkeeps
    have hpolicy' : (s.step what).2.phase.ledger.symbols.policy ≠ .replace := by
      rw [policy_of_effect (effect_step s what) hwhat]
      exact hpolicy
    rw [attachments, lastAttached_append, Option.or_assoc, ← owner?_step hwhat hpolicy]
    exact ih hrest hpolicy'

/-! ### Handles and attachments in a session -/

theorem handled_of_steps (hkeeps : ∀ what ∈ whats, what.keepsEvidence) (hs : s.Handled) :
    (s.steps whats).2.Handled :=
  steps_induction (fun _ _ _ heffect hwhat ht => ht.effect heffect hwhat) hkeeps hs

/-- **Handles of symbols stay good, and attachments are harmless.**  A session without evidence
takes any steps but those that throw the evidence away.

* A handle that a step returned refers to an entry from then on.  While evidence is collected, the
  symbol can be attached to any function, which changes the owner of that entry and nothing else.
* The session without its attachments answers all other steps alike, and comes to the same but for
  the owners of symbols, with the same symbol coverage and the same rulings.
* Unless newer symbols take the place of older ones, the owner of each symbol is the function that
  it was attached to last. -/
theorem handles_stay_good_and_attachments_harmless (run : Run) (whats : List Step)
    (hkeeps : ∀ what ∈ whats, what.keepsEvidence) :
    let s := start run
    let t := (s.steps whats).2
    let plain := s.steps (whats.filter (·.attachesNothing))
    (∀ span kind package detail number handle,
      (.symbol span kind package detail, .ok (.handle number handle)) ∈
        whats.zip (s.steps whats).1 →
      ∃ e, t.phase.ledger.symbols.get? handle.start = some e ∧
        ∀ l id, t.phase = .collecting l → ∃ l', l.attach handle id = .ok l' ∧
          t.step (.attach number id) = (.ok .attached, { t with phase := .collecting l' }) ∧
          l'.pcTable = l.pcTable ∧ l'.debugInfo = l.debugInfo ∧
          l'.symbols.policy = l.symbols.policy ∧
          ∀ x, l'.symbols.get? x = if x = handle.start
            then some { e with function := some id } else l.symbols.get? x) ∧
    (plain.1 = s.answersTo (·.attachesNothing) whats ∧ plain.2 = t.unattached ∧
      plain.2.phase.symbolCoverage? = t.phase.symbolCoverage? ∧
      ∀ a a', t.phase = .arbitrating a → plain.2.phase = .arbitrating a' → a'.rule = a.rule) ∧
    (run.config.spaces.symbol ≠ .replace → ∀ e ∈ t.phase.ledger.symbols.entries,
      e.function = lastAttached (s.attachments whats) e.start) := by
  intro s t plain
  refine ⟨?_, ?_, ?_⟩
  · intro span kind package detail number handle hmem
    have hhandle : t.handles[number]? = some handle := handles_of_returned hkeeps hmem
    have hhandled : t.Handled := handled_of_steps hkeeps fun handle hnone => by cases hnone
    have hsome := hhandled handle (List.mem_of_getElem? hhandle)
    obtain ⟨e, hget⟩ := Option.isSome_iff_exists.1 hsome
    refine ⟨e, hget, ?_⟩
    intro l id hphase
    -- While evidence is collected the ledger is the one of the session.
    rw [hphase] at hget
    obtain ⟨hattach, hattempt⟩ := attempt_attach_of_get? hphase hhandle hget id
    refine ⟨_, hattach, ?_, rfl, rfl, rfl, ?_⟩
    · unfold step
      rw [hattempt]
    · intro x
      have hstart : e.start = handle.start := Store.start_of_get? hget
      have hstart' : ({ e with function := some id } : Evidence).start = handle.start := hstart
      rw [Store.get?_put, hstart']
      exact if_congr eq_comm rfl rfl
  · have hplain : plain = (s.answersTo (·.attachesNothing) whats, t.unattached) :=
      steps_unattached s whats
    rw [hplain]
    refine ⟨rfl, rfl, t.phase.symbolCoverage?_unattached, ?_⟩
    -- A ruling reads the symbol coverage, which is the same, and the function.
    intro a a' hphase hphase'
    have hphase'' : t.phase.unattached = .arbitrating a' := hphase'
    rw [hphase] at hphase''
    cases hphase''
    rfl
  · intro hpolicy e he
    -- In the beginning there are no owners.
    have howner : t.phase.ledger.symbols.owner? e.start =
        (lastAttached (s.attachments whats) e.start).or none :=
      owner?_steps (s := s) hkeeps hpolicy e.start
    have hget : t.phase.ledger.symbols.get? e.start = some e :=
      Store.get?_eq_some_iff.2 ⟨he, rfl⟩
    unfold Store.owner? at howner
    rw [hget, Option.or_none] at howner
    exact howner

/-- A symbol is attached, widened after the symbol table was frozen and opened again, and attached
anew by its second handle.  The finding that clashes with it is refused either way. -/
theorem handles_stay_good_and_attachments_harmless_of_widened :
    let run := Run.start 4096 none default
    let s := Session.start run
    let before : List Step := [.addPackage "p", .addFunction "f" ⟨0⟩ .function "",
      .addFunction "g" ⟨0⟩ .function "", .symbol ⟨32, 8⟩ .text ⟨0⟩ ⟨"code"⟩]
    let after : List Step := [.freeze, .reopen, .symbol ⟨32, 16⟩ .text ⟨0⟩ ⟨"code"⟩,
      .attach 1 ⟨1⟩, .freeze, .finding ⟨0⟩ ⟨⟨40, 4⟩, default⟩]
    let whats := before ++ .attach 0 ⟨0⟩ :: after
    let t := (s.steps whats).2
    let plain := s.steps (before ++ after.filter (·.attachesNothing))
    (∀ what ∈ whats, what.keepsEvidence) ∧ run.config.spaces.symbol ≠ .replace ∧
      (.symbol ⟨32, 8⟩ .text ⟨0⟩ ⟨"code"⟩, .ok (.handle 0 ⟨32⟩)) ∈ whats.zip (s.steps whats).1 ∧
      plain.1 = s.answersTo (·.attachesNothing) whats ∧
      plain.2.phase.ledger.symbols.owner? 32 = none ∧
      ∃ e ∈ t.phase.ledger.symbols.entries, e.part = ⟨⟨32, 16⟩, .text⟩ ∧ e.function = some ⟨1⟩ := by
  intro run s before after whats t plain
  have hkeeps : ∀ what ∈ whats, what.keepsEvidence := by decide
  have hpolicy : run.config.spaces.symbol ≠ .replace := by decide
  obtain ⟨hhandles, ⟨hanswers, hplain, -⟩, howners⟩ :=
    handles_stay_good_and_attachments_harmless run whats hkeeps
  have hreturned : (.symbol ⟨32, 8⟩ .text ⟨0⟩ ⟨"code"⟩, .ok (.handle 0 ⟨32⟩)) ∈
      whats.zip (s.steps whats).1 := by
    apply List.mem_of_getElem? (i := 3)
    unfold whats s run before after
    cbv
  have hmade : s.attachments whats = [(32, ⟨0⟩), (32, ⟨1⟩)] := by
    unfold whats s run before after
    cbv
  have hparts : t.phase.ledger.symbols.parts = [⟨⟨32, 16⟩, .text⟩] := by
    unfold t whats s run before after
    cbv
  have hfree : plain.2.phase.ledger.symbols.owner? 32 = none := by
    unfold plain s run before after
    cbv
  refine ⟨hkeeps, hpolicy, hreturned, hanswers, hfree, ?_⟩
  obtain ⟨e, hget, -⟩ := hhandles _ _ _ _ _ _ hreturned
  obtain ⟨he, hstart⟩ := Store.get?_eq_some_iff.1 hget
  have hpart : e.part ∈ t.phase.ledger.symbols.parts := List.mem_map_of_mem he
  rw [hparts, List.mem_singleton] at hpart
  have howner := howners hpolicy e he
  rw [hstart, hmade] at howner
  exact ⟨e, he, hpart, howner⟩

end Session

end ByteCensus
