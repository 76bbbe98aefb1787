import ByteCensus.Proofs.Evolution
import ByteCensus.Proofs.History
import ByteCensus.Proofs.Ingest.Collect
import ByteCensus.Proofs.Ingest.Policies

/-!
# Stored extents are the greatest that the symbol table admits

A store that keeps older entries widens one where a larger finding starts at the same address.  So
of all findings at an address that no symbol overlaps the greatest decides, next to the entry that
was there (`Arbiter.sizesAt`), and it does not matter in which order they came
(`Program.Function.KeepsData.isGreatestOf_handAll`).

Batches in which nothing ends a task early are such findings one after the other
(`Program.TakesIn.functions_eq`).  Hence the extents depend on the findings only, and not on the
batches that they came in: `Program.stored_extents_greatest`.
-/

namespace ByteCensus

/-! ### Extents -/

namespace Store

variable {s s' : Store} {e : Evidence} {x : Address}

/-- The size of the entry with that start. -/
def extent? (s : Store) (start : Address) : Option UInt64 := (s.get? start).map (·.span.size)

/-- Writing an entry sets the extent at its start and at no other address. -/
theorem extent?_put (s : Store) (e : Evidence) (x : Address) :
    (s.put e).extent? x = if e.start = x then some e.span.size else s.extent? x := by
  unfold extent?
  rw [get?_put]
  split <;> rfl

/-- Where older entries stay, the larger size wins. -/
theorem extent?_of_insert {outcome : InsertOutcome} (hpolicy : s.policy = .keepFirst)
    (h : s.insert e = .ok (outcome, s')) :
    s'.extent? x = if e.start = x then
      some ((s.extent? x).elim e.span.size fun n => if n < e.span.size then e.span.size else n)
      else s.extent? x := by
  obtain ⟨hfree, -, rfl⟩ | ⟨kept, hkept, ⟨hreplace, -, -⟩ | ⟨-, -, ⟨hle, -, rfl⟩ |
      ⟨hlt, -, rfl⟩⟩⟩ := insert_eq_ok h
  -- Nothing was there: the new entry is stored as it is.
  · rw [extent?_put]
    split
    · next hstart =>
      rw [extent?, ← hstart, hfree]
      rfl
    · rfl
  -- Newer entries do not replace older ones here.
  · rw [hpolicy] at hreplace
    cases hreplace
  -- The kept entry is no smaller, so nothing changes.
  · split
    · next hstart =>
      rw [extent?, ← hstart, hkept, Option.map_some, Option.elim_some,
        if_neg (UInt64.not_lt.2 hle)]
    · rfl
  -- The kept entry is widened to the new size.
  · rw [extent?_put]
    split
    · next hstart =>
      have hstart' : e.start = x := hstart
      rw [if_pos hstart', extent?, ← hstart', hkept, Option.map_some, Option.elim_some, if_pos hlt]
      rfl
    · next hstart =>
      have hstart' : ¬ e.start = x := hstart
      rw [if_neg hstart']

end Store

/-- The greatest one of the sizes, if there are any. -/
def IsGreatestOf (sizes : Set UInt64) : Option UInt64 → Prop
  | none => sizes = ∅
  | some n => IsGreatest sizes n

/-- There is one greatest size at most, and none only where there are no sizes. -/
theorem IsGreatestOf.unique {sizes : Set UInt64} {o o' : Option UInt64}
    (h : IsGreatestOf sizes o) (h' : IsGreatestOf sizes o') : o = o' := by
  cases o with
  | none =>
    cases o' with
    | none => rfl
    | some n' =>
      have hmem : n' ∈ sizes := h'.1
      rw [show sizes = ∅ from h] at hmem
      exact absurd hmem (Set.notMem_empty n')
  | some n =>
    cases o' with
    | none =>
      have hmem : n ∈ sizes := h.1
      rw [show sizes = ∅ from h'] at hmem
      exact absurd hmem (Set.notMem_empty n)
    | some n' => rw [UInt64.le_antisymm (h'.2 h.1) (h.2 h'.1)]

theorem IsGreatestOf.isSome_iff {sizes : Set UInt64} {o : Option UInt64}
    (h : IsGreatestOf sizes o) : o.isSome ↔ sizes.Nonempty := by
  cases o with
  | none =>
    rw [show sizes = ∅ from h]
    exact iff_of_false Bool.false_ne_true Set.not_nonempty_empty
  | some n => exact iff_of_true rfl ⟨n, h.1⟩

/-- One size more: the greatest is the new one if it passes the old greatest.  That is what the
store does on an insertion. -/
theorem IsGreatestOf.insert {sizes : Set UInt64} {o : Option UInt64} (h : IsGreatestOf sizes o)
    (n : UInt64) :
    IsGreatestOf (Insert.insert n sizes) (some (o.elim n fun m => if m < n then n else m)) := by
  cases o with
  | none =>
    rw [show sizes = ∅ from h]
    refine ⟨Set.mem_insert n ∅, ?_⟩
    rintro m (rfl | hm)
    · exact UInt64.le_refl _
    · exact absurd hm (Set.notMem_empty m)
  | some m =>
    show IsGreatest _ (if m < n then n else m)
    exact Store.isGreatest_insert h n

/-! ### One function -/

variable {a : Arbiter} {b : Batch} {f g : Program.Function} {finding : Finding} {x : Address}

namespace Arbiter

/-- The sizes there are for an entry of the function at an address: the one that it has, and those
of the findings there that no symbol overlaps. -/
def sizesAt (a : Arbiter) (f : Program.Function) (findings : List Finding) (x : Address) :
    Set UInt64 :=
  {n | f.findings.extent? x = some n ∨
    ∃ finding ∈ findings, finding.span = ⟨x, n⟩ ∧ a.Admits finding.span}

/-- An admitted finding at the address adds its size to those there are. -/
theorem sizesAt_append_of_admits {findings : List Finding} (hstart : finding.span.start = x)
    (hadmits : a.Admits finding.span) :
    a.sizesAt f (findings ++ [finding]) x =
      insert finding.span.size (a.sizesAt f findings x) := by
  have hspan (n : UInt64) : finding.span = ⟨x, n⟩ ↔ n = finding.span.size := by
    rw [← hstart]
    exact ⟨fun h => by rw [h], fun h => by rw [h]⟩
  ext n
  simp only [sizesAt, Set.mem_ofPred_eq, Set.mem_insert_iff, List.mem_append, List.mem_singleton,
    or_and_right, exists_or, exists_eq_left, hspan, hadmits, and_true]
  rw [← or_assoc, or_comm]

/-- A finding that starts elsewhere, or that a symbol overlaps, adds no size. -/
theorem sizesAt_append_of_not {findings : List Finding}
    (hnot : ¬ (finding.span.start = x ∧ a.Admits finding.span)) :
    a.sizesAt f (findings ++ [finding]) x = a.sizesAt f findings x := by
  have hspan (n : UInt64) : ¬ (finding.span = ⟨x, n⟩ ∧ a.Admits finding.span) :=
    fun h => hnot ⟨by rw [h.1], h.2⟩
  ext n
  simp only [sizesAt, Set.mem_ofPred_eq, List.mem_append, List.mem_singleton, or_and_right,
    exists_or, exists_eq_left, hspan, or_false]

/-- The order of findings, and how often they come, does not matter. -/
theorem sizesAt_congr {findings findings' : List Finding}
    (h : ∀ finding, finding ∈ findings ↔ finding ∈ findings') :
    a.sizesAt f findings x = a.sizesAt f findings' x := by
  unfold sizesAt
  simp only [h]

/-- A finding that a symbol overlaps is not stored. -/
theorem handOver_of_not_admits (hnot : ¬ a.Admits finding.span) : a.handOver f finding = f := by
  rw [admits_iff] at hnot
  obtain ⟨_, _, hverdict, -, -⟩ | ⟨_, hverdict, -, -⟩ | ⟨-, hrule⟩ | ⟨_, -, -, hrule⟩ :=
    rule_cases a f finding
  · exact absurd hverdict hnot
  · exact absurd hverdict hnot
  · exact handOver_of_rule_ok hrule
  · exact handOver_of_rule_error hrule

end Arbiter

/-- The store of the function keeps older entries, and all of them are data. -/
structure Program.Function.KeepsData (f : Program.Function) : Prop where
  policy_eq : f.findings.policy = .keepFirst
  kind_eq : ∀ e ∈ f.findings.entries, e.kind = .data

namespace Program.Function.KeepsData

theorem takesFindings (h : f.KeepsData) : f.TakesFindings := by
  refine ⟨?_, h.kind_eq⟩
  rw [h.policy_eq]
  exact DuplicatePolicy.noConfusion

theorem rules (h : f.KeepsData) (hrules : a.Rules f g) : g.KeepsData :=
  ⟨hrules.policy_eq.trans h.policy_eq, hrules.kind_eq h.kind_eq⟩

theorem handOver (h : f.KeepsData) : (a.handOver f finding).KeepsData := by
  rcases a.handOver_eq_or_rules f finding with hsame | hrules
  · rw [hsame]
    exact h
  · exact h.rules hrules

theorem handAll (h : f.KeepsData) (findings : List Finding) : (a.handAll f findings).KeepsData := by
  induction findings generalizing f with
  | nil => exact h
  | cons finding rest ih => exact ih h.handOver

/-- A finding that no symbol overlaps is stored as if by itself. -/
theorem extent?_handOver (h : f.KeepsData) (hadmits : a.Admits finding.span) :
    (a.handOver f finding).findings.extent? x = if finding.span.start = x then
      some ((f.findings.extent? x).elim finding.span.size fun n =>
        if n < finding.span.size then finding.span.size else n)
      else f.findings.extent? x := by
  obtain ⟨outcome, findings, hinsert⟩ := Store.exists_insert_eq_ok
    (e := .ofFinding finding.span f.package f.id finding.detail)
    h.takesFindings.policy_ne h.kind_eq
  have hrule := Arbiter.rule_of_verdict_none (f := f) (Arbiter.admits_iff.1 hadmits)
  rw [hinsert] at hrule
  rw [Arbiter.handOver_of_rule_ok hrule]
  exact Store.extent?_of_insert h.policy_eq hinsert

/-- **Of all sizes there are for an entry, the greatest is stored.** -/
theorem isGreatestOf_handAll (h : f.KeepsData) (findings : List Finding) (x : Address) :
    IsGreatestOf (a.sizesAt f findings x) ((a.handAll f findings).findings.extent? x) := by
  -- The last finding is taken off: its store is the one that the earlier findings left.
  induction findings using List.reverseRecOn with
  | nil =>
    have hsizes : a.sizesAt f [] x = {n | f.findings.extent? x = some n} := by
      simp [Arbiter.sizesAt]
    rw [hsizes]
    show IsGreatestOf _ (f.findings.extent? x)
    cases f.findings.extent? x with
    | none => exact Set.eq_empty_of_forall_notMem fun n hn => nomatch hn
    | some m =>
      refine ⟨rfl, ?_⟩
      rintro n hn
      rw [Option.some.inj hn]
      exact UInt64.le_refl _
  | append_singleton findings finding ih =>
    rw [Arbiter.handAll_append]
    show IsGreatestOf _ ((a.handOver (a.handAll f findings) finding).findings.extent? x)
    -- What the store does with one more finding, the set of sizes does as well.
    by_cases hadmits : a.Admits finding.span
    · rw [(h.handAll findings).extent?_handOver hadmits]
      split
      · next hstart =>
        rw [Arbiter.sizesAt_append_of_admits hstart hadmits]
        exact ih.insert _
      · next hstart =>
        rw [Arbiter.sizesAt_append_of_not fun h => hstart h.1]
        exact ih
    · rw [Arbiter.handOver_of_not_admits hadmits,
        Arbiter.sizesAt_append_of_not fun h => hadmits h.2]
      exact ih

/-- Findings in another order, or some of them twice, leave the same extents: both are the greatest
of the same sizes. -/
theorem extent?_handAll_congr (h : f.KeepsData) {findings findings' : List Finding}
    (hsame : ∀ finding, finding ∈ findings ↔ finding ∈ findings') :
    (a.handAll f findings).findings.extent? x = (a.handAll f findings').findings.extent? x := by
  have hgreatest : IsGreatestOf (a.sizesAt f findings x) _ := h.isGreatestOf_handAll findings x
  rw [Arbiter.sizesAt_congr hsame] at hgreatest
  exact hgreatest.unique (h.isGreatestOf_handAll findings' x)

end Program.Function.KeepsData

/-! ### Batches -/

namespace Program

variable {p q : Program} {batches : List Batch} {id : FunctionId}

/-- The program takes in batches for known functions, one after the other, each with a
configuration of its own.  Under the policy to abort a batch has to be answered with a tally. -/
inductive TakesIn (a : Arbiter) : Program → List Batch → Program → Prop
  | nil (p : Program) : TakesIn a p [] p
  | cons {p q : Program} {b : Batch} {rest : List Batch} (config : IngestConfig)
      (hknown : ∀ group ∈ b.groups, (p.function? group.1).isSome)
      (hall : config.conflictPolicy = .collect ∨ ∃ total, (p.ingest a config b).1 = .ok total)
      (hrest : TakesIn a (p.ingest a config b).2 rest q) : TakesIn a p (b :: rest) q

/-- The size of the entry of a function with that start. -/
def extent? (p : Program) (id : FunctionId) (start : Address) : Option UInt64 :=
  (p.function? id).bind (·.findings.extent? start)

/-- A batch that is answered with a tally was taken in as if to collect. -/
theorem ingest_eq_collect {config : IngestConfig}
    (hall : config.conflictPolicy = .collect ∨ ∃ total, (p.ingest a config b).1 = .ok total) :
    (p.ingest a config b).2 = (p.ingest a ⟨.collect, config.parallelThreshold⟩ b).2 := by
  obtain ⟨policy, threshold⟩ := config
  cases policy with
  | collect => rfl
  | abort =>
    rcases hall with hcollect | ⟨total, hok⟩
    · cases hcollect
    · exact program_abort_eq_collect hok
        (((answers_agree p a b threshold threshold).eq_ok_iff total).1 hok)

/-- Batches hand each function its findings, each batch in order. -/
theorem TakesIn.functions_eq (h : TakesIn a p batches q)
    (hkeeps : ∀ f ∈ p.functions, f.KeepsData) :
    q.functions = p.functions.map fun f =>
      a.handAll f (batches.flatMap fun b => Task.arrange (b.findingsOf f.id)) := by
  induction h with
  | nil p => exact (List.map_id _).symm
  | @cons p q b rest config hknown hall _ ih =>
    have hfunctions : (p.ingest a config b).2.functions =
        p.functions.map fun f => a.handAll f (Task.arrange (b.findingsOf f.id)) := by
      rw [ingest_eq_collect hall]
      exact functions_collect hknown fun f hf => (hkeeps f hf).takesFindings
    -- The later batches go on from what this one left in each function.
    rw [hfunctions, List.forall_mem_map, List.map_map] at ih
    rw [ih fun f hf => (hkeeps f hf).handAll _]
    apply List.map_congr_left
    intro f _
    rw [Function.comp_apply, Arbiter.id_handAll, List.flatMap_cons, Arbiter.handAll_append]

theorem mem_flatMap_arrange {finding : Finding} :
    finding ∈ batches.flatMap (fun b => Task.arrange (b.findingsOf id)) ↔
      finding ∈ batches.flatMap (·.findingsOf id) := by
  simp only [List.mem_flatMap, (Task.arrange_perm _).mem_iff]

theorem mem_flatMap_findings {finding : Finding} :
    (id, finding) ∈ batches.flatMap Batch.findings ↔
      finding ∈ batches.flatMap (·.findingsOf id) := by
  simp only [List.mem_flatMap, Batch.mem_findings]

/-- What is handed to a function determines its extents, in whatever order. -/
theorem bind_extent?_congr {findings more : Function → List Finding}
    (hkeeps : ∀ f ∈ p.functions, f.KeepsData)
    (hsame : ∀ f, p.function? id = some f → ∀ finding, finding ∈ findings f ↔ finding ∈ more f)
    (x : Address) :
    ((p.function? id).bind fun f => (a.handAll f (findings f)).findings.extent? x) =
      (p.function? id).bind fun f => (a.handAll f (more f)).findings.extent? x := by
  apply Option.bind_congr
  intro f hf
  exact (hkeeps f (mem_of_function? hf)).extent?_handAll_congr (hsame f hf)

theorem TakesIn.function?_eq (h : TakesIn a p batches q)
    (hkeeps : ∀ f ∈ p.functions, f.KeepsData) (id : FunctionId) :
    q.function? id = (p.function? id).map fun f =>
      a.handAll f (batches.flatMap fun b => Task.arrange (b.findingsOf f.id)) := by
  unfold function?
  rw [h.functions_eq hkeeps, List.getElem?_map]

/-- For an extent the order within a batch does not matter. -/
theorem TakesIn.extent?_eq (h : TakesIn a p batches q)
    (hkeeps : ∀ f ∈ p.functions, f.KeepsData) (id : FunctionId) (x : Address) :
    q.extent? id x = (p.function? id).bind fun f =>
      (a.handAll f (batches.flatMap (·.findingsOf f.id))).findings.extent? x := by
  unfold extent?
  rw [h.function?_eq hkeeps, Option.bind_map]
  exact bind_extent?_congr hkeeps (fun _ _ _ => mem_flatMap_arrange) x

/-! ### One by one -/

/-- The program after a finding was handed over to its function. -/
def handOver (a : Arbiter) (p : Program) (x : FunctionId × Finding) : Program :=
  match p.function? x.1 with
  | none => p
  | some f => p.setFunction x.1 (a.handOver f x.2)

/-- A finding that is handed over changes the function it is for, and no other. -/
theorem function?_handOver (p : Program) (x : FunctionId × Finding) (id : FunctionId) :
    (p.handOver a x).function? id =
      (p.function? id).map fun f => if x.1 = id then a.handOver f x.2 else f := by
  unfold handOver
  by_cases hid : x.1 = id
  · subst hid
    simp only [if_pos]
    cases hf : p.function? x.1 with
    | none => exact hf
    | some f => exact List.getElem?_set_self (List.getElem?_eq_some_iff.1 hf).1
  · simp only [if_neg hid, Option.map_id_fun', id_eq]
    split
    · rfl
    -- Handles that differ say different places.
    · have hplace : x.1.index.toNat ≠ id.index.toNat := fun heq =>
        hid (congrArg FunctionId.mk (UInt32.toNat_inj.1 heq))
      exact List.getElem?_set_ne hplace

/-- Handing findings over one by one reaches each function with those that are for it. -/
theorem function?_foldl_handOver (xs : List (FunctionId × Finding)) (p : Program)
    (id : FunctionId) :
    (xs.foldl (handOver a) p).function? id =
      (p.function? id).map fun f => a.handAll f ((xs.filter (·.1 = id)).map (·.2)) := by
  induction xs generalizing p with
  | nil => exact Option.map_id'.symm
  | cons x rest ih =>
    rw [List.foldl_cons, ih, function?_handOver, Option.map_map]
    congr 1
    funext f
    rw [Function.comp_apply, List.filter_cons]
    by_cases hid : x.1 = id
    · rw [if_pos hid, if_pos (decide_eq_true hid), List.map_cons]
      rfl
    · rw [if_neg hid, if_neg (by simpa using hid)]

theorem mem_map_filter {xs : List (FunctionId × Finding)} {finding : Finding} :
    finding ∈ (xs.filter (·.1 = id)).map (·.2) ↔ (id, finding) ∈ xs := by
  simp

end Program

namespace Session

variable {s : Session}

/-- To rule on a finding is to hand it over. -/
theorem step_finding (hphase : s.phase = .arbitrating a) (x : FunctionId × Finding) :
    (s.step (.finding x.1 x.2)).2 = s.withProgram (s.run.program.handOver a x) := by
  unfold step Program.handOver
  rw [Arbiter.attempt_finding hphase, requireFunction]
  cases hf : s.run.program.function? x.1 with
  | none => rfl
  | some f =>
    dsimp only [Except.bind]
    cases hrule : a.rule f x.2 with
    | ok ruled =>
      rw [Arbiter.handOver_of_rule_ok hrule]
      rfl
    | error err =>
      rw [Arbiter.handOver_of_rule_error hrule, Program.setFunction_self hf]
      rfl

theorem steps_findings (hphase : s.phase = .arbitrating a) (xs : List (FunctionId × Finding)) :
    (s.steps (xs.map fun x => .finding x.1 x.2)).2 =
      s.withProgram (xs.foldl (Program.handOver a) s.run.program) := by
  induction xs generalizing s with
  | nil => rfl
  | cons x rest ih =>
    show ((s.step (.finding x.1 x.2)).2.steps _).2 = _
    rw [step_finding hphase]
    exact ih hphase

end Session

namespace Program

/-- **Stored extents are the greatest ones that the symbol table admits, whatever the batches.**
In a program whose stores keep older entries and hold nothing but data, batches for known functions
are taken in by one arbiter, each with a threshold of its own, and either to collect or with a tally
for an answer.

* A function has an entry at an address in the end iff it had one before, or some batch had a
  finding for it there that no symbol overlaps; and its size is the greatest of these.
* Other batches with the same findings leave the same extents.
* A session that rules on the same findings one by one, in any order, leaves the same extents, if
  functions are numbered by their places, as those of a session are. -/
theorem stored_extents_greatest (p q : Program) (a : Arbiter) (batches : List Batch)
    (hkeeps : ∀ f ∈ p.functions, f.KeepsData) (htaken : p.TakesIn a batches q) :
    (∀ id f, p.function? id = some f → ∃ g, q.function? id = some g ∧ ∀ x,
      let sizes := a.sizesAt f (batches.flatMap (·.findingsOf f.id)) x
      ((g.findings.get? x).isSome ↔ sizes.Nonempty) ∧
        ∀ e, g.findings.get? x = some e → IsGreatest sizes e.span.size) ∧
    (∀ batches' q', p.TakesIn a batches' q' →
      (∀ x, x ∈ batches'.flatMap Batch.findings ↔ x ∈ batches.flatMap Batch.findings) →
      ∀ id start, q'.extent? id start = q.extent? id start) ∧
    ∀ (s : Session) (xs : List (FunctionId × Finding)),
      s.phase = .arbitrating a → s.run.program = p → p.Numbered →
      (∀ x, x ∈ xs ↔ x ∈ batches.flatMap Batch.findings) →
      ∀ id start, (s.steps (xs.map fun x => .finding x.1 x.2)).2.run.program.extent? id start =
        q.extent? id start := by
  refine ⟨?_, ?_, ?_⟩
  · intro id f hf
    -- The sizes are those of the findings as they were handed over; sorting them changes no size.
    have hafter := htaken.function?_eq hkeeps id
    rw [hf] at hafter
    refine ⟨_, hafter, ?_⟩
    intro x sizes
    have hgreatest := (hkeeps f (mem_of_function? hf)).isGreatestOf_handAll (a := a)
      (batches.flatMap fun b => Task.arrange (b.findingsOf f.id)) x
    rw [Arbiter.sizesAt_congr fun _ => mem_flatMap_arrange] at hgreatest
    constructor
    · rw [← hgreatest.isSome_iff, Store.extent?, Option.isSome_map]
    · intro e he
      rw [Store.extent?, he] at hgreatest
      exact hgreatest
  -- Both extents are those of findings handed over, which are the same up to their order.
  · intro batches' q' htaken' hsame id x
    rw [htaken'.extent?_eq hkeeps, htaken.extent?_eq hkeeps]
    apply bind_extent?_congr hkeeps
    intro f _ finding
    rw [← mem_flatMap_findings, hsame, mem_flatMap_findings]
  · intro s xs hphase hprogram hnumbered hsame id x
    -- Likewise for the session, where the findings for one function are scattered over the list.
    rw [htaken.extent?_eq hkeeps, Session.steps_findings hphase, hprogram]
    show ((xs.foldl (handOver a) p).function? id).bind _ = _
    rw [function?_foldl_handOver, Option.bind_map]
    refine bind_extent?_congr hkeeps ?_ x
    intro f hf finding
    rw [mem_map_filter, hsame, hnumbered.id_eq hf, mem_flatMap_findings]

/-- One function has an entry already and a finding in conflict that would be the greatest at its
address; the other function widens its entry.  One batch collects, and the other one aborts. -/
theorem stored_extents_greatest_in_two_batches :
    let symbols := (Store.empty .keepFirst).put (.ofSymbol ⟨32, 16⟩ .text ⟨0⟩ ⟨"code"⟩)
    let a := Ledger.freeze { Ledger.empty default with symbols }
    let before := (Store.empty .keepFirst).put (.ofFinding ⟨64, 4⟩ ⟨0⟩ ⟨0⟩ default)
    let p : Program := ⟨[], [⟨⟨0⟩, "f", ⟨0⟩, .function, "", before⟩,
      ⟨⟨1⟩, "g", ⟨0⟩, .function, "", .empty .keepFirst⟩], .keepFirst⟩
    let b := Batch.ofList
      [(⟨0⟩, [⟨⟨64, 2⟩, default⟩, ⟨⟨28, 8⟩, default⟩, ⟨⟨28, 2⟩, default⟩]),
        (⟨1⟩, [⟨⟨96, 4⟩, default⟩])]
    let b' := Batch.ofList [(⟨1⟩, [⟨⟨96, 16⟩, default⟩, ⟨⟨96, 8⟩, default⟩])]
    let q := (p.ingest a ⟨.collect, 1⟩ b).2
    let r := (q.ingest a ⟨.abort, 4⟩ b').2
    let oneByOne : List Session.Step :=
      (b'.findings ++ b.findings).map fun x => .finding x.1 x.2
    p.Numbered ∧ (∀ f ∈ p.functions, f.KeepsData) ∧ p.TakesIn a [b, b'] r ∧
      (r.extent? ⟨0⟩ 64, r.extent? ⟨0⟩ 28, r.extent? ⟨1⟩ 96) = (some 4, some 2, some 16) ∧
      ∀ s : Session, s.phase = .arbitrating a → s.run.program = p →
        ∀ id start, (s.steps oneByOne).2.run.program.extent? id start = r.extent? id start := by
  intro symbols a before p b b' q r oneByOne
  have hnumbered : p.Numbered := by
    rintro (_ | _ | i) f hf
    · cases hf
      rfl
    · cases hf
      rfl
    · cases hf
  have hkeeps : ∀ f ∈ p.functions, f.KeepsData := by
    refine List.forall_mem_cons.2 ⟨⟨rfl, by decide⟩, List.forall_mem_cons.2 ⟨⟨rfl, by decide⟩, ?_⟩⟩
    exact List.forall_mem_nil _
  have htaken : p.TakesIn a [b, b'] r := by
    refine .cons ⟨.collect, 1⟩ (by decide) (.inl rfl) (.cons ⟨.abort, 4⟩ ?_ (.inr ?_) (.nil _))
    · unfold p a b b'
      decide_cbv
    · refine ⟨⟨1, 0, 0, 2, 0⟩, ?_⟩
      unfold p a b b'
      decide_cbv
  have hextents : (r.extent? ⟨0⟩ 64, r.extent? ⟨0⟩ 28, r.extent? ⟨1⟩ 96) =
      (some 4, some 2, some 16) := by
    unfold r q p a b b'
    decide_cbv
  obtain ⟨-, -, honebyone⟩ := stored_extents_greatest p r a [b, b'] hkeeps htaken
  refine ⟨hnumbered, hkeeps, htaken, hextents, ?_⟩
  intro s hphase hprogram
  apply honebyone s _ hphase hprogram hnumbered
  intro x
  simp only [List.mem_append, List.mem_flatMap, List.mem_cons, List.not_mem_nil, or_false,
    exists_eq_or_imp, exists_eq_left]
  exact or_comm

end Program

end ByteCensus
