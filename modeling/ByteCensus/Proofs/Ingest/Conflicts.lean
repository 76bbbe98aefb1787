import ByteCensus.Proofs.Evolution
import ByteCensus.Proofs.Ingest.Collect

/-!
# Collecting reports every conflict once, in order

The findings of a batch can be listed in the order in which a program takes them in: function by
function, and for each of them by address and size (`Program.findingsInOrder`).  As long as no two
functions have the same handle this is a rearrangement of the batch, sorted by function, address and
size (`Program.perm_findingsInOrder`, `Program.pairwise_findingsInOrder`).

Where all functions take findings, collecting reports the conflicts of this list, each one in its
place, and rules on all other findings.  Functions of a session take findings unless their stores
reject duplicates, since nothing but data ever gets into them; `Session.collect_reports_conflicts`
puts this together.
-/

namespace ByteCensus

variable {a : Arbiter} {b : Batch}

/-! ### The findings of a batch -/

namespace Batch

/-- By function, then by address, then by size. -/
def InOrder (x y : FunctionId × Finding) : Prop :=
  x.1.index < y.1.index ∨ x.1 = y.1 ∧ Task.Precedes x.2 y.2

theorem findings_eq (b : Batch) :
    b.findings = (b.groups.map (·.1)).flatMap fun id => (b.findingsOf id).map (id, ·) := by
  rw [List.flatMap_map]
  apply List.flatMap_congr
  intro group hgroup
  rw [findingsOf, find?_of_mem hgroup]
  rfl

end Batch

/-! ### The order of a program -/

theorem Task.pairwise_arrange (findings : List Finding) :
    (Task.arrange findings).Pairwise Task.Precedes := by
  refine (List.pairwise_mergeSort ?_ ?_ findings).imp (by simp)
  · simpa using fun x y z => Task.Precedes.trans
  · simpa using Task.precedes_total

/-- Lists without repetitions give the same to a function that tells apart only what both have. -/
theorem perm_flatMap_of_subset {α β : Type} [DecidableEq α] {xs ys : List α} {F : α → List β}
    (hxs : xs.Nodup) (hys : ys.Nodup) (hsub : ys ⊆ xs) (hout : ∀ x ∈ xs, x ∉ ys → F x = []) :
    (xs.flatMap F).Perm (ys.flatMap F) := by
  -- What is in `xs` alone gives nothing, so it can be dropped.
  have hfilter : (xs.filter (· ∈ ys)).flatMap F = xs.flatMap F := by
    clear hxs hsub
    induction xs with
    | nil => rfl
    | cons x rest ih =>
      obtain ⟨hx, hrest⟩ := List.forall_mem_cons.1 hout
      by_cases hmem : x ∈ ys
      · rw [List.filter_cons, if_pos (decide_eq_true hmem), List.flatMap_cons, ih hrest,
          List.flatMap_cons]
      · rw [List.filter_cons, if_neg (by simpa using hmem), ih hrest, List.flatMap_cons, hx hmem,
          List.nil_append]
  -- What is left are the elements of `ys`, each once.
  have hperm : (xs.filter (· ∈ ys)).Perm ys := by
    rw [List.perm_ext_iff_of_nodup (hxs.sublist List.filter_sublist) hys]
    intro x
    rw [List.mem_filter, decide_eq_true_eq]
    exact ⟨fun h => h.2, fun h => ⟨hsub h, h⟩⟩
  rw [← hfilter]
  exact hperm.flatMap_right F

namespace Program

variable {p : Program}

/-- The findings of a batch in the order in which a program takes them in. -/
def findingsInOrder (p : Program) (b : Batch) : List (FunctionId × Finding) :=
  p.functions.flatMap fun f => (Task.arrange (b.findingsOf f.id)).map (f.id, ·)

theorem mem_findingsInOrder (hnumbered : p.Numbered)
    (hknown : ∀ group ∈ b.groups, (p.function? group.1).isSome) {x : FunctionId × Finding} :
    x ∈ p.findingsInOrder b ↔ x ∈ b.findings := by
  obtain ⟨id, finding⟩ := x
  rw [Batch.mem_findings]
  unfold findingsInOrder
  constructor
  · intro h
    obtain ⟨f, -, hx⟩ := List.mem_flatMap.1 h
    obtain ⟨finding', hmem, heq⟩ := List.mem_map.1 hx
    cases heq
    exact (Task.arrange_perm _).mem_iff.1 hmem
  · intro h
    obtain ⟨group, hgroup, hx⟩ := List.mem_flatMap.1 (Batch.mem_findings.2 h)
    obtain ⟨_, _, heq⟩ := List.mem_map.1 hx
    cases heq
    obtain ⟨f, hf⟩ := Option.isSome_iff_exists.1 (hknown group hgroup)
    have hid := hnumbered.id_eq hf
    refine List.mem_flatMap.2 ⟨f, mem_of_function? hf, List.mem_map.2 ⟨finding, ?_, ?_⟩⟩
    · rw [hid]
      exact (Task.arrange_perm _).mem_iff.2 h
    · rw [hid]

/-- The handles of functions ascend with their places, as long as there are enough handles. -/
theorem Numbered.pairwise_index (h : p.Numbered) (hcount : p.functions.length ≤ UInt32.size) :
    p.functions.Pairwise fun f g => f.id.index < g.id.index := by
  -- The handle of place `i` does not wrap around.
  have hindex (i : Nat) (hi : i < p.functions.length) : p.functions[i].id.index.toNat = i := by
    rw [h i _ (List.getElem?_eq_getElem hi)]
    exact UInt32.toNat_ofNat_of_lt' (Nat.lt_of_lt_of_le hi hcount)
  rw [List.pairwise_iff_getElem]
  intro i j hi hj hij
  rw [UInt32.lt_iff_toNat_lt, hindex i hi, hindex j hj]
  exact hij

/-- No two functions have the same handle then. -/
theorem Numbered.nodup_ids (h : p.Numbered) (hcount : p.functions.length ≤ UInt32.size) :
    (p.functions.map (·.id)).Nodup := by
  unfold List.Nodup
  rw [List.pairwise_map]
  apply (h.pairwise_index hcount).imp
  intro f g hlt heq
  rw [heq] at hlt
  exact UInt32.lt_irrefl _ hlt

/-- In the order of a program the findings are those of the batch. -/
theorem perm_findingsInOrder (hnumbered : p.Numbered)
    (hknown : ∀ group ∈ b.groups, (p.function? group.1).isSome)
    (hcount : p.functions.length ≤ UInt32.size) : (p.findingsInOrder b).Perm b.findings := by
  have hnodup : (p.functions.map (·.id)).Nodup := hnumbered.nodup_ids hcount
  have harranged : (p.findingsInOrder b).Perm
      ((p.functions.map (·.id)).flatMap fun id => (b.findingsOf id).map (id, ·)) := by
    rw [List.flatMap_map]
    exact List.Perm.flatMap_left _ fun f _ => (Task.arrange_perm _).map _
  refine harranged.trans ?_
  rw [b.findings_eq]
  apply perm_flatMap_of_subset hnodup b.nodup_functions
  · intro id hid
    obtain ⟨group, hgroup, rfl⟩ := List.mem_map.1 hid
    obtain ⟨f, hf⟩ := Option.isSome_iff_exists.1 (hknown group hgroup)
    exact List.mem_map.2 ⟨f, mem_of_function? hf, hnumbered.id_eq hf⟩
  -- Functions that the batch does not name have no findings.
  · intro id _ hnot
    rw [List.map_eq_nil_iff, Batch.findingsOf]
    cases hfind : b.find? id with
    | none => rfl
    | some findings =>
      exact absurd (List.mem_map.2 ⟨_, Batch.find?_eq_some_iff.1 hfind, rfl⟩) hnot

theorem pairwise_findingsInOrder (hnumbered : p.Numbered)
    (hcount : p.functions.length ≤ UInt32.size) :
    (p.findingsInOrder b).Pairwise Batch.InOrder := by
  unfold findingsInOrder
  rw [List.pairwise_flatMap]
  constructor
  -- Within one function.
  · intro f _
    rw [List.pairwise_map]
    exact (Task.pairwise_arrange _).imp fun h => .inr ⟨rfl, h⟩
  -- From one function to a later one.
  · apply (hnumbered.pairwise_index hcount).imp
    intro f g hlt x hx y hy
    obtain ⟨_, -, rfl⟩ := List.mem_map.1 hx
    obtain ⟨_, -, rfl⟩ := List.mem_map.1 hy
    exact .inl hlt

/-- The conflicts of the batch, in the order in which a program meets them. -/
theorem filterMap_findingsInOrder (p : Program) (a : Arbiter) (b : Batch) :
    (p.findingsInOrder b).filterMap (a.conflict? ·.2) =
      p.functions.flatMap fun f => (Task.arrange (b.findingsOf f.id)).filterMap a.conflict? := by
  unfold findingsInOrder
  rw [List.filterMap_flatMap]
  simp only [List.filterMap_map, Function.comp_def]

theorem exists_conflict_iff (hnumbered : p.Numbered)
    (hknown : ∀ group ∈ b.groups, (p.function? group.1).isSome) :
    (p.findingsInOrder b).filterMap (a.conflict? ·.2) ≠ [] ↔
      ∃ x ∈ b.findings, ∃ q ∈ a.symbolCoverage.parts,
        q.kind ≠ .data ∧ q.span.Overlaps x.2.span := by
  simp only [← Arbiter.conflict?_isSome_iff, ne_eq, List.filterMap_eq_nil_iff, not_forall,
    ← Option.isSome_iff_ne_none, exists_prop, mem_findingsInOrder hnumbered hknown]

/-- Collecting answers with the conflicts, if there are any. -/
theorem answer_collect_inOrder {threshold : UInt64}
    (hknown : ∀ group ∈ b.groups, (p.function? group.1).isSome)
    (htakes : ∀ f ∈ p.functions, f.TakesFindings) :
    let answer := (p.ingest a ⟨.collect, threshold⟩ b).1
    let conflicts := (p.findingsInOrder b).filterMap (a.conflict? ·.2)
    (conflicts = [] ∧ ∃ total, answer = .ok total) ∨
      conflicts ≠ [] ∧ answer = .error (.conflicts conflicts) := by
  dsimp only
  rw [filterMap_findingsInOrder]
  exact answer_collect hknown htakes

end Program

/-! ### Sessions -/

namespace Session

/-- The functions of a session take findings, unless their stores reject duplicates. -/
theorem takesFindings_steps {s : Session} {policy : DuplicatePolicy} {whats : List Step}
    (hnew : s.run.program = .empty policy)
    (hpolicy : ∀ f ∈ (s.steps whats).2.run.program.functions, f.findings.policy ≠ .reject) :
    ∀ f ∈ (s.steps whats).2.run.program.functions, f.TakesFindings := by
  obtain ⟨policy', hevolves⟩ := hasEvolved_steps hnew whats
  exact fun f hf => ⟨hpolicy f hf, hevolves.kind_of_empty hf⟩

/-- **Collecting reports every conflict once, in order.**  A session begins with an empty program
and takes any steps.  Then its program, whose stores do not reject duplicates, takes in a batch for
known functions by any arbiter, under the policy to collect and with any threshold.

* In the order in which the findings are taken in they are those of the batch, sorted by function,
  address and size, as long as there are enough handles for all functions.
* The answer is a list of conflicts iff some finding overlaps a symbol that is no data.
* That list has the conflicts of the findings in this order, each one with the first symbol that
  overlaps the finding and is no data.
* Without conflicts the answer is a tally.
* In each function all findings without a conflict are ruled on, one after the other. -/
theorem collect_reports_conflicts (s : Session) (policy : DuplicatePolicy) (whats : List Step)
    (a : Arbiter) (b : Batch) (threshold : UInt64) (hnew : s.run.program = .empty policy)
    (hpolicy : ∀ f ∈ (s.steps whats).2.run.program.functions, f.findings.policy ≠ .reject)
    (hknown : ∀ group ∈ b.groups, ((s.steps whats).2.run.program.function? group.1).isSome) :
    let p := (s.steps whats).2.run.program
    let after := p.ingest a ⟨.collect, threshold⟩ b
    let inOrder := p.findingsInOrder b
    (p.functions.length ≤ UInt32.size → inOrder.Perm b.findings ∧ inOrder.Pairwise Batch.InOrder) ∧
    ((∃ conflicts, after.1 = .error (.conflicts conflicts)) ↔
      ∃ x ∈ b.findings, ∃ q ∈ a.symbolCoverage.parts,
        q.kind ≠ .data ∧ q.span.Overlaps x.2.span) ∧
    (∀ conflicts, after.1 = .error (.conflicts conflicts) →
      conflicts = inOrder.filterMap (a.conflict? ·.2)) ∧
    ((∀ conflicts, after.1 ≠ .error (.conflicts conflicts)) → ∃ total, after.1 = .ok total) ∧
    ∀ (i : Nat) (f : Program.Function), p.functions[i]? = some f →
      ∃ g, after.2.functions[i]? = some g ∧
        a.RuledInTurn f ((Task.arrange (b.findingsOf f.id)).filter fun finding =>
          (a.conflict? finding).isNone) g := by
  intro p after inOrder
  obtain ⟨policy', hevolves⟩ := hasEvolved_steps hnew whats
  have hnumbered : p.Numbered := hevolves.numbered_of_empty
  have htakes : ∀ f ∈ p.functions, f.TakesFindings := takesFindings_steps hnew hpolicy
  have hsome := Program.exists_conflict_iff (a := a) hnumbered hknown
  -- No other answer is left, since the stores refuse nothing.
  have hanswer : (inOrder.filterMap (a.conflict? ·.2) = [] ∧ ∃ total, after.1 = .ok total) ∨
      inOrder.filterMap (a.conflict? ·.2) ≠ [] ∧
        after.1 = .error (.conflicts (inOrder.filterMap (a.conflict? ·.2))) :=
    Program.answer_collect_inOrder hknown htakes
  refine ⟨?_, ?_, ?_, ?_, ?_⟩
  · intro hcount
    exact ⟨Program.perm_findingsInOrder hnumbered hknown hcount,
      Program.pairwise_findingsInOrder hnumbered hcount⟩
  · rw [← hsome]
    rcases hanswer with ⟨hnone, total, hok⟩ | ⟨hne, herror⟩
    · refine iff_of_false ?_ (not_not.2 hnone)
      rintro ⟨conflicts, h⟩
      rw [hok] at h
      cases h
    · exact iff_of_true ⟨_, herror⟩ hne
  · intro conflicts h
    rcases hanswer with ⟨-, total, hok⟩ | ⟨-, herror⟩
    · rw [hok] at h
      cases h
    · rw [herror] at h
      cases h
      rfl
  · intro hnot
    rcases hanswer with ⟨-, hok⟩ | ⟨-, herror⟩
    · exact hok
    · exact absurd herror (hnot _)
  · intro i f hf
    refine ⟨a.handAll f (Task.arrange (b.findingsOf f.id)), ?_, ?_⟩
    · show (p.ingest a ⟨.collect, threshold⟩ b).2.functions[i]? = _
      rw [Program.functions_collect hknown htakes, List.getElem?_map, hf]
      rfl
    · exact (htakes f (List.mem_of_getElem? hf)).ruledInTurn _

/-- Two functions have findings in conflict, one of them two at the same address. -/
theorem collect_reports_conflicts_of_two_functions :
    let symbols := ((Store.empty .keepFirst).put (.ofSymbol ⟨32, 16⟩ .text ⟨0⟩ ⟨"code"⟩)).put
      (.ofSymbol ⟨40, 32⟩ .data ⟨0⟩ ⟨"table"⟩)
    let a := Ledger.freeze { Ledger.empty default with symbols }
    let s := Session.start (.start 4096 none default)
    let whats : List Step := [.addPackage "p", .addFunction "f" ⟨0⟩ .function "",
      .addFunction "g" ⟨0⟩ .function ""]
    let b := Batch.ofList [(⟨1⟩, [⟨⟨80, 4⟩, default⟩, ⟨⟨44, 8⟩, default⟩]),
      (⟨0⟩, [⟨⟨36, 8⟩, default⟩, ⟨⟨60, 4⟩, default⟩, ⟨⟨36, 2⟩, default⟩])]
    let p := (s.steps whats).2.run.program
    let conflicts : List Conflict :=
      [⟨⟨36, 2⟩, .text, .data⟩, ⟨⟨36, 8⟩, .text, .data⟩, ⟨⟨44, 8⟩, .text, .data⟩]
    s.run.program = .empty .keepFirst ∧ (∀ f ∈ p.functions, f.findings.policy ≠ .reject) ∧
      (∀ group ∈ b.groups, (p.function? group.1).isSome) ∧
      (p.ingest a ⟨.collect, 2⟩ b).1 = .error (.conflicts conflicts) ∧
      conflicts = (p.findingsInOrder b).filterMap (a.conflict? ·.2) := by
  intro symbols a s whats b p conflicts
  have hnew : s.run.program = .empty .keepFirst := rfl
  have hpolicy : ∀ f ∈ p.functions, f.findings.policy ≠ .reject := by decide
  have hknown : ∀ group ∈ b.groups, (p.function? group.1).isSome := by decide
  have hanswer : (p.ingest a ⟨.collect, 2⟩ b).1 = .error (.conflicts conflicts) := by
    unfold p a b
    decide_cbv
  obtain ⟨-, -, hconflicts, -⟩ :=
    collect_reports_conflicts s .keepFirst whats a b 2 hnew hpolicy hknown
  exact ⟨hnew, hpolicy, hknown, hanswer, hconflicts conflicts hanswer⟩

end Session

end ByteCensus
