import Mathlib.Data.List.Forall2
import Mathlib.Logic.Relation
import ByteCensus.Proofs.Ingest.Task

/-!
# A batch is rulings, one after another

Whatever a batch does to a program, it does by rulings on single findings: each function
afterwards comes from the one before by a number of them (`Program.rulings_ingest`).  This holds
of batches that end in an error as well, and for both ways of going through the functions; only
the number of rulings depends on that.

So what a ruling keeps of a function, a batch keeps of all functions
(`Program.forall_functions_ingest`).
-/

namespace ByteCensus

open Relation (ReflTransGen)

/-- A ruling on some finding makes the function `g` of `f`. -/
def Arbiter.Rules (a : Arbiter) (f g : Program.Function) : Prop :=
  ∃ finding ruling, a.rule f finding = .ok (ruling, g)

variable {a : Arbiter} {policy : ConflictPolicy} {b : Batch} {f g : Program.Function}

/-- A ruling changes nothing but the store, and that by inserting a finding that no symbol
overlaps. -/
theorem Arbiter.Rules.eq_or_insert (h : a.Rules f g) :
    g = f ∨ ∃ (finding : Finding) (outcome : InsertOutcome) (findings : Store),
      a.Admits finding.span ∧
      f.findings.insert (.ofFinding finding.span f.package f.id finding.detail) =
        .ok (outcome, findings) ∧
      g = { f with findings } := by
  obtain ⟨finding, ruling, hruled⟩ := h
  obtain ⟨outcome, findings, hverdict, hinsert, hrule⟩ | ⟨_, -, -, hrule⟩ | ⟨-, hrule⟩ |
      ⟨_, -, -, hrule⟩ := Arbiter.rule_cases a f finding
  all_goals
    rw [hrule] at hruled
    cases hruled
  · exact .inr ⟨finding, outcome, findings, Arbiter.admits_iff.2 hverdict, hinsert, rfl⟩
  · exact .inl rfl

/-- A store of data stays one. -/
theorem Arbiter.Rules.kind_eq (h : a.Rules f g) (hf : ∀ e ∈ f.findings.entries, e.kind = .data) :
    ∀ e ∈ g.findings.entries, e.kind = .data := by
  obtain rfl | ⟨_, _, _, -, hinsert, rfl⟩ := h.eq_or_insert
  · exact hf
  · exact Store.forall_mem_insert hinsert hf rfl fun _ hkept => hkept

theorem Arbiter.Rules.id_eq (h : a.Rules f g) : g.id = f.id := by
  obtain rfl | ⟨_, _, _, -, -, rfl⟩ := h.eq_or_insert <;> rfl

theorem Arbiter.Rules.policy_eq (h : a.Rules f g) : g.findings.policy = f.findings.policy := by
  obtain rfl | ⟨_, _, _, -, hinsert, rfl⟩ := h.eq_or_insert
  · rfl
  · exact Store.policy_of_insert hinsert

/-! ### Tasks -/

namespace Task

/-- A step of a task is one ruling at most. -/
theorem rulings_step (t : Task) :
    ReflTransGen a.Rules t.function (t.step a policy).function := by
  obtain ⟨-, hstep⟩ |
      ⟨finding, _, -, ⟨ruling, g, hrule, hstep⟩ | ⟨_, -, hstep⟩ | ⟨_, _, _, -, hstep⟩⟩ :=
    step_cases a policy t
  · rw [hstep]
  · rw [hstep]
    exact .single ⟨finding, ruling, hrule⟩
  · rw [hstep]
  · rw [hstep]

/-- A task as a whole is rulings on its function, one after another. -/
theorem rulings_finish (f : Program.Function) (findings : List Finding) :
    ReflTransGen a.Rules f ((ofFindings f findings).finish a policy).function := by
  apply finish_induction (motive := fun t => ReflTransGen a.Rules f t.function)
  · exact .refl
  · intro t ht
    exact ht.trans (rulings_step t)

end Task

/-! ### Batches -/

namespace Program

theorem rulings_refl (functions : List Function) :
    List.Forall₂ (ReflTransGen a.Rules) functions functions :=
  List.forall₂_same.2 fun _ _ => .refl

theorem rulings_ingestEach (functions : List Function) :
    List.Forall₂ (ReflTransGen a.Rules) functions (ingestEach a policy b functions).1 := by
  induction functions with
  | nil => exact .nil
  | cons f rest ih =>
    rw [ingestEach]
    cases b.find? f.id with
    | none => exact .cons .refl ih
    | some findings => exact .cons (Task.rulings_finish f findings) ih

/-- In turn, the functions up to the first final report are ruled on. -/
theorem rulings_ingestInTurn (functions : List Function) :
    List.Forall₂ (ReflTransGen a.Rules) functions (ingestInTurn a policy b functions).1 := by
  induction functions with
  | nil => exact .nil
  | cons f rest ih =>
    rw [ingestInTurn]
    cases b.find? f.id with
    | none => exact .cons .refl ih
    | some findings =>
      dsimp only
      split
      -- Behind a final report no function is touched.
      · exact .cons (Task.rulings_finish f findings) (rulings_refl rest)
      · exact .cons (Task.rulings_finish f findings) ih

/-- Taking in a batch rules on each function's findings, and changes nothing else. -/
theorem rulings_ingest (p : Program) (config : IngestConfig) :
    List.Forall₂ (ReflTransGen a.Rules) p.functions (p.ingest a config b).2.functions ∧
      (p.ingest a config b).2.packages = p.packages ∧
      (p.ingest a config b).2.findingPolicy = p.findingPolicy := by
  unfold ingest
  split
  · exact ⟨rulings_refl p.functions, rfl, rfl⟩
  · refine ⟨?_, rfl, rfl⟩
    dsimp only
    split
    · exact rulings_ingestEach p.functions
    · exact rulings_ingestInTurn p.functions

/-- What a ruling keeps of a function, a batch keeps of all functions. -/
theorem forall_functions_ingest {P : Function → Prop}
    (hrule : ∀ f g, a.Rules f g → P f → P g) {p : Program} {config : IngestConfig}
    (h : ∀ f ∈ p.functions, P f) : ∀ f ∈ (p.ingest a config b).2.functions, P f := by
  -- Induction on the rulings on one function.
  have hrulings (f g : Function) (hfg : ReflTransGen a.Rules f g) (hf : P f) : P g := by
    induction hfg with
    | refl => exact hf
    | tail _ hlast ih => exact hrule _ _ hlast ih
  intro g hg
  obtain ⟨hall, -, -⟩ := rulings_ingest (a := a) (b := b) p config
  obtain ⟨i, hi, rfl⟩ := List.mem_iff_getElem.1 hg
  have hlen := hall.length_eq
  exact hrulings _ _ (hall.get (by omega) hi) (h _ (List.getElem_mem _))

end Program

end ByteCensus
