import ByteCensus.Proofs.Ingest.Rulings
import ByteCensus.Proofs.Session

/-!
# How a program changes

A program only grows.  `Evolves` says so: each function stays in its place and changes by rulings
alone, and what is added behind begins with an empty store, numbered by its place.

Every step of a session that does not begin another program lets the program evolve, so every run
of such steps does (`Session.evolves_steps`).  What is known of all functions of a session then
comes from what a ruling keeps: `Function.Evolves.id_eq`, `Function.Evolves.policy_eq`, and
`Function.Evolves.keeps` for what a store holds.  In a program built from nothing a function has
the number of its place, and its store the policy of the program (`Evolves.numbered_of_empty`,
`Evolves.policy_of_empty`).
-/

namespace ByteCensus

open Relation (ReflTransGen)

/-! ### Functions -/

namespace Program

namespace Function

variable {f g : Function}

/-- The function `g` comes from `f` by rulings, each one of some arbiter. -/
def Evolves (f g : Function) : Prop := ReflTransGen (fun f g => ∃ a : Arbiter, a.Rules f g) f g

theorem Evolves.of_rulings {a : Arbiter} (h : ReflTransGen a.Rules f g) : f.Evolves g :=
  ReflTransGen.mono (fun _ _ hrules => ⟨a, hrules⟩) _ _ h

/-- What insertions into its store keep of a function lasts. -/
theorem Evolves.induction {P : Function → Prop} (h : f.Evolves g) (hf : P f)
    (hinsert : ∀ (f : Function) e outcome findings,
      f.findings.insert e = .ok (outcome, findings) → P f → P { f with findings }) : P g := by
  induction h with
  | refl => exact hf
  | tail _ hlast ih =>
    obtain ⟨a, hrules⟩ := hlast
    obtain rfl | ⟨_, outcome, findings, -, hok, rfl⟩ := hrules.eq_or_insert
    · exact ih
    · exact hinsert _ _ outcome findings hok ih

theorem Evolves.id_eq (h : f.Evolves g) : g.id = f.id := by
  apply h.induction (P := fun g => g.id = f.id) rfl
  intro f' e outcome findings _ hid
  exact hid

theorem Evolves.policy_eq (h : f.Evolves g) : g.findings.policy = f.findings.policy := by
  apply h.induction (P := fun g => g.findings.policy = f.findings.policy) rfl
  intro f' e outcome findings hinsert hpolicy
  exact (Store.policy_of_insert hinsert).trans hpolicy

/-- A store of data stays one. -/
theorem Evolves.kind_eq (h : f.Evolves g) (hf : ∀ e ∈ f.findings.entries, e.kind = .data) :
    ∀ e ∈ g.findings.entries, e.kind = .data := by
  induction h with
  | refl => exact hf
  | tail _ hlast ih =>
    obtain ⟨a, hrules⟩ := hlast
    exact hrules.kind_eq ih

/-- Where older entries stay, the store never gives up what it holds. -/
theorem Evolves.keeps {p : Part} (h : f.Evolves g) (hpolicy : f.findings.policy = .keepFirst)
    (hkeeps : f.findings.Keeps p) : g.findings.Keeps p := by
  -- The policy has to be carried along, since what is kept depends on it.
  have hboth : g.findings.policy = .keepFirst ∧ g.findings.Keeps p := by
    apply h.induction (P := fun g => g.findings.policy = .keepFirst ∧ g.findings.Keeps p)
      ⟨hpolicy, hkeeps⟩
    rintro f' e outcome findings hinsert ⟨hpolicy', hkeeps'⟩
    exact ⟨(Store.policy_of_insert hinsert).trans hpolicy', hkeeps'.insert hpolicy' hinsert⟩
  exact hboth.2

end Function

/-! ### Programs -/

variable {p q r : Program} {f g : Function} {i : Nat}

theorem functions_addPackage (p : Program) (name : String) :
    (p.addPackage name).2.functions = p.functions := by
  unfold addPackage
  split <;> rfl

theorem findingPolicy_addPackage (p : Program) (name : String) :
    (p.addPackage name).2.findingPolicy = p.findingPolicy := by
  unfold addPackage
  split <;> rfl

/-- A new function stands behind the others, is numbered by its place and has an empty store. -/
theorem addFunction_eq_ok {name : String} {package : PackageId} {kind : FunctionKind}
    {receiver : String} {id : FunctionId}
    (h : p.addFunction name package kind receiver = .ok (id, q)) :
    id = ⟨UInt32.ofNat p.functions.length⟩ ∧ q.findingPolicy = p.findingPolicy ∧
      q.functions =
        p.functions ++ [⟨id, name, package, kind, receiver, .empty p.findingPolicy⟩] := by
  unfold addFunction at h
  split at h
  · cases h
  · cases h
    exact ⟨rfl, rfl, rfl⟩

theorem forall_functions_addFunction {P : Function → Prop} {name : String} {package : PackageId}
    {kind : FunctionKind} {receiver : String} {id : FunctionId}
    (h : p.addFunction name package kind receiver = .ok (id, q)) (hp : ∀ f ∈ p.functions, P f)
    (hnew : P ⟨id, name, package, kind, receiver, .empty p.findingPolicy⟩) :
    ∀ f ∈ q.functions, P f := by
  obtain ⟨-, -, hfunctions⟩ := addFunction_eq_ok h
  rw [hfunctions, List.forall_mem_append, List.forall_mem_singleton]
  exact ⟨hp, hnew⟩

theorem forall_functions_setFunction {P : Function → Prop} {id : FunctionId}
    (hp : ∀ f ∈ p.functions, P f) (hg : P g) : ∀ f ∈ (p.setFunction id g).functions, P f := by
  intro f hf
  rcases List.mem_or_eq_of_mem_set hf with hf | rfl
  · exact hp f hf
  · exact hg

theorem mem_of_function? {id : FunctionId} (h : p.function? id = some f) : f ∈ p.functions :=
  List.mem_of_getElem? h

/-- The program `q` comes from `p` by rulings on its functions and by registering more. -/
structure Evolves (p q : Program) : Prop where
  policy_eq : q.findingPolicy = p.findingPolicy
  kept : ∀ (i : Nat) (f : Function), p.functions[i]? = some f →
    ∃ g, q.functions[i]? = some g ∧ f.Evolves g
  added : ∀ (i : Nat) (g : Function), p.functions.length ≤ i → q.functions[i]? = some g →
    ∃ f : Function, f.id = ⟨UInt32.ofNat i⟩ ∧ f.findings = .empty p.findingPolicy ∧ f.Evolves g

/-- Where no function is added, it is enough to look at the ones that are there. -/
theorem Evolves.of_forall₂ (hpolicy : q.findingPolicy = p.findingPolicy)
    (h : List.Forall₂ Function.Evolves p.functions q.functions) : p.Evolves q := by
  have hlength := h.length_eq
  refine ⟨hpolicy, ?_, ?_⟩
  · intro i f hf
    obtain ⟨hi, rfl⟩ := List.getElem?_eq_some_iff.1 hf
    exact ⟨_, List.getElem?_eq_getElem (hlength ▸ hi), h.get hi (hlength ▸ hi)⟩
  · intro i g hi hg
    obtain ⟨hlt, -⟩ := List.getElem?_eq_some_iff.1 hg
    omega

theorem Evolves.of_functions_eq (hpolicy : q.findingPolicy = p.findingPolicy)
    (hfunctions : q.functions = p.functions) : p.Evolves q := by
  apply Evolves.of_forall₂ hpolicy
  rw [hfunctions]
  exact List.forall₂_same.2 fun _ _ => .refl

theorem Evolves.refl (p : Program) : p.Evolves p := .of_functions_eq rfl rfl

theorem Evolves.trans (hpq : p.Evolves q) (hqr : q.Evolves r) : p.Evolves r := by
  refine ⟨hqr.policy_eq.trans hpq.policy_eq, ?_, ?_⟩
  · intro i f hf
    obtain ⟨g, hg, hfg⟩ := hpq.kept i f hf
    obtain ⟨h, hh, hgh⟩ := hqr.kept i g hg
    exact ⟨h, hh, hfg.trans hgh⟩
  · intro i h hi hh
    -- A function that is new in the end came with the second part, or it came with the first.
    rcases Nat.lt_or_ge i q.functions.length with hlt | hge
    · have hg := List.getElem?_eq_getElem hlt
      obtain ⟨f, hid, hempty, hfg⟩ := hpq.added i _ hi hg
      obtain ⟨h', hh', hgh⟩ := hqr.kept i _ hg
      obtain rfl : h' = h := Option.some.inj (hh'.symm.trans hh)
      exact ⟨f, hid, hempty, hfg.trans hgh⟩
    · rw [← hpq.policy_eq]
      exact hqr.added i h hge hh

/-- Registering a function adds one behind the others. -/
theorem evolves_addFunction {name : String} {package : PackageId} {kind : FunctionKind}
    {receiver : String} {id : FunctionId}
    (h : p.addFunction name package kind receiver = .ok (id, q)) : p.Evolves q := by
  obtain ⟨hid, hpolicy, hfunctions⟩ := addFunction_eq_ok h
  refine ⟨hpolicy, ?_, ?_⟩
  · intro i f hf
    obtain ⟨hi, -⟩ := List.getElem?_eq_some_iff.1 hf
    refine ⟨f, ?_, .refl⟩
    rw [hfunctions, List.getElem?_append_left hi]
    exact hf
  · intro i g hi hg
    -- There is one place only behind the functions that were there.
    obtain rfl : i = p.functions.length := by
      obtain ⟨hlt, -⟩ := List.getElem?_eq_some_iff.1 hg
      rw [hfunctions, List.length_append, List.length_singleton] at hlt
      omega
    rw [hfunctions, List.getElem?_concat_length] at hg
    obtain rfl := Option.some.inj hg
    exact ⟨_, hid, rfl, .refl⟩

theorem evolves_setFunction {id : FunctionId} (hf : p.function? id = some f) (h : f.Evolves g) :
    p.Evolves (p.setFunction id g) := by
  have hpolicy : (p.setFunction id g).findingPolicy = p.findingPolicy := rfl
  have hfunctions : (p.setFunction id g).functions = p.functions.set id.index.toNat g := rfl
  apply Evolves.of_forall₂ hpolicy
  rw [hfunctions, List.forall₂_iff_get]
  refine ⟨List.length_set.symm, ?_⟩
  intro i hi hi'
  obtain ⟨hid, rfl⟩ := List.getElem?_eq_some_iff.1 hf
  rw [List.get_eq_getElem, List.get_eq_getElem, List.getElem_set]
  split
  · next heq =>
    subst heq
    exact h
  · exact .refl

/-- A batch makes its functions evolve, by rulings, and adds none. -/
theorem evolves_ingest (p : Program) (a : Arbiter) (config : IngestConfig) (b : Batch) :
    p.Evolves (p.ingest a config b).2 := by
  obtain ⟨hrulings, -, hpolicy⟩ := rulings_ingest (a := a) (b := b) p config
  exact .of_forall₂ hpolicy (hrulings.imp fun _ _ h => .of_rulings h)

/-- Each function has the number of its place. -/
def Numbered (p : Program) : Prop :=
  ∀ (i : Nat) (f : Function), p.functions[i]? = some f → f.id = ⟨UInt32.ofNat i⟩

/-- In a numbered program a handle finds the function that has it. -/
theorem Numbered.id_eq {id : FunctionId} (h : p.Numbered) (hf : p.function? id = some f) :
    f.id = id := by
  rw [h _ f hf, UInt32.ofNat_toNat]

/-- In a program built from nothing each function has the number of its place. -/
theorem Evolves.numbered_of_empty {policy : DuplicatePolicy} (h : (empty policy).Evolves p) :
    p.Numbered := by
  intro i g hg
  obtain ⟨f, hid, -, hfg⟩ := h.added i g (Nat.zero_le i) hg
  exact hfg.id_eq.trans hid

/-- In a program built from nothing each store has the policy of the program. -/
theorem Evolves.policy_of_empty {policy : DuplicatePolicy} (h : (empty policy).Evolves p)
    (hg : p.functions[i]? = some g) : g.findings.policy = policy := by
  obtain ⟨f, -, hempty, hfg⟩ := h.added i g (Nat.zero_le i) hg
  rw [hfg.policy_eq, hempty]
  rfl

theorem Evolves.forall_policy_of_empty {policy : DuplicatePolicy} (h : (empty policy).Evolves p) :
    ∀ f ∈ p.functions, f.findings.policy = policy := by
  intro f hf
  obtain ⟨i, hi⟩ := List.mem_iff_getElem?.1 hf
  exact h.policy_of_empty hi

/-- In a program built from nothing all findings that are stored are data. -/
theorem Evolves.kind_of_empty {policy : DuplicatePolicy} (h : (empty policy).Evolves p)
    (hg : g ∈ p.functions) : ∀ e ∈ g.findings.entries, e.kind = .data := by
  obtain ⟨i, hi⟩ := List.mem_iff_getElem?.1 hg
  obtain ⟨f, -, hempty, hfg⟩ := h.added i g (Nat.zero_le i) hi
  apply hfg.kind_eq
  rw [hempty]
  exact List.forall_mem_nil _

end Program

/-! ### Sessions -/

namespace Session

variable {s t : Session} {what : Step}

/-- The step does not begin another program. -/
def Step.keepsProgram : Step → Bool
  | .newProgram _ => false
  | _ => true

/-- Every effect but that of beginning another program lets the program evolve. -/
theorem Effect.evolves (h : Effect s what t) (hkeeps : what.keepsProgram) :
    s.run.program.Evolves t.run.program := by
  cases h with
  | package name =>
    exact .of_functions_eq (Program.findingPolicy_addPackage _ name)
      (Program.functions_addPackage _ name)
  | function hadd => exact Program.evolves_addFunction hadd
  | newProgram policy => cases hkeeps
  | finding _ hf hrule => exact Program.evolves_setFunction hf (.single ⟨_, _, _, hrule⟩)
  | ingest b config hphase => exact Program.evolves_ingest _ _ _ b
  -- The remaining effects leave the program alone.
  | _ => exact .refl _

/-- **A program only evolves**, whatever is done with it, answered or refused. -/
theorem evolves_steps {whats : List Step} (hkeeps : ∀ what ∈ whats, what.keepsProgram) :
    s.run.program.Evolves (s.steps whats).2.run.program := by
  apply steps_induction (P := fun t => s.run.program.Evolves t.run.program) _ hkeeps (.refl _)
  intro t what u heffect hwhat hst
  exact hst.trans (heffect.evolves hwhat)

/-- The program has evolved from an empty one. -/
def HasEvolved (s : Session) : Prop := ∃ policy, (Program.empty policy).Evolves s.run.program

theorem Effect.hasEvolved (h : Effect s what t) (hs : s.HasEvolved) : t.HasEvolved := by
  obtain ⟨policy, hevolves⟩ := hs
  cases hkeeps : what.keepsProgram with
  | true => exact ⟨policy, hevolves.trans (h.evolves hkeeps)⟩
  -- Another program begins empty.
  | false =>
    cases h with
    | same => exact ⟨policy, hevolves⟩
    | newProgram policy' => exact ⟨policy', .refl _⟩
    | _ => cases hkeeps

/-- Whatever is done in a session that begins with an empty program. -/
theorem hasEvolved_steps {policy : DuplicatePolicy} (hnew : s.run.program = .empty policy)
    (whats : List Step) : (s.steps whats).2.HasEvolved := by
  have hstart : s.HasEvolved := ⟨policy, hnew ▸ .refl _⟩
  have hstep (u : Session) (what : Step) (v : Session) (h : Effect u what v) (_ : True)
      (hu : u.HasEvolved) : v.HasEvolved := h.hasEvolved hu
  exact steps_induction hstep (fun _ _ => trivial) hstart

end Session

end ByteCensus
