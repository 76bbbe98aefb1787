import Mathlib.Data.List.Permutation
import ByteCensus.Proofs.Evolution

/-!
# Packages and functions refer to each other

A program keeps its packages and its functions in two lists, and both lists refer to the other one
by number: a function says which package it is of, and a package lists its functions.  `Consistent`
says that the two agree.  Only two steps of a session register anything, and the rulings change
nothing of what is registered (`Session.Effect.registration_cases`), so a program is consistent
after every run that begins with an empty one, for as long as the numbers suffice.

Nothing registered is ever taken back: what a handle denotes once it denotes from then on, up to
the functions of a package and the findings of a function (`Session.Effect.keeps`).
-/

namespace ByteCensus

namespace Program

variable {p q : Program} {r : Package} {f g : Function} {name : String} {package : PackageId}
  {kind : FunctionKind} {receiver : String} {id : FunctionId} {i : Nat}

/-! ### What is registered -/

/-- What a function is registered as, with nothing found in its body. -/
def Function.registered (f : Function) : Function := { f with findings := default }

/-- Rulings leave a function registered as it is. -/
theorem Function.Evolves.registered_eq (h : f.Evolves g) : g.registered = f.registered := by
  apply h.induction (P := fun g => g.registered = f.registered) rfl
  intro f' e outcome findings _ heq
  exact heq

/-- Where no function is added, the functions stay registered as they are. -/
theorem Evolves.map_registered (h : p.Evolves q)
    (hlength : q.functions.length = p.functions.length) :
    q.functions.map Function.registered = p.functions.map Function.registered := by
  apply List.ext_getElem?
  intro i
  rw [List.getElem?_map, List.getElem?_map]
  cases hf : p.functions[i]? with
  | none =>
    rw [List.getElem?_eq_none_iff, ← hlength] at hf
    rw [List.getElem?_eq_none hf]
  | some f =>
    obtain ⟨g, hg, hfg⟩ := h.kept i f hf
    rw [hg, Option.map_some, Option.map_some, hfg.registered_eq]

/-- A name that is known has the handle of its package. -/
theorem findPackage?_eq_some_iff {package : PackageId} (hnames : (p.packages.map (·.name)).Nodup) :
    p.findPackage? name = some package ↔ ∃ r ∈ p.packages, r.name = name ∧ r.id = package := by
  unfold findPackage?
  rw [Option.map_eq_some_iff]
  constructor
  · rintro ⟨r, hfind, hid⟩
    exact ⟨r, List.mem_of_find?_eq_some hfind, by simpa using List.find?_some hfind, hid⟩
  · rintro ⟨r, hr, hname, hid⟩
    obtain ⟨r', hfind⟩ := Option.isSome_iff_exists.1
      (List.find?_isSome (p := fun r : Package => r.name = name).2 ⟨r, hr, by simpa using hname⟩)
    have hname' : r'.name = name := by simpa using List.find?_some hfind
    -- There is one package only of that name.
    have hsame : r' = r := List.inj_on_of_nodup_map hnames (List.mem_of_find?_eq_some hfind) hr
      (hname'.trans hname.symm)
    exact ⟨r', hfind, hsame ▸ hid⟩

theorem findPackage?_eq_none_iff :
    p.findPackage? name = none ↔ ∀ r ∈ p.packages, r.name ≠ name := by
  unfold findPackage?
  rw [Option.map_eq_none_iff, List.find?_eq_none]
  simp

/-- All that registering a package can do. -/
theorem addPackage_cases (p : Program) (name : String) :
    (∃ package, p.findPackage? name = some package ∧ p.addPackage name = (package, p)) ∨
    p.findPackage? name = none ∧
      (p.addPackage name).1 = ⟨UInt32.ofNat p.packages.length⟩ ∧
      (p.addPackage name).2.packages =
        p.packages ++ [⟨⟨UInt32.ofNat p.packages.length⟩, name, []⟩] := by
  unfold addPackage
  cases p.findPackage? name with
  | none => exact .inr ⟨rfl, rfl, rfl⟩
  | some package => exact .inl ⟨package, rfl, rfl⟩

/-- The package with a function more. -/
def Package.withMember (r : Package) (id : FunctionId) : Package :=
  { r with functions := r.functions ++ [id] }

theorem packages_addFunction (h : p.addFunction name package kind receiver = .ok (id, q)) :
    (p.package? package).isSome ∧
      q.packages = p.packages.modify package.index.toNat (·.withMember id) := by
  unfold addFunction at h
  split at h
  · cases h
  · next r hr =>
    cases h
    exact ⟨by rw [hr]; rfl, rfl⟩

theorem addFunction_of_unknown (h : p.package? package = none) (name : String) (kind : FunctionKind)
    (receiver : String) :
    p.addFunction name package kind receiver =
      .error (.invalidInput (.unknownPackage package)) := by
  unfold addFunction
  rw [h]

/-! ### Consistency -/

/-- The functions of a package, in order. -/
def members (p : Program) (package : PackageId) : List FunctionId :=
  (p.functions.filter (·.package = package)).map (·.id)

/-- Packages and functions agree with each other. -/
structure Consistent (p : Program) : Prop where
  /-- Packages are numbered by their places. -/
  package_id : ∀ (i : Nat) (r : Package), p.packages[i]? = some r → r.id.index.toNat = i
  /-- So are functions. -/
  function_id : ∀ (i : Nat) (f : Function), p.functions[i]? = some f → f.id.index.toNat = i
  /-- No two packages share a name. -/
  names : (p.packages.map (·.name)).Nodup
  /-- Each function is of a package that exists. -/
  owned : ∀ f ∈ p.functions, (p.package? f.package).isSome
  /-- Each package lists the functions that are of it. -/
  listed : ∀ r ∈ p.packages, r.functions = p.members r.id

/-- There are numbers for all packages and functions. -/
structure Fits (p : Program) : Prop where
  packages : p.packages.length < UInt32.size
  functions : p.functions.length < UInt32.size

theorem isSome_package?_iff {package : PackageId} :
    (p.package? package).isSome ↔ package.index.toNat < p.packages.length := by
  unfold package?
  rw [Option.isSome_iff_ne_none, Ne, List.getElem?_eq_none_iff, Nat.not_le]

theorem consistent_empty (policy : DuplicatePolicy) : (empty policy).Consistent := by
  refine ⟨?_, ?_, .nil, List.forall_mem_nil _, List.forall_mem_nil _⟩
  · intro i r hr
    cases hr
  · intro i f hf
    cases hf

/-- The functions of a package can be told without what is found in their bodies. -/
theorem members_eq_registered (p : Program) (package : PackageId) :
    p.members package =
      ((p.functions.map Function.registered).filter (·.package = package)).map (·.id) := by
  unfold members
  rw [List.filter_map, List.map_map]
  rfl

/-- What is found in the bodies of functions does not matter. -/
theorem Consistent.congr (h : p.Consistent) (hpackages : q.packages = p.packages)
    (hfunctions : q.functions.map Function.registered = p.functions.map Function.registered) :
    q.Consistent := by
  -- Each function has one before it that is registered alike.
  have hfrom (i : Nat) (g : Function) (hg : q.functions[i]? = some g) :
      ∃ f, p.functions[i]? = some f ∧ f.registered = g.registered := by
    rw [← Option.map_eq_some_iff, ← List.getElem?_map, ← hfunctions, List.getElem?_map, hg]
    rfl
  have hpackage? (package : PackageId) : q.package? package = p.package? package := by
    unfold package?
    rw [hpackages]
  refine ⟨hpackages ▸ h.package_id, ?_, hpackages ▸ h.names, ?_, ?_⟩
  · intro i g hg
    obtain ⟨f, hf, heq⟩ := hfrom i g hg
    have hid : f.id = g.id := congrArg (·.id) heq
    rw [← hid]
    exact h.function_id i f hf
  · intro g hg
    obtain ⟨i, hi⟩ := List.mem_iff_getElem?.1 hg
    obtain ⟨f, hf, heq⟩ := hfrom i g hi
    have hpackage : f.package = g.package := congrArg (·.package) heq
    rw [hpackage?, ← hpackage]
    exact h.owned f (List.mem_of_getElem? hf)
  · intro r hr
    rw [hpackages] at hr
    rw [h.listed r hr, members_eq_registered, members_eq_registered, hfunctions]

/-- What holds of all places and of one more behind them holds of the longer list. -/
theorem forall_getElem?_concat {α : Type} {P : Nat → α → Prop} {xs : List α} {x : α}
    (hxs : ∀ (i : Nat) (y : α), xs[i]? = some y → P i y) (hx : P xs.length x) :
    ∀ (i : Nat) (y : α), (xs ++ [x])[i]? = some y → P i y := by
  intro i y hy
  rcases Nat.lt_or_ge i xs.length with hlt | hge
  · rw [List.getElem?_append_left hlt] at hy
    exact hxs i y hy
  · obtain ⟨hlt, -⟩ := List.getElem?_eq_some_iff.1 hy
    rw [List.length_append, List.length_singleton] at hlt
    obtain rfl : i = xs.length := by omega
    rw [List.getElem?_concat_length] at hy
    exact Option.some.inj hy ▸ hx

/-- Registering a package keeps the program consistent, if there is a number for it. -/
theorem Consistent.addPackage (h : p.Consistent) (hroom : p.packages.length < UInt32.size)
    (name : String) : (p.addPackage name).2.Consistent := by
  have hfunctions := functions_addPackage p name
  -- A name that is known changes nothing; a new one gets the next number.
  obtain ⟨_, -, hsame⟩ | ⟨hunknown, -, hpackages⟩ := addPackage_cases p name
  · rw [hsame]
    exact h
  · have hnumber : (UInt32.ofNat p.packages.length).toNat = p.packages.length :=
      UInt32.toNat_ofNat_of_lt' hroom
    have hmembers (package : PackageId) :
        (p.addPackage name).2.members package = p.members package := by
      unfold members
      rw [hfunctions]
    refine ⟨?_, ?_, ?_, ?_, ?_⟩
    · rw [hpackages]
      exact forall_getElem?_concat h.package_id hnumber
    · rw [hfunctions]
      exact h.function_id
    · rw [hpackages, List.map_append, List.nodup_append]
      refine ⟨h.names, List.nodup_singleton _, ?_⟩
      rintro _ hold _ hnew rfl
      obtain ⟨r, hr, hname⟩ := List.mem_map.1 hold
      rw [List.map_singleton, List.mem_singleton] at hnew
      exact findPackage?_eq_none_iff.1 hunknown r hr (hname.trans hnew)
    · intro f hf
      rw [hfunctions] at hf
      have hlt := isSome_package?_iff.1 (h.owned f hf)
      rw [isSome_package?_iff, hpackages, List.length_append]
      omega
    · rw [hpackages]
      refine List.forall_mem_append.2 ⟨?_, List.forall_mem_singleton.2 ?_⟩
      · intro r hr
        rw [hmembers, h.listed r hr]
      · -- Nothing was registered under a number that was not given out.
        rw [hmembers]
        unfold members
        rw [eq_comm, List.map_eq_nil_iff, List.filter_eq_nil_iff]
        intro f hf hpackage
        have hlt := isSome_package?_iff.1 (h.owned f hf)
        rw [of_decide_eq_true hpackage, hnumber] at hlt
        exact Nat.lt_irrefl _ hlt

/-- Registering a function changes its package only, and that by the new member. -/
theorem getElem?_packages_addFunction
    (h : p.addFunction name package kind receiver = .ok (id, q)) (i : Nat) :
    q.packages[i]? =
      (p.packages[i]?).map fun r => if package.index.toNat = i then r.withMember id else r := by
  rw [(packages_addFunction h).2, List.getElem?_modify]
  split
  · rfl
  · cases p.packages[i]? <;> rfl

/-- Registering a function keeps the program consistent, if there is a number for it. -/
theorem Consistent.addFunction (h : p.Consistent) (hroom : p.functions.length < UInt32.size)
    (hadd : p.addFunction name package kind receiver = .ok (id, q)) : q.Consistent := by
  obtain ⟨hid, -, hfunctions⟩ := addFunction_eq_ok hadd
  obtain ⟨hknown, hpackages⟩ := packages_addFunction hadd
  have hnumber : id.index.toNat = p.functions.length := by
    rw [hid]
    exact UInt32.toNat_ofNat_of_lt' hroom
  have hfrom (i : Nat) (r : Package) (hr : q.packages[i]? = some r) : ∃ r',
      p.packages[i]? = some r' ∧
        (if package.index.toNat = i then r'.withMember id else r') = r := by
    rw [getElem?_packages_addFunction hadd] at hr
    exact Option.map_eq_some_iff.1 hr
  -- The new function is the last member of its package, and of no other.
  have hmembers (package' : PackageId) :
      q.members package' = p.members package' ++ if package = package' then [id] else [] := by
    unfold members
    rw [hfunctions, List.filter_append, List.map_append]
    by_cases hsame : package = package' <;> simp [hsame]
  refine ⟨?_, ?_, ?_, ?_, ?_⟩
  · intro i r hr
    obtain ⟨r', hr', rfl⟩ := hfrom i r hr
    rw [← h.package_id i r' hr']
    split <;> rfl
  · rw [hfunctions]
    exact forall_getElem?_concat h.function_id hnumber
  · have hnames : q.packages.map (·.name) = p.packages.map (·.name) := by
      apply List.ext_getElem?
      intro i
      rw [List.getElem?_map, getElem?_packages_addFunction hadd, Option.map_map,
        List.getElem?_map]
      congr 1
      funext r
      show (if package.index.toNat = i then r.withMember id else r).name = r.name
      split <;> rfl
    rw [hnames]
    exact h.names
  · have hpackage? (f : Function) (hf : (p.package? f.package).isSome) :
        (q.package? f.package).isSome := by
      rw [isSome_package?_iff] at hf ⊢
      rw [hpackages, List.length_modify]
      exact hf
    rw [hfunctions]
    refine List.forall_mem_append.2 ⟨fun f hf => hpackage? f (h.owned f hf), ?_⟩
    exact List.forall_mem_singleton.2 (hpackage? _ hknown)
  · intro r hr
    obtain ⟨i, hi⟩ := List.mem_iff_getElem?.1 hr
    obtain ⟨r', hr', rfl⟩ := hfrom i r hi
    have hlisted := h.listed r' (List.mem_of_getElem? hr')
    have hplace := h.package_id i r' hr'
    rw [hmembers]
    split
    · next hthere =>
      have hsame : package = r'.id := by
        rw [PackageId.mk.injEq, ← UInt32.toNat_inj, hthere, hplace]
      show r'.functions ++ [id] = p.members r'.id ++ if package = r'.id then [id] else []
      rw [if_pos hsame, hlisted]
    · next hother =>
      have hne : package ≠ r'.id := fun hsame => hother (hsame ▸ hplace)
      rw [if_neg hne, List.append_nil]
      exact hlisted

/-- The functions of a package are listed in the order of their numbers, each one once. -/
theorem Consistent.pairwise_functions (h : p.Consistent) (hr : r ∈ p.packages) :
    r.functions.Pairwise fun id id' => id.index < id'.index := by
  -- In the program they stand by their numbers, and the package lists some of them in that order.
  have hascending : p.functions.Pairwise fun f g => f.id.index < g.id.index := by
    rw [List.pairwise_iff_getElem]
    intro i j hi hj hlt
    rw [UInt32.lt_iff_toNat_lt, h.function_id i _ (List.getElem?_eq_getElem hi),
      h.function_id j _ (List.getElem?_eq_getElem hj)]
    exact hlt
  rw [h.listed r hr]
  exact List.pairwise_map.2 (hascending.sublist List.filter_sublist)

/-! ### What handles denote -/

/-- Each handle denotes in `q` what it denotes in `p`. -/
structure Keeps (p q : Program) : Prop where
  package : ∀ id r, p.package? id = some r → ∃ r', q.package? id = some r' ∧ r'.name = r.name
  function : ∀ id f, p.function? id = some f →
    ∃ g, q.function? id = some g ∧ g.registered = f.registered

theorem Keeps.refl (p : Program) : p.Keeps p :=
  ⟨fun _ r hr => ⟨r, hr, rfl⟩, fun _ f hf => ⟨f, hf, rfl⟩⟩

theorem Keeps.trans {p' : Program} (h : p.Keeps p') (h' : p'.Keeps q) : p.Keeps q := by
  constructor
  · intro id r hr
    obtain ⟨r', hr', hname⟩ := h.package id r hr
    obtain ⟨r'', hr'', hname'⟩ := h'.package id r' hr'
    exact ⟨r'', hr'', hname'.trans hname⟩
  · intro id f hf
    obtain ⟨g, hg, heq⟩ := h.function id f hf
    obtain ⟨g', hg', heq'⟩ := h'.function id g hg
    exact ⟨g', hg', heq'.trans heq⟩

/-- A program that evolves keeps its functions; it remains to look at its packages. -/
theorem Evolves.keeps (h : p.Evolves q)
    (hpackages : ∀ id r, p.package? id = some r →
      ∃ r', q.package? id = some r' ∧ r'.name = r.name) : p.Keeps q := by
  refine ⟨hpackages, ?_⟩
  intro id f hf
  obtain ⟨g, hg, hfg⟩ := h.kept _ f hf
  exact ⟨g, hg, hfg.registered_eq⟩

theorem keeps_addPackage (p : Program) (name : String) : p.Keeps (p.addPackage name).2 := by
  have hevolves : p.Evolves (p.addPackage name).2 :=
    .of_functions_eq (findingPolicy_addPackage p name) (functions_addPackage p name)
  apply hevolves.keeps
  intro id r hr
  obtain ⟨_, -, hsame⟩ | ⟨-, -, hpackages⟩ := addPackage_cases p name
  · rw [hsame]
    exact ⟨r, hr, rfl⟩
  · obtain ⟨hlt, -⟩ := List.getElem?_eq_some_iff.1 hr
    refine ⟨r, ?_, rfl⟩
    unfold package?
    rw [hpackages, List.getElem?_append_left hlt]
    exact hr

/-- A function that is registered adds to a package, which keeps its name. -/
theorem keeps_addFunction (h : p.addFunction name package kind receiver = .ok (id, q)) :
    p.Keeps q := by
  apply (evolves_addFunction h).keeps
  intro package' r hr
  have hr' : p.packages[package'.index.toNat]? = some r := hr
  unfold package?
  rw [getElem?_packages_addFunction h, hr', Option.map_some]
  refine ⟨_, rfl, ?_⟩
  split <;> rfl

/-- The handle of a package denotes it. -/
theorem package?_addPackage (h : p.Consistent) (hroom : p.packages.length < UInt32.size)
    (name : String) :
    ∃ r, (p.addPackage name).2.package? (p.addPackage name).1 = some r ∧ r.name = name := by
  -- Either the name has a package, whose number is its place, or the package is the last one.
  obtain ⟨package, hknown, hsame⟩ | ⟨-, hid, hpackages⟩ := addPackage_cases p name
  · obtain ⟨r, hr, hname, rfl⟩ := (findPackage?_eq_some_iff h.names).1 hknown
    obtain ⟨i, hi⟩ := List.mem_iff_getElem?.1 hr
    refine ⟨r, ?_, hname⟩
    rw [hsame]
    unfold package?
    rw [h.package_id i r hi]
    exact hi
  · refine ⟨⟨⟨UInt32.ofNat p.packages.length⟩, name, []⟩, ?_, rfl⟩
    unfold package?
    rw [hid, hpackages]
    dsimp only
    rw [UInt32.toNat_ofNat_of_lt' hroom, List.getElem?_concat_length]

theorem function?_addFunction (hroom : p.functions.length < UInt32.size)
    (h : p.addFunction name package kind receiver = .ok (id, q)) :
    ∃ f, q.function? id = some f ∧ f.registered = ⟨id, name, package, kind, receiver, default⟩ := by
  obtain ⟨hid, -, hfunctions⟩ := addFunction_eq_ok h
  refine ⟨⟨id, name, package, kind, receiver, .empty p.findingPolicy⟩, ?_, rfl⟩
  unfold function?
  rw [hfunctions, hid]
  dsimp only
  rw [UInt32.toNat_ofNat_of_lt' hroom, List.getElem?_concat_length]

end Program

namespace Session

variable {s t : Session} {what : Step} {whats : List Step}

/-! ### Steps -/

/-- All that a step can make of the packages and functions. -/
theorem Effect.registration_cases (h : Effect s what t) (hkeeps : what.keepsProgram) :
    (t.run.program.packages = s.run.program.packages ∧
      t.run.program.functions.map Program.Function.registered =
        s.run.program.functions.map Program.Function.registered) ∨
    (∃ name, t.run.program = (s.run.program.addPackage name).2) ∨
    ∃ name package kind receiver id,
      s.run.program.addFunction name package kind receiver = .ok (id, t.run.program) := by
  have hevolves := h.evolves hkeeps
  cases h with
  | package name => exact .inr (.inl ⟨name, rfl⟩)
  | function hadd => exact .inr (.inr ⟨_, _, _, _, _, hadd⟩)
  | newProgram => cases hkeeps
  | finding => exact .inl ⟨rfl, hevolves.map_registered List.length_set⟩
  | ingest b config =>
    obtain ⟨hrulings, hpackages, -⟩ := Program.rulings_ingest (b := b) s.run.program
      (config.getD s.run.config.ingest)
    exact .inl ⟨hpackages, hevolves.map_registered hrulings.length_eq.symm⟩
  | _ => exact .inl ⟨rfl, rfl⟩

/-- Whatever a step does, handles denote what they denoted. -/
theorem Effect.keeps (h : Effect s what t) (hkeeps : what.keepsProgram) :
    s.run.program.Keeps t.run.program := by
  obtain ⟨hpackages, -⟩ | ⟨name, hname⟩ | ⟨_, _, _, _, _, hadd⟩ := h.registration_cases hkeeps
  · apply (h.evolves hkeeps).keeps
    intro id r hr
    refine ⟨r, ?_, rfl⟩
    unfold Program.package?
    rw [hpackages]
    exact hr
  · rw [hname]
    exact Program.keeps_addPackage _ name
  · exact Program.keeps_addFunction hadd

/-- Numbers that suffice in the end sufficed all along. -/
theorem Effect.fits (h : Effect s what t) (hkeeps : what.keepsProgram)
    (hfits : t.run.program.Fits) : s.run.program.Fits := by
  obtain ⟨hpackages, hfunctions⟩ := hfits
  obtain ⟨heq, hmap⟩ | ⟨name, hname⟩ | ⟨_, _, _, _, _, hadd⟩ := h.registration_cases hkeeps
  · have hlength := congrArg List.length hmap
    rw [List.length_map, List.length_map] at hlength
    exact ⟨heq ▸ hpackages, hlength ▸ hfunctions⟩
  · rw [hname] at hpackages hfunctions
    rw [Program.functions_addPackage] at hfunctions
    refine ⟨?_, hfunctions⟩
    obtain ⟨_, -, hsame⟩ | ⟨-, -, hnew⟩ := Program.addPackage_cases s.run.program name
    · rw [hsame] at hpackages
      exact hpackages
    · rw [hnew, List.length_append] at hpackages
      omega
  · rw [(Program.packages_addFunction hadd).2, List.length_modify] at hpackages
    rw [(Program.addFunction_eq_ok hadd).2.2, List.length_append] at hfunctions
    exact ⟨hpackages, by omega⟩

/-- Whatever a step does, a consistent program stays one, as long as the numbers suffice. -/
theorem Effect.consistent (h : Effect s what t) (hkeeps : what.keepsProgram)
    (hfits : t.run.program.Fits) (hs : s.run.program.Consistent) : t.run.program.Consistent := by
  obtain ⟨hpackages, hfunctions⟩ := h.fits hkeeps hfits
  obtain ⟨heq, hmap⟩ | ⟨name, hname⟩ | ⟨_, _, _, _, _, hadd⟩ := h.registration_cases hkeeps
  · exact hs.congr heq hmap
  · rw [hname]
    exact hs.addPackage hpackages name
  · exact hs.addFunction hfunctions hadd

/-! ### Runs -/

theorem keeps_steps (hkeeps : ∀ what ∈ whats, what.keepsProgram) :
    s.run.program.Keeps (s.steps whats).2.run.program := by
  apply steps_induction (P := fun t => s.run.program.Keeps t.run.program) _ hkeeps (.refl _)
  intro t what u heffect hwhat hst
  exact hst.trans (heffect.keeps hwhat)

theorem fits_of_steps (hkeeps : ∀ what ∈ whats, what.keepsProgram)
    (hfits : (s.steps whats).2.run.program.Fits) : s.run.program.Fits := by
  have hback : (s.steps whats).2.run.program.Fits → s.run.program.Fits := by
    apply steps_induction (P := fun t => t.run.program.Fits → s.run.program.Fits) _ hkeeps id
    intro t what u heffect hwhat hst hu
    exact hst (heffect.fits hwhat hu)
  exact hback hfits

/-- A run keeps the program consistent, if the numbers suffice in the end. -/
theorem consistent_steps (hkeeps : ∀ what ∈ whats, what.keepsProgram)
    (hs : s.run.program.Consistent) (hfits : (s.steps whats).2.run.program.Fits) :
    (s.steps whats).2.run.program.Consistent := by
  -- The numbers have to suffice at each step, which follows from behind.
  have hinv : (s.steps whats).2.run.program.Fits → (s.steps whats).2.run.program.Consistent := by
    apply steps_induction
      (P := fun t => t.run.program.Fits → t.run.program.Consistent) _ hkeeps fun _ => hs
    intro t what u heffect hwhat ht hu
    exact heffect.consistent hwhat hu (ht (heffect.fits hwhat hu))
  exact hinv hfits

/-! ### Returned handles -/

theorem step_addFunction (s : Session) (name : String) (package : PackageId) (kind : FunctionKind)
    (receiver : String) :
    s.step (.addFunction name package kind receiver) =
      match s.run.program.addFunction name package kind receiver with
      | .ok (id, p) => (.ok (.function id), s.withProgram p)
      | .error e => (.error (.error e), s) := by
  have hattempt : s.attempt (.addFunction name package kind receiver) =
      orRefuse (s.run.program.addFunction name package kind receiver) >>= fun added =>
        pure (.function added.1, s.withProgram added.2) := rfl
  unfold step
  rw [hattempt]
  cases s.run.program.addFunction name package kind receiver <;> rfl

/-- A function is refused where its package is not known, and leaves no trace. -/
theorem step_addFunction_refused {name : String} {package : PackageId} {kind : FunctionKind}
    {receiver : String} {refusal : Refusal}
    (h : (s.step (.addFunction name package kind receiver)).1 = .error refusal) :
    s.run.program.package? package = none ∧
      refusal = .error (.invalidInput (.unknownPackage package)) ∧
      (s.step (.addFunction name package kind receiver)).2 = s := by
  rw [step_addFunction] at h ⊢
  cases hpackage : s.run.program.package? package with
  | none =>
    rw [Program.addFunction_of_unknown hpackage] at h ⊢
    cases h
    exact ⟨rfl, rfl, rfl⟩
  | some r =>
    unfold Program.addFunction at h
    rw [hpackage] at h
    cases h

/-- A returned handle of a package denotes the package of that name from then on. -/
theorem package?_of_returned {name : String} {id : PackageId}
    (hkeeps : ∀ what ∈ whats, what.keepsProgram) (hs : s.run.program.Consistent)
    (hfits : (s.steps whats).2.run.program.Fits)
    (h : (.addPackage name, .ok (.package id)) ∈ whats.zip (s.steps whats).1) :
    ∃ r, (s.steps whats).2.run.program.package? id = some r ∧ r.name = name := by
  obtain ⟨before, after, rfl, hanswer⟩ := exists_of_mem_zip h
  obtain ⟨hbefore, hfrom⟩ := List.forall_mem_append.1 hkeeps
  -- The handle is good when it is returned, and the steps behind keep it so.
  rw [steps_append] at hfits ⊢
  have hfits' := fits_of_steps hfrom hfits
  have hthen := consistent_steps hbefore hs hfits'
  obtain rfl : ((s.steps before).2.run.program.addPackage name).1 = id := by
    cases hanswer
    rfl
  obtain ⟨r, hr, hname⟩ := Program.package?_addPackage hthen hfits'.packages name
  have hlater := keeps_steps (s := ((s.steps before).2.step (.addPackage name)).2)
    (List.forall_mem_cons.1 hfrom).2
  obtain ⟨r', hr', hname'⟩ := hlater.package _ r hr
  exact ⟨r', hr', hname'.trans hname⟩

/-- A returned handle of a function denotes it, as it was registered, from then on. -/
theorem function?_of_returned {name : String} {package : PackageId} {kind : FunctionKind}
    {receiver : String} {id : FunctionId} (hkeeps : ∀ what ∈ whats, what.keepsProgram)
    (hfits : (s.steps whats).2.run.program.Fits)
    (h : (.addFunction name package kind receiver, .ok (.function id)) ∈
      whats.zip (s.steps whats).1) :
    ∃ f, (s.steps whats).2.run.program.function? id = some f ∧
      f.registered = ⟨id, name, package, kind, receiver, default⟩ := by
  obtain ⟨before, after, rfl, hanswer⟩ := exists_of_mem_zip h
  have hfrom := (List.forall_mem_append.1 hkeeps).2
  rw [steps_append] at hfits ⊢
  have hroom := (fits_of_steps hfrom hfits).functions
  have hlater := keeps_steps
    (s := ((s.steps before).2.step (.addFunction name package kind receiver)).2)
    (List.forall_mem_cons.1 hfrom).2
  rw [step_addFunction] at hanswer hlater
  -- Only a function that was added has an answer with a handle.
  cases hadd : (s.steps before).2.run.program.addFunction name package kind receiver with
  | error e =>
    rw [hadd] at hanswer
    cases hanswer
  | ok added =>
    obtain ⟨id', q⟩ := added
    rw [hadd] at hanswer hlater
    cases hanswer
    obtain ⟨f, hf, hregistered⟩ := Program.function?_addFunction hroom hadd
    obtain ⟨g, hg, hgf⟩ := hlater.function _ f hf
    refine ⟨g, ?_, hgf.trans hregistered⟩
    rw [steps, step_addFunction, hadd]
    exact hg

/-- **Packages and functions stay consistent.**  A session begins with an empty program and takes
any steps but one that begins another program, refused steps included, with numbers enough for all
packages and functions.

* In the end the program is consistent, and each package lists its functions in ascending order.
* A name that is known has the handle that registering it again returns, which changes nothing; a
  name that is not known has none.
* A function is refused only where its package is not known, and the refused step changes nothing.
* Whatever a handle denotes at any time it denotes in the end; and a returned handle denotes what
  was registered. -/
theorem registration_stays_consistent (policy : DuplicatePolicy) (s : Session) (whats : List Step)
    (hnew : s.run.program = .empty policy) (hkeeps : ∀ what ∈ whats, what.keepsProgram)
    (hfits : (s.steps whats).2.run.program.Fits) :
    let t := (s.steps whats).2
    let p := t.run.program
    (p.Consistent ∧ ∀ r ∈ p.packages, r.functions.Pairwise fun id id' => id.index < id'.index) ∧
    (∀ name, (∀ r ∈ p.packages, r.name = name →
        p.findPackage? name = some r.id ∧ p.addPackage name = (r.id, p)) ∧
      ((∀ r ∈ p.packages, r.name ≠ name) → p.findPackage? name = none)) ∧
    (∀ name package kind receiver refusal,
      (t.step (.addFunction name package kind receiver)).1 = .error refusal →
        p.package? package = none ∧ (t.step (.addFunction name package kind receiver)).2 = t) ∧
    (∀ before after, whats = before ++ after → (s.steps before).2.run.program.Keeps p) ∧
    (∀ name id, (.addPackage name, .ok (.package id)) ∈ whats.zip (s.steps whats).1 →
      ∃ r, p.package? id = some r ∧ r.name = name) ∧
    ∀ name package kind receiver id,
      (.addFunction name package kind receiver, .ok (.function id)) ∈
        whats.zip (s.steps whats).1 →
      ∃ f, p.function? id = some f ∧ f.name = name ∧ f.package = package ∧ f.kind = kind ∧
        f.receiver = receiver := by
  intro t p
  have hs : s.run.program.Consistent := hnew ▸ Program.consistent_empty policy
  have hp : p.Consistent := consistent_steps hkeeps hs hfits
  refine ⟨⟨hp, fun r hr => hp.pairwise_functions hr⟩, ?_, ?_, ?_, ?_, ?_⟩
  -- A known name has one package, which registering finds again.
  · intro name
    refine ⟨?_, Program.findPackage?_eq_none_iff.2⟩
    intro r hr hname
    have hfind : p.findPackage? name = some r.id :=
      (Program.findPackage?_eq_some_iff hp.names).2 ⟨r, hr, hname, rfl⟩
    refine ⟨hfind, ?_⟩
    unfold Program.addPackage
    rw [hfind]
  · intro name package kind receiver refusal hrefused
    obtain ⟨hpackage, -, hsame⟩ := step_addFunction_refused hrefused
    exact ⟨hpackage, hsame⟩
  · rintro before after rfl
    have hafter := (List.forall_mem_append.1 hkeeps).2
    show Program.Keeps _ (s.steps (before ++ after)).2.run.program
    rw [steps_append]
    exact keeps_steps hafter
  · intro name id hmem
    exact package?_of_returned hkeeps hs hfits hmem
  · intro name package kind receiver id hmem
    obtain ⟨f, hf, hregistered⟩ := function?_of_returned hkeeps hfits hmem
    refine ⟨f, hf, ?_, ?_, ?_, ?_⟩
    · exact congrArg (·.name) hregistered
    · exact congrArg (·.package) hregistered
    · exact congrArg (·.kind) hregistered
    · exact congrArg (·.receiver) hregistered

/-- A package is registered twice, a function of an unknown package is refused, and a batch is taken
in between registrations. -/
theorem registration_stays_consistent_of_refused :
    let s := Session.start (.start 4096 none default)
    let whats : List Step := [.addPackage "p", .addFunction "f" ⟨1⟩ .function "", .addPackage "q",
      .addFunction "f" ⟨1⟩ .method "*T", .addPackage "p", .freeze,
      .ingest (.ofList [(⟨0⟩, [⟨⟨64, 4⟩, default⟩])]) none, .addFunction "g" ⟨1⟩ .function ""]
    let p := (s.steps whats).2.run.program
    s.run.program = .empty .keepFirst ∧ (∀ what ∈ whats, what.keepsProgram) ∧ p.Fits ∧
      p.Consistent ∧ p.packages.map (·.functions) = [[], [⟨0⟩, ⟨1⟩]] ∧
      p.findPackage? "q" = some ⟨1⟩ ∧
      ∃ f, p.function? ⟨0⟩ = some f ∧ f.name = "f" ∧ f.kind = .method := by
  intro s whats p
  have hnew : s.run.program = .empty .keepFirst := rfl
  have hkeeps : ∀ what ∈ whats, what.keepsProgram := by decide
  have hlength : (p.packages.length, p.functions.length) = (2, 2) := by
    unfold p whats s
    cbv
  have hlisted : p.packages.map (·.functions) = [[], [⟨0⟩, ⟨1⟩]] := by
    unfold p whats s
    cbv
  have hpackages : p.packages.map (fun r => (r.name, r.id)) = [("p", ⟨0⟩), ("q", ⟨1⟩)] := by
    unfold p whats s
    cbv
  have hreturned : (.addFunction "f" ⟨1⟩ .method "*T", .ok (.function ⟨0⟩)) ∈
      whats.zip (s.steps whats).1 := by
    apply List.mem_of_getElem? (i := 3)
    unfold whats s
    cbv
  obtain ⟨hpackagesLength, hfunctionsLength⟩ := Prod.mk.inj hlength
  have hfits : p.Fits := by
    constructor
    · rw [hpackagesLength]
      decide
    · rw [hfunctionsLength]
      decide
  obtain ⟨⟨hp, -⟩, hnames, -, -, -, hfunctions⟩ :=
    registration_stays_consistent .keepFirst s whats hnew hkeeps hfits
  have hmem : ("q", (⟨1⟩ : PackageId)) ∈ p.packages.map fun r => (r.name, r.id) := by
    rw [hpackages]
    decide
  obtain ⟨r, hr, hq⟩ := List.mem_map.1 hmem
  obtain ⟨hname, hid⟩ := Prod.mk.inj hq
  have hfind := ((hnames "q").1 r hr hname).1
  obtain ⟨f, hf, hname, -, hkind, -⟩ := hfunctions _ _ _ _ _ hreturned
  exact ⟨hnew, hkeeps, hfits, hp, hlisted, hid ▸ hfind, f, hf, hname, hkind⟩

end Session

end ByteCensus
