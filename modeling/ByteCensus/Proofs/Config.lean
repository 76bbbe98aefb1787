import ByteCensus.Config
import ByteCensus.Proofs.Json.Grammar
import ByteCensus.Proofs.Serial

/-!
# Reading configurations

A configuration text lays what it gives over the defaults.  `Config.Reads` says which JSON values
are read as a configuration: a record, in either form, that has each known field at most once, with
a value for it, and each field that it does not have has its default; and the same again for the two
records inside.  Whatever else is in the records does not count.

`Config.text_lays_over_defaults` says that a text is read as a configuration iff it writes such a
value.
-/

namespace ByteCensus

namespace Json

variable {α β : Type} {names : List String} {given : String → Option Json} {r : Record} {v : Json}

/-! ### Records -/

/-- What the record gives for each of the names. -/
inductive HasFields (names : List String) (given : String → Option Json) : Json → Prop
  /-- Each field is given once or not at all, wherever it stands between the members. -/
  | object {members} (proper : ∀ member ∈ members, member.1.isSome)
      (once : ∀ name ∈ names, valuesOf name members = (given name).toList) :
      HasFields names given (.object members)
  /-- The fields stand in the order of the names, and may end early. -/
  | array {items} (fits : items.length ≤ names.length)
      (placed : ∀ name ∈ names, given name = items[names.idxOf name]?) :
      HasFields names given (.array items)

/-- The value of a field, if it is given. -/
def Record.value? (r : Record) (name : String) : Option Json :=
  match r.slot name with
  | .given v => some v
  | .leftOut | .cutOff => none

/-- What is read as a record gives each field at most once. -/
theorem hasFields_of_asRecord (h : v.asRecord names = .ok r) : HasFields names r.value? v := by
  unfold asRecord at h
  split at h
  · next members =>
    split at h
    · cases h
    · next hproper =>
      split at h
      · cases h
      · next honce =>
        cases h
        refine .object ?_ ?_
        · intro member hmember
          rw [Option.isSome_iff_ne_none]
          intro hnone
          exact hproper (List.any_eq_true.2 ⟨member, hmember, by rw [hnone]; rfl⟩)
        · intro name hname
          have hlength := List.find?_eq_none.1 honce name hname
          rw [decide_eq_true_eq, Nat.not_lt] at hlength
          unfold Record.value?
          dsimp only
          -- Two values for one name would have been refused.
          match hvalues : valuesOf name members with
          | [] => rfl
          | [v] => rfl
          | _ :: _ :: _ =>
            rw [hvalues, List.length_cons, List.length_cons] at hlength
            omega
  · next items =>
    split at h
    · cases h
    · next hfits =>
      cases h
      refine .array (Nat.not_lt.1 hfits) fun name _ => ?_
      unfold Record.value?
      dsimp only
      cases items[names.idxOf name]? <;> rfl
  · cases h

/-- A value that gives each field at most once is read as a record, with these fields. -/
theorem exists_asRecord_of_hasFields (h : HasFields names given v) :
    ∃ r, v.asRecord names = .ok r ∧ ∀ name ∈ names, r.value? name = given name := by
  cases h with
  | @object members proper once =>
    have hproper : members.any (·.1.isNone) = false := by
      rw [List.any_eq_false]
      intro member hmember
      have hsome := proper member hmember
      rw [Option.isSome_iff_ne_none] at hsome
      rwa [Option.isNone_iff_eq_none]
    have honce : names.find? (fun name => 1 < (valuesOf name members).length) = none := by
      rw [List.find?_eq_none]
      intro name hname
      rw [once name hname, decide_eq_true_eq]
      cases given name <;> simp
    rw [asRecord, hproper, honce]
    refine ⟨_, rfl, ?_⟩
    intro name hname
    unfold Record.value?
    dsimp only
    rw [once name hname]
    cases given name <;> rfl
  | @array items fits placed =>
    rw [asRecord, if_neg (Nat.not_lt.2 fits)]
    refine ⟨_, rfl, ?_⟩
    intro name hname
    unfold Record.value?
    dsimp only
    rw [placed name hname]
    cases items[names.idxOf name]? <;> rfl

theorem bind_eq_ok_iff {ε : Type} {x : Except ε α} {next : α → Except ε β} {b : β} :
    x >>= next = .ok b ↔ ∃ a, x = .ok a ∧ next a = .ok b := by
  cases x with
  | error e =>
    constructor
    · nofun
    · rintro ⟨_, ⟨⟩, -⟩
  | ok a =>
    constructor
    · exact fun h => ⟨a, rfl, h⟩
    · rintro ⟨_, ⟨⟩, h⟩
      exact h

/-- A record is read by what it gives for the names, where the reading asks for nothing else. -/
theorem asRecord_bind_eq_ok_iff (names : List String) {read : Record → Except Fault α}
    {P : (String → Option Json) → α → Prop} {a : α}
    (hread : ∀ r, read r = .ok a ↔ P r.value? a)
    (hnames : ∀ given given', (∀ name ∈ names, given name = given' name) → P given a →
      P given' a) :
    v.asRecord names >>= read = .ok a ↔ ∃ given, HasFields names given v ∧ P given a := by
  rw [bind_eq_ok_iff]
  constructor
  · rintro ⟨r, hr, ha⟩
    exact ⟨r.value?, hasFields_of_asRecord hr, (hread r).1 ha⟩
  · rintro ⟨given, hgiven, hP⟩
    -- The record that is read gives the same for the names, and that is all that `P` asks about.
    obtain ⟨r, hr, hsame⟩ := exists_asRecord_of_hasFields hgiven
    exact ⟨r, hr, (hread r).2 (hnames given _ (fun name hname => (hsame name hname).symm) hP)⟩

/-! ### Fields -/

/-- What a field has: what its value says, or else the default. -/
def Field (Reads : Json → α → Prop) (initial : α) : Option Json → α → Prop
  | none, a => a = initial
  | some v, a => Reads v a

/-- A field is read as its value says, and as the default if there is none. -/
theorem orDefault_eq_ok_iff {read : Json → Except Fault α} {Reads : Json → α → Prop}
    (hread : ∀ v a, read v = .ok a ↔ Reads v a) {name : String} {initial a : α} :
    r.orDefault name initial read = .ok a ↔ Field Reads initial (r.value? name) a := by
  unfold Record.orDefault Record.value?
  cases r.slot name with
  | given v => exact hread v a
  | leftOut | cutOff =>
    show Except.ok initial = .ok a ↔ a = initial
    rw [Except.ok.injEq, eq_comm]

theorem orDefault_of_given {name : String} (h : r.slot name = .given v) (initial : α)
    (read : Json → Except Fault α) : r.orDefault name initial read = read v := by
  rw [Record.orDefault, h]

/-- The value names it, by a text or as the key of an object with nothing but null. -/
def Names (name : α → String) (v : Json) (a : α) : Prop :=
  v = .text (some (name a)) ∨ v = .object [(some (name a), .null)]

/-- A value is read as one of finitely many iff it names it, if names tell them apart. -/
theorem toNamed_eq_ok_iff {all : List α} {name : α → String}
    (hname : ∀ a b, name a = name b → a = b) (hall : ∀ a, a ∈ all) {a : α} :
    toNamed all name v = .ok a ↔ Names name v a := by
  have hfound {written : String} (h : all.find? (name · = written) = some a) :
      name a = written := by
    simpa using List.find?_some h
  unfold toNamed Names
  constructor
  · intro h
    -- A text, an object with one member, or neither.
    split at h
    · dsimp only [bind, Except.bind] at h
      split at h
      · next hfind =>
        cases h
        rw [hfound hfind]
        exact .inl rfl
      · cases h
    · dsimp only [bind, Except.bind] at h
      split at h
      · next hfind =>
        cases h
        rw [hfound hfind]
        exact .inr rfl
      · cases h
    · cases h
  · have hfind := Serial.find?_name hname (hall a)
    rintro (rfl | rfl) <;> simp only [bind, Except.bind, hfind]

/-- The value is a number of digits only, below `2 ^ 64`. -/
def IsWord64 (v : Json) (w : UInt64) : Prop :=
  ∃ n : Numeral, v = .number n ∧ n.toNat? = some w.toNat

/-- What is read as a number is one without sign, point and exponent, below the bound. -/
theorem toNatBelow_eq_ok_iff {bound k : Nat} : v.toNatBelow bound = .ok k ↔
    ∃ n : Numeral, v = .number n ∧ n.toNat? = some k ∧ k < bound := by
  constructor
  · intro h
    cases v with
    | number n =>
      rw [toNatBelow] at h
      split at h
      · next k' hn =>
        split at h
        · next hlt =>
          cases h
          exact ⟨n, rfl, hn, hlt⟩
        · cases h
      · cases h
    | _ => cases h
  · rintro ⟨n, rfl, hn, hlt⟩
    rw [toNatBelow, hn]
    exact if_pos hlt

theorem toWord64_eq_ok_iff {w : UInt64} : v.toWord64 = .ok w ↔ IsWord64 v w := by
  have hmap : v.toWord64 = .ok w ↔ v.toNatBelow UInt64.size = .ok w.toNat := by
    unfold toWord64
    cases hk : v.toNatBelow UInt64.size with
    | error fault => exact ⟨nofun, nofun⟩
    | ok k =>
      obtain ⟨-, -, -, hlt⟩ := toNatBelow_eq_ok_iff.1 hk
      show Except.ok (UInt64.ofNat k) = .ok w ↔ Except.ok k = .ok w.toNat
      rw [Except.ok.injEq, Except.ok.injEq, ← UInt64.toNat_inj, UInt64.toNat_ofNat_of_lt' hlt]
  rw [hmap, toNatBelow_eq_ok_iff]
  unfold IsWord64
  simp only [w.toNat_lt_size, and_true]

end Json

/-! ### What is laid over the defaults -/

open Json

namespace SpacePolicies

def fieldNames : List String := ["pc_table", "symbol", "debug_info", "disasm"]

/-- The default policies with what is given laid over them. -/
structure LaysOver (given : String → Option Json) (p : SpacePolicies) : Prop where
  pcTable : Field (Names DuplicatePolicy.name) (default : SpacePolicies).pcTable
    (given "pc_table") p.pcTable
  symbol : Field (Names DuplicatePolicy.name) (default : SpacePolicies).symbol
    (given "symbol") p.symbol
  debugInfo : Field (Names DuplicatePolicy.name) (default : SpacePolicies).debugInfo
    (given "debug_info") p.debugInfo
  disassembly : Field (Names DuplicatePolicy.name) (default : SpacePolicies).disassembly
    (given "disasm") p.disassembly

/-- The value is a record of policies, some of which may be left out. -/
def Reads (v : Json) (p : SpacePolicies) : Prop :=
  ∃ given, HasFields fieldNames given v ∧ p.LaysOver given

end SpacePolicies

namespace IngestConfig

def fieldNames : List String := ["conflict_policy", "parallel_threshold"]

/-- The default with what is given laid over it. -/
structure LaysOver (given : String → Option Json) (c : IngestConfig) : Prop where
  conflictPolicy : Field (Names ConflictPolicy.name) (default : IngestConfig).conflictPolicy
    (given "conflict_policy") c.conflictPolicy
  parallelThreshold : Field IsWord64 (default : IngestConfig).parallelThreshold
    (given "parallel_threshold") c.parallelThreshold

/-- The value is a record of what concerns batches, of which any may be left out. -/
def Reads (v : Json) (c : IngestConfig) : Prop :=
  ∃ given, HasFields fieldNames given v ∧ c.LaysOver given

end IngestConfig

namespace Config

def fieldNames : List String := ["spaces", "disasm"]

/-- The default configuration with what is given laid over it, at both levels. -/
structure LaysOver (given : String → Option Json) (c : Config) : Prop where
  spaces : Field SpacePolicies.Reads (default : Config).spaces (given "spaces") c.spaces
  ingest : Field IngestConfig.Reads (default : Config).ingest (given "disasm") c.ingest

/-- The value is a record of a configuration, of which either part may be left out. -/
def Reads (v : Json) (c : Config) : Prop :=
  ∃ given, HasFields fieldNames given v ∧ c.LaysOver given

end Config

/-! ### Values as configurations -/

theorem DuplicatePolicy.ofJson_eq_ok_iff (v : Json) (p : DuplicatePolicy) :
    Serial.ofJson v = .ok p ↔ Names DuplicatePolicy.name v p :=
  toNamed_eq_ok_iff (fun _ _ => name_injective) mem_all

theorem ConflictPolicy.ofJson_eq_ok_iff (v : Json) (p : ConflictPolicy) :
    Serial.ofJson v = .ok p ↔ Names ConflictPolicy.name v p :=
  toNamed_eq_ok_iff (fun _ _ => name_injective) mem_all

/-- A value is read as policies iff it lays some over the default ones. -/
theorem SpacePolicies.ofJson_eq_ok_iff (v : Json) (p : SpacePolicies) :
    Serial.ofJson v = .ok p ↔ Reads v p := by
  refine asRecord_bind_eq_ok_iff fieldNames (fun r => ?_) ?_
  · constructor
    · intro h
      obtain ⟨pcTable, hpcTable, h⟩ := bind_eq_ok_iff.1 h
      obtain ⟨symbol, hsymbol, h⟩ := bind_eq_ok_iff.1 h
      obtain ⟨debugInfo, hdebugInfo, h⟩ := bind_eq_ok_iff.1 h
      obtain ⟨disassembly, hdisassembly, h⟩ := bind_eq_ok_iff.1 h
      cases h
      constructor
      · exact (orDefault_eq_ok_iff DuplicatePolicy.ofJson_eq_ok_iff).1 hpcTable
      · exact (orDefault_eq_ok_iff DuplicatePolicy.ofJson_eq_ok_iff).1 hsymbol
      · exact (orDefault_eq_ok_iff DuplicatePolicy.ofJson_eq_ok_iff).1 hdebugInfo
      · exact (orDefault_eq_ok_iff DuplicatePolicy.ofJson_eq_ok_iff).1 hdisassembly
    · rintro ⟨hpcTable, hsymbol, hdebugInfo, hdisassembly⟩
      rw [← orDefault_eq_ok_iff DuplicatePolicy.ofJson_eq_ok_iff]
        at hpcTable hsymbol hdebugInfo hdisassembly
      refine bind_eq_ok_iff.2 ⟨_, hpcTable, bind_eq_ok_iff.2 ⟨_, hsymbol, ?_⟩⟩
      exact bind_eq_ok_iff.2 ⟨_, hdebugInfo, bind_eq_ok_iff.2 ⟨_, hdisassembly, rfl⟩⟩
  -- Only the four names are asked for.
  · rintro given given' hsame ⟨hpcTable, hsymbol, hdebugInfo, hdisassembly⟩
    rw [hsame _ (by decide)] at hpcTable hsymbol hdebugInfo hdisassembly
    exact ⟨hpcTable, hsymbol, hdebugInfo, hdisassembly⟩

theorem IngestConfig.ofJson_eq_ok_iff (v : Json) (c : IngestConfig) :
    Serial.ofJson v = .ok c ↔ Reads v c := by
  have hword (v : Json) (w : UInt64) : v.toWord64 = .ok w ↔ IsWord64 v w := toWord64_eq_ok_iff
  refine asRecord_bind_eq_ok_iff fieldNames (fun r => ?_) ?_
  · constructor
    · intro h
      obtain ⟨conflictPolicy, hpolicy, h⟩ := bind_eq_ok_iff.1 h
      obtain ⟨parallelThreshold, hthreshold, h⟩ := bind_eq_ok_iff.1 h
      cases h
      exact ⟨(orDefault_eq_ok_iff ConflictPolicy.ofJson_eq_ok_iff).1 hpolicy,
        (orDefault_eq_ok_iff hword).1 hthreshold⟩
    · rintro ⟨hpolicy, hthreshold⟩
      rw [← orDefault_eq_ok_iff ConflictPolicy.ofJson_eq_ok_iff] at hpolicy
      rw [← orDefault_eq_ok_iff hword] at hthreshold
      exact bind_eq_ok_iff.2 ⟨_, hpolicy, bind_eq_ok_iff.2 ⟨_, hthreshold, rfl⟩⟩
  · rintro given given' hsame ⟨hpolicy, hthreshold⟩
    rw [hsame _ (by decide)] at hpolicy hthreshold
    exact ⟨hpolicy, hthreshold⟩

namespace Config

theorem ofJson_eq_ok_iff (v : Json) (c : Config) : Serial.ofJson v = .ok c ↔ Reads v c := by
  refine asRecord_bind_eq_ok_iff fieldNames (fun r => ?_) ?_
  · constructor
    · intro h
      obtain ⟨spaces, hspaces, h⟩ := bind_eq_ok_iff.1 h
      obtain ⟨ingest, hingest, h⟩ := bind_eq_ok_iff.1 h
      cases h
      exact ⟨(orDefault_eq_ok_iff SpacePolicies.ofJson_eq_ok_iff).1 hspaces,
        (orDefault_eq_ok_iff IngestConfig.ofJson_eq_ok_iff).1 hingest⟩
    · rintro ⟨hspaces, hingest⟩
      rw [← orDefault_eq_ok_iff SpacePolicies.ofJson_eq_ok_iff] at hspaces
      rw [← orDefault_eq_ok_iff IngestConfig.ofJson_eq_ok_iff] at hingest
      exact bind_eq_ok_iff.2 ⟨_, hspaces, bind_eq_ok_iff.2 ⟨_, hingest, rfl⟩⟩
  · rintro given given' hsame ⟨hspaces, hingest⟩
    rw [hsame _ (by decide)] at hspaces hingest
    exact ⟨hspaces, hingest⟩

/-! ### Texts as configurations -/

variable {text : String} {c : Config} {members : List (Option String × Json)}

/-- A text is read as a configuration iff it writes a value that is. -/
theorem parse_eq_ok_iff : parse text = .ok c ↔ ∃ v, Writes text v ∧ Reads v c := by
  have hread : Serial.read text = .ok c ↔ ∃ v, Writes text v ∧ Reads v c := by
    unfold Serial.read
    rw [bind_eq_ok_iff]
    simp only [Json.parse_eq_ok_iff, ofJson_eq_ok_iff]
  rw [← hread]
  unfold parse
  cases (Serial.read text : Except Fault Config) with
  | ok c' => exact ⟨fun h => congrArg _ (Except.ok.inj h), fun h => congrArg _ (Except.ok.inj h)⟩
  | error fault => exact ⟨nofun, nofun⟩

/-- Whatever is wrong with a text, it is wrong with the configuration. -/
theorem parse_ok_or_config (text : String) :
    (∃ c, parse text = .ok c) ∨ ∃ reason, parse text = .error (.config reason) := by
  unfold parse
  cases (Serial.read text : Except Fault Config) with
  | ok c => exact .inl ⟨c, rfl⟩
  | error fault => exact .inr ⟨fault.message, rfl⟩

/-! ### Fields that are given twice -/

/-- One of the fields is given twice or more. -/
def Repeats (names : List String) (members : List (Option String × Json)) : Prop :=
  ∃ name ∈ names, 1 < (valuesOf name members).length

/-- No record gives a field twice. -/
theorem not_hasFields_of_repeats {names : List String} {given : String → Option Json}
    (h : Repeats names members) : ¬ HasFields names given (.object members) := by
  rintro (⟨-, once⟩ | _)
  obtain ⟨name, hname, hlength⟩ := h
  rw [once name hname] at hlength
  cases hgiven : given name <;> rw [hgiven] at hlength <;> simp at hlength

/-- A known field is given twice or more, in the configuration or in one of the records that it
gives. -/
def RepeatsKnown (members : List (Option String × Json)) : Prop :=
  Repeats fieldNames members ∨
    ∃ inner, (some "spaces", .object inner) ∈ members ∧ Repeats SpacePolicies.fieldNames inner ∨
      (some "disasm", .object inner) ∈ members ∧ Repeats IngestConfig.fieldNames inner

/-- The value of a member with a proper key is the one given for it. -/
theorem given_of_mem {names : List String} {given : String → Option Json} {name : String} {v : Json}
    (h : HasFields names given (.object members)) (hname : name ∈ names)
    (hmem : (some name, v) ∈ members) : given name = some v := by
  obtain ⟨-, once⟩ | _ := h
  have hvalues : v ∈ valuesOf name members :=
    List.mem_map_of_mem (List.mem_filter.2 ⟨hmem, decide_eq_true rfl⟩)
  rw [once name hname, Option.mem_toList] at hvalues
  exact hvalues

/-- An object in which a known field stands twice is no configuration. -/
theorem not_reads_of_repeatsKnown (h : RepeatsKnown members) : ¬ Reads (.object members) c := by
  rintro ⟨given, hgiven, hspaces, hingest⟩
  -- The field stands at the top, or in one of the two records inside.
  obtain htop | ⟨inner, ⟨hmem, hinner⟩ | ⟨hmem, hinner⟩⟩ := h
  · exact not_hasFields_of_repeats htop hgiven
  · rw [given_of_mem hgiven (by decide) hmem] at hspaces
    obtain ⟨given', hgiven', -⟩ := hspaces
    exact not_hasFields_of_repeats hinner hgiven'
  · rw [given_of_mem hgiven (by decide) hmem] at hingest
    obtain ⟨given', hgiven', -⟩ := hingest
    exact not_hasFields_of_repeats hinner hgiven'

/-- A text in which a known field stands twice is refused. -/
theorem parse_of_repeatsKnown (hwrites : Writes text (.object members))
    (h : RepeatsKnown members) : ∃ reason, parse text = .error (.config reason) := by
  obtain ⟨c, hok⟩ | hrefused := parse_ok_or_config text
  · obtain ⟨v, hv, hreads⟩ := parse_eq_ok_iff.1 hok
    -- A text writes one value only.
    have hsame : Except.ok v = Except.ok (.object members) :=
      (Json.parse_eq_ok_iff.2 hv).symm.trans (Json.parse_eq_ok_iff.2 hwrites)
    cases hsame
    exact absurd hreads (not_reads_of_repeatsKnown h)
  · exact hrefused

end Config

/-! ### Reading back -/

namespace Serial

theorem faithful_duplicatePolicy : Faithful DuplicatePolicy :=
  fun p => toNamed_text (fun _ _ => DuplicatePolicy.name_injective) p.mem_all

theorem faithful_conflictPolicy : Faithful ConflictPolicy :=
  fun p => toNamed_text (fun _ _ => ConflictPolicy.name_injective) p.mem_all

theorem faithful_spacePolicies : Faithful SpacePolicies := by
  intro p
  refine Json.read_record [("pc_table", toJson p.pcTable), ("symbol", toJson p.symbol),
    ("debug_info", toJson p.debugInfo), ("disasm", toJson p.disassembly)] rfl
    (by decide : SpacePolicies.fieldNames.Nodup) fun r hgiven => ?_
  have hpcTable := hgiven ("pc_table", toJson p.pcTable) (by simp)
  have hsymbol := hgiven ("symbol", toJson p.symbol) (by simp)
  have hdebugInfo := hgiven ("debug_info", toJson p.debugInfo) (by simp)
  have hdisassembly := hgiven ("disasm", toJson p.disassembly) (by simp)
  simp only [orDefault_of_given hpcTable, orDefault_of_given hsymbol,
    orDefault_of_given hdebugInfo, orDefault_of_given hdisassembly,
    faithful_duplicatePolicy p.pcTable, faithful_duplicatePolicy p.symbol,
    faithful_duplicatePolicy p.debugInfo, faithful_duplicatePolicy p.disassembly]
  rfl

theorem faithful_ingestConfig : Faithful IngestConfig := by
  intro c
  refine Json.read_record [("conflict_policy", toJson c.conflictPolicy),
    ("parallel_threshold", .ofNat c.parallelThreshold.toNat)] rfl
    (by decide : IngestConfig.fieldNames.Nodup) fun r hgiven => ?_
  have hpolicy := hgiven ("conflict_policy", toJson c.conflictPolicy) (by simp)
  have hthreshold := hgiven ("parallel_threshold", .ofNat c.parallelThreshold.toNat) (by simp)
  simp only [orDefault_of_given hpolicy, orDefault_of_given hthreshold,
    faithful_conflictPolicy c.conflictPolicy, toWord64_ofNat]
  rfl

theorem faithful_config : Faithful Config := by
  intro c
  refine Json.read_record [("spaces", toJson c.spaces), ("disasm", toJson c.ingest)] rfl
    (by decide : Config.fieldNames.Nodup) fun r hgiven => ?_
  have hspaces := hgiven ("spaces", toJson c.spaces) (by simp)
  have hingest := hgiven ("disasm", toJson c.ingest) (by simp)
  simp only [orDefault_of_given hspaces, orDefault_of_given hingest,
    faithful_spacePolicies c.spaces, faithful_ingestConfig c.ingest]
  rfl

end Serial

namespace Config

theorem parse_display (c : Config) : parse c.display = .ok c := by
  have hread : Serial.read c.display = .ok c := by
    rw [Serial.read, display, Json.parse_pretty]
    exact Serial.faithful_config c
  rw [parse, hread]

/-- **A configuration text lays what it gives over the defaults.**

* A text is read as a configuration iff it writes a record in which each known field stands once or
  not at all, at both levels, with a value for it; the fields that are not given have their
  defaults.  The order of members, members with other names and all that they hold, and blanks make
  no difference.
* Every other text is refused as a configuration, among them those of objects in which a known field
  stands twice.
* The text that is written for a configuration is read as that one. -/
theorem text_lays_over_defaults :
    (∀ text c, parse text = .ok c ↔ ∃ v, Writes text v ∧ Reads v c) ∧
    (∀ text, (∃ c, parse text = .ok c) ∨ ∃ reason, parse text = .error (.config reason)) ∧
    (∀ text members, Writes text (.object members) → RepeatsKnown members →
      ∃ reason, parse text = .error (.config reason)) ∧
    ∀ c : Config, parse c.display = .ok c :=
  ⟨fun _ _ => parse_eq_ok_iff, parse_ok_or_config, fun _ _ => parse_of_repeatsKnown, parse_display⟩

/-- A member that is not known stands in front, the name of a known one is written with an escape,
and both levels give some of their fields only.  A policy that is given twice is refused. -/
theorem text_lays_over_defaults_of_escaped :
    let text := "\x7b\"x\": [\x7b\"symbol\": 1e9\x7d, \"\\ud800\"],\n\t\"sp\\u0061ces\": " ++
      "\x7b\"symbol\": \"replace\"\x7d, \"disasm\":\x7b\"parallel_threshold\":64\x7d \x7d"
    let twice := "\x7b\"spaces\":\x7b\"symbol\":\"replace\",\"x\":0,\"symbol\":\"reject\"\x7d\x7d"
    parse text = .ok ⟨{ (default : SpacePolicies) with symbol := .replace },
      { (default : IngestConfig) with parallelThreshold := 64 }⟩ ∧
    ∃ reason, parse twice = .error (.config reason) := by
  intro text twice
  obtain ⟨hiff, -, hrefused, -⟩ := text_lays_over_defaults
  let spaces := [(some "symbol", Json.text "replace")]
  let ingest := [(some "parallel_threshold", Json.ofNat 64)]
  let x := Json.array [.object [(some "symbol", .number ⟨['1', 'e', '9'], by decide⟩)], .text none]
  let members := [(some "x", x), (some "spaces", .object spaces), (some "disasm", .object ingest)]
  let inner := [(some "symbol", Json.text "replace"), (some "x", .ofNat 0),
    (some "symbol", .text "reject")]
  have hwrites : Writes text (.object members) := by
    apply Token.scan_eq_ok_iff.1
    rw [String.toList_append]
    decide +kernel
  have htwice : Writes twice (.object [(some "spaces", .object inner)]) := by
    apply Token.scan_eq_ok_iff.1
    decide +kernel
  have hspaces : SpacePolicies.Reads (.object spaces)
      { (default : SpacePolicies) with symbol := .replace } := by
    refine ⟨fun name => (valuesOf name spaces).head?, .object (by simp [spaces]) ?_, ?_⟩
    · simp [spaces, SpacePolicies.fieldNames, valuesOf]
    · exact ⟨rfl, .inl rfl, rfl, rfl⟩
  have hingest : IngestConfig.Reads (.object ingest)
      { (default : IngestConfig) with parallelThreshold := 64 } := by
    refine ⟨fun name => (valuesOf name ingest).head?, .object (by simp [ingest]) ?_, ?_⟩
    · simp [ingest, IngestConfig.fieldNames, valuesOf]
    · exact ⟨rfl, ⟨_, rfl, Numeral.toNat?_ofNat 64⟩⟩
  refine ⟨(hiff _ _).2 ⟨_, hwrites, ?_⟩, hrefused _ _ htwice ?_⟩
  · refine ⟨fun name => (valuesOf name members).head?, .object (by simp [members]) ?_, ?_⟩
    · simp [members, fieldNames, valuesOf]
    · exact ⟨hspaces, hingest⟩
  · refine .inr ⟨inner, .inl ⟨List.mem_singleton_self _, "symbol", by decide, ?_⟩⟩
    simp [inner, valuesOf]

end Config

end ByteCensus
