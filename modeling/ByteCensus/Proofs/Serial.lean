import ByteCensus.Evidence.Serial
import ByteCensus.Proofs.Json.Value
import Mathlib.Data.List.Nodup

/-!
# Reading back serialized values

A serialized form is faithful if every value is read back from the JSON value that is written for it
(`Serial.Faithful`).  Reading a text adds nothing to that, since every JSON value comes back from
its compact text (`Serial.decode_encode`).

A record is written with each of its fields once, and then every field is found again under its name
(`Json.read_record`); what remains for each record is that its fields are faithful.  Two things are
special about details: the member that tells their shape has to be parted from the others, none of
which has its name, and all of them have to be fit to be held.
-/

namespace ByteCensus

/-! ### Records that are written in full -/

namespace Json

/-- The object with those members. -/
def record (fields : List (String × Json)) : Json :=
  object (fields.map fun field => (some field.1, field.2))

theorem valuesOf_cons (key name : String) (v : Json) (members : List (Option String × Json)) :
    valuesOf key ((some name, v) :: members) =
      if name = key then v :: valuesOf key members else valuesOf key members := by
  by_cases h : name = key <;> simp [valuesOf, h]

/-- A name that no field has is not found. -/
theorem valuesOf_eq_nil {fields : List (String × Json)} {key : String}
    (h : key ∉ fields.map Prod.fst) :
    valuesOf key (fields.map fun field => (some field.1, field.2)) = [] := by
  induction fields with
  | nil => rfl
  | cons field fields ih =>
    rw [List.map_cons, List.mem_cons, not_or] at h
    rw [List.map_cons, valuesOf_cons, if_neg (Ne.symm h.1), ih h.2]

/-- A field whose name no other field has is found once. -/
theorem valuesOf_eq_singleton {fields : List (String × Json)} (h : (fields.map Prod.fst).Nodup)
    {field : String × Json} (hfield : field ∈ fields) :
    valuesOf field.1 (fields.map fun field => (some field.1, field.2)) = [field.2] := by
  induction fields with
  | nil => cases hfield
  | cons first fields ih =>
    rw [List.map_cons, List.nodup_cons] at h
    rw [List.map_cons, valuesOf_cons]
    obtain rfl | hlater := List.mem_cons.mp hfield
    · rw [if_pos rfl, valuesOf_eq_nil h.1]
    · have hne : first.1 ≠ field.1 := by
        intro heq
        exact h.1 (heq ▸ List.mem_map_of_mem hlater)
      rw [if_neg hne, ih h.2 hlater]

/-- A record that has each field once is read with every field given. -/
theorem read_record (fields : List (String × Json)) {names : List String}
    (hnames : fields.map Prod.fst = names) (h : names.Nodup) {α : Type}
    {read : Record → Except Fault α} {a : α}
    (hread : ∀ r : Record, (∀ field ∈ fields, r.slot field.1 = .given field.2) → read r = .ok a) :
    (record fields).asRecord names >>= read = .ok a := by
  subst hnames
  -- No name is broken and none is given twice, so the object is a record with these slots.
  have hproper : (fields.map fun field : String × Json => (some field.1, field.2)).any (·.1.isNone)
      = false := by
    simp
  have honce : ((fields.map Prod.fst).find? fun name => decide
      (1 < (valuesOf name (fields.map fun field => (some field.1, field.2))).length)) = none := by
    rw [List.find?_eq_none]
    intro name hname
    obtain ⟨field, hfield, rfl⟩ := List.mem_map.mp hname
    simp [valuesOf_eq_singleton h hfield]
  rw [record, asRecord, hproper, honce]
  refine hread _ fun field hfield => ?_
  simp only [valuesOf_eq_singleton h hfield]

namespace Record

variable {α : Type} {r : Record} {name : String}

theorem required_of_given {v : Json} (h : r.slot name = .given v) (read : Json → Except Fault α) :
    r.required name read = read v := by
  rw [required, h]

/-- A field that holds something other than null is read. -/
theorem optional_of_given {v : Json} (h : r.slot name = .given v) (hnull : v ≠ .null)
    (read : Json → Except Fault α) : r.optional name read = some <$> read v := by
  cases v <;> simp_all [optional]

theorem optional_of_null (h : r.slot name = .given .null) (read : Json → Except Fault α) :
    r.optional name read = .ok none := by
  rw [optional, h]

/-- An optional text is read back, with and without a value. -/
theorem optional_ofText? {s : Option String} (h : r.slot name = .given (ofText? s)) :
    r.optional name toText = .ok s := by
  cases s with
  | none => exact optional_of_null h toText
  | some s =>
    rw [optional_of_given h (by simp [ofText?])]
    rfl

end Record

end Json

/-! ### Faithful forms -/

namespace Serial

/-- Every value is read back from what is written for it. -/
def Faithful (α : Type) [Serial α] : Prop :=
  ∀ a : α, ofJson (toJson a) = .ok a

/-- Values with a faithful form are read back from their texts. -/
theorem decode_encode {α : Type} [Serial α] (h : Faithful α) (a : α) :
    decode α (encode a) = .ok a := by
  have hread : read (encode a) = .ok a := by
    rw [read, encode, Json.parse_compact]
    exact h a
  rw [decode, hread]

/-- A value is found by its name if names tell the values apart. -/
theorem find?_name {α : Type} {all : List α} {name : α → String}
    (hname : ∀ a b, name a = name b → a = b) {a : α} (ha : a ∈ all) :
    all.find? (name · = name a) = some a := by
  cases hfind : all.find? (name · = name a) with
  | none => exact absurd (List.find?_eq_none.mp hfind a ha) (by simp)
  | some b =>
    have hb : name b = name a := by simpa using List.find?_some hfind
    rw [hname b a hb]

/-- Names are faithful if they tell the values apart and all values are listed. -/
theorem toNamed_text {α : Type} {all : List α} {name : α → String}
    (hname : ∀ a b, name a = name b → a = b) {a : α} (ha : a ∈ all) :
    Json.toNamed all name (.text (name a)) = .ok a := by
  simp only [Json.toNamed, bind, Except.bind, find?_name hname ha]

theorem faithful_kind : Faithful ByteKind :=
  fun k => toNamed_text (fun a b => by cases a <;> cases b <;> decide) k.mem_all

theorem faithful_source : Faithful Source :=
  fun s => toNamed_text (fun _ _ => Source.name_injective) s.mem_all

theorem faithful_packageId : Faithful PackageId := by
  intro p
  simp [ofJson, toJson, Functor.map, Except.map]

theorem faithful_functionId : Faithful FunctionId := by
  intro f
  simp [ofJson, toJson, Functor.map, Except.map]

theorem faithful_span : Faithful Span := by
  intro s
  refine Json.read_record [("start", .ofNat s.start.toNat), ("size", .ofNat s.size.toNat)] rfl
    (by decide : ["start", "size"].Nodup) fun r hgiven => ?_
  have hstart := hgiven ("start", .ofNat s.start.toNat) (by simp)
  have hsize := hgiven ("size", .ofNat s.size.toNat) (by simp)
  simp only [Json.Record.required_of_given hstart, Json.Record.required_of_given hsize,
    Json.toWord64_ofNat]
  rfl

theorem faithful_part : Faithful Part := by
  intro p
  refine Json.read_record [("range", toJson p.span), ("typ", toJson p.kind)] rfl
    (by decide : ["range", "typ"].Nodup) fun r hgiven => ?_
  have hrange := hgiven ("range", toJson p.span) (by simp)
  have htyp := hgiven ("typ", toJson p.kind) (by simp)
  simp only [Json.Record.required_of_given hrange, Json.Record.required_of_given htyp,
    faithful_span p.span, faithful_kind p.kind]
  rfl

end Serial

/-! ### Details -/

namespace Detail

theorem isHeld_ofText? (room : Nat) (s : Option String) : (Json.ofText? s).isHeld room := by
  cases s <;> rfl

/-- Details are small and flat, and all their texts are proper ones. -/
theorem isHeld_toJson (d : Detail) {room : Nat} (h : 0 < room) : d.toJson.isHeld room := by
  cases d <;> simp [toJson, members, Json.isHeld, Json.membersAreHeld, isHeld_ofText?, h]

/-- No other member has the name of the tag. -/
theorem splitTag_toJson (d : Detail) :
    splitTag d.toJson = .ok (.text d.source.name, .object d.members) := by
  cases d <;> rfl

theorem sourceOfTag_name (s : Source) : sourceOfTag (.text s.name) = .ok s := by
  cases s <;> rfl

/-- The members behind the tag are read back as the detail that they were written for. -/
theorem ofMembers_members (d : Detail) : ofMembers (.object d.members) d.source = .ok d := by
  -- One record for each shape: every field is given, and the reader takes them by name.
  cases d with
  | pcTable d =>
    refine Json.read_record [("func_name", .text d.functionName),
      ("package_name", .text d.packageName), ("receiver", .text d.receiver),
      ("file_path", .ofText? d.filePath)] rfl
      (by decide : ["func_name", "package_name", "receiver", "file_path"].Nodup) fun r hgiven => ?_
    have hfunction := hgiven ("func_name", .text d.functionName) (by simp)
    have hpackage := hgiven ("package_name", .text d.packageName) (by simp)
    have hreceiver := hgiven ("receiver", .text d.receiver) (by simp)
    have hfile := hgiven ("file_path", .ofText? d.filePath) (by simp)
    simp only [Json.Record.required_of_given hfunction, Json.Record.required_of_given hpackage,
      Json.Record.required_of_given hreceiver, Json.Record.optional_ofText? hfile]
    rfl
  | symbol d =>
    refine Json.read_record [("symbol_name", .text d.symbolName)] rfl
      (by decide : ["symbol_name"].Nodup) fun r hgiven => ?_
    have hname := hgiven ("symbol_name", .text d.symbolName) (by simp)
    simp only [Json.Record.required_of_given hname]
    rfl
  | debugInfo d =>
    refine Json.read_record [("name", .text d.name), ("type_name", .ofText? d.typeName)] rfl
      (by decide : ["name", "type_name"].Nodup) fun r hgiven => ?_
    have hname := hgiven ("name", .text d.name) (by simp)
    have htype := hgiven ("type_name", .ofText? d.typeName) (by simp)
    simp only [Json.Record.required_of_given hname, Json.Record.optional_ofText? htype]
    rfl
  | disassembly d =>
    refine Json.read_record [("string_value", .ofText? d.literal)] rfl
      (by decide : ["string_value"].Nodup) fun r hgiven => ?_
    have hliteral := hgiven ("string_value", .ofText? d.literal) (by simp)
    simp only [Json.Record.optional_ofText? hliteral]
    rfl

/-- A detail is read back wherever it is nested less deeply than the limit. -/
theorem ofJson_toJson (d : Detail) {room : Nat} (h : 0 < room) : ofJson room d.toJson = .ok d := by
  rw [ofJson, isHeld_toJson d h, splitTag_toJson]
  change (do ofMembers (.object d.members) (← sourceOfTag (.text d.source.name))) = Except.ok d
  rw [sourceOfTag_name]
  exact ofMembers_members d

end Detail

/-! ### Evidence -/

namespace Serial

theorem faithful_detail : Faithful Detail :=
  fun d => d.ofJson_toJson (by decide)

/-- Evidence is read back, with all six of its fields. -/
theorem faithful_evidence : Faithful Evidence := by
  intro e
  refine Json.read_record
    [("range", toJson e.span), ("typ", toJson e.kind), ("source", toJson e.source),
      ("pkg", toJson e.package), ("function", (e.function.map toJson).getD .null),
      ("meta", toJson e.detail)] rfl
    (by decide : ["range", "typ", "source", "pkg", "function", "meta"].Nodup) fun r hgiven => ?_
  have hrange := hgiven ("range", toJson e.span) (by simp)
  have htyp := hgiven ("typ", toJson e.kind) (by simp)
  have hsource := hgiven ("source", toJson e.source) (by simp)
  have hpkg := hgiven ("pkg", toJson e.package) (by simp)
  have hfunction := hgiven ("function", (e.function.map toJson).getD .null) (by simp)
  have hmeta := hgiven ("meta", toJson e.detail) (by simp)
  -- The function is written as null where there is none.
  have hread : r.optional "function" (ofJson : Json → Except Json.Fault FunctionId)
      = .ok e.function := by
    cases hf : e.function with
    | none => exact Json.Record.optional_of_null (by rw [hfunction, hf]; rfl) _
    | some f =>
      rw [hf] at hfunction
      rw [Json.Record.optional_of_given hfunction (by simp [toJson, Json.ofNat])]
      change some <$> ofJson (toJson f) = .ok (some f)
      rw [faithful_functionId f]
      rfl
  -- The detail stands inside the brackets of the record, which leaves one level less.
  have hdetail : Detail.ofJson (Detail.nestingLimit - 1) (toJson e.detail) = .ok e.detail :=
    e.detail.ofJson_toJson (by decide)
  simp only [Json.Record.required_of_given hrange, Json.Record.required_of_given htyp,
    Json.Record.required_of_given hsource, Json.Record.required_of_given hpkg,
    Json.Record.required_of_given hmeta, hread, hdetail, faithful_span e.span, faithful_kind e.kind,
    faithful_source e.source, faithful_packageId e.package]
  rfl

/-- **Evidence, details and parts of coverages are read back from their texts.** -/
theorem evidence_decodes :
    (∀ e : Evidence, decode Evidence (encode e) = .ok e) ∧
      (∀ d : Detail, decode Detail (encode d) = .ok d) ∧
      ∀ p : Part, decode Part (encode p) = .ok p :=
  ⟨decode_encode faithful_evidence, decode_encode faithful_detail, decode_encode faithful_part⟩

/-- The tag comes first, and only quotes, backslashes and control characters are escaped. -/
example : encode (Detail.symbol ⟨"\"é\\\x01😀"⟩) =
    "\x7b\"source\":\"symbol\",\"symbol_name\":\"\\\"é\\\\\\u0001😀\"\x7d" := by
  cbv

end Serial

end ByteCensus
