import ByteCensus.Error
import ByteCensus.Evidence

/-!
# Stores of evidence

A store keeps the evidence of one decoder, at most one entry for each start address.  Entries are
never taken out.  What happens when evidence arrives at a start that is taken is the store's
`DuplicatePolicy`.

The entries are a list that ascends strictly by start, which is part of the type; the view of a
store is `get?`, and `get?_put` says how writing an entry changes it.
-/

namespace ByteCensus

/-- What a store does with evidence at a start that is already taken. -/
inductive DuplicatePolicy where
  /-- The newer entry takes the place of the older one. -/
  | replace
  /-- The older entry stays, and is widened where the newer one has the same kind and is larger.
  A newer one of another kind is refused. -/
  | keepFirst
  /-- Every newer entry is refused. -/
  | reject
deriving DecidableEq, Repr

instance : Inhabited DuplicatePolicy := ⟨.keepFirst⟩

namespace DuplicatePolicy

def all : List DuplicatePolicy := [replace, keepFirst, reject]

/-- The name of a policy in serialized form. -/
def name : DuplicatePolicy → String
  | replace => "replace"
  | keepFirst => "keep_first"
  | reject => "reject"

theorem mem_all (p : DuplicatePolicy) : p ∈ all := by
  cases p <;> decide

theorem name_injective {p q : DuplicatePolicy} (h : p.name = q.name) : p = q := by
  revert h
  cases p <;> cases q <;> decide

end DuplicatePolicy

/-- What became of evidence that a store accepted. -/
inductive InsertOutcome where
  /-- The start was free. -/
  | inserted
  /-- An older entry was overwritten. -/
  | replaced
  /-- An entry of the same kind and at least that size was there and stayed. -/
  | duplicate
  /-- A smaller entry of the same kind was there and was widened. -/
  | extended
deriving DecidableEq, Repr

/-- Evidence by start address. -/
structure Store where
  /-- What happens at a start that is taken. -/
  policy : DuplicatePolicy
  /-- The evidence, ascending by start. -/
  entries : List Evidence
  /-- No two entries share a start. -/
  ascending : entries.Pairwise fun e f => e.start < f.start
deriving DecidableEq

namespace Store

/-! ### Writing an entry into an ascending list -/

/-- Puts an entry in its place, over an entry with the same start. -/
def placeIn (e : Evidence) : List Evidence → List Evidence
  | [] => [e]
  | x :: rest =>
    if e.start < x.start then e :: x :: rest
    else if e.start = x.start then e :: rest
    else x :: placeIn e rest

theorem mem_of_mem_placeIn {e x : Evidence} {entries : List Evidence}
    (h : x ∈ placeIn e entries) : x = e ∨ x ∈ entries := by
  induction entries with
  | nil => simpa [placeIn] using h
  | cons y rest ih =>
    simp only [placeIn] at h
    split at h
    · simpa using h
    · split at h
      · rcases List.mem_cons.1 h with h | h
        · exact .inl h
        · exact .inr (List.mem_cons_of_mem y h)
      · rcases List.mem_cons.1 h with h | h
        · exact .inr (h ▸ List.mem_cons_self)
        · exact (ih h).imp id (List.mem_cons_of_mem y)

theorem pairwise_placeIn {entries : List Evidence} (e : Evidence)
    (h : entries.Pairwise fun x y => x.start < y.start) :
    (placeIn e entries).Pairwise fun x y => x.start < y.start := by
  induction entries with
  | nil => simp [placeIn]
  | cons y rest ih =>
    have ⟨hy, hrest⟩ := List.pairwise_cons.1 h
    simp only [placeIn]
    split
    · next before =>
      refine List.pairwise_cons.2 ⟨fun x hx => ?_, h⟩
      rcases List.mem_cons.1 hx with rfl | hx
      · exact before
      · exact UInt64.lt_trans before (hy x hx)
    · next notBefore =>
      split
      · next same => exact List.pairwise_cons.2 ⟨fun x hx => same ▸ hy x hx, hrest⟩
      · next other =>
        refine List.pairwise_cons.2 ⟨fun x hx => ?_, ih hrest⟩
        rcases mem_of_mem_placeIn hx with rfl | hx
        · exact UInt64.lt_of_le_of_ne (UInt64.not_lt.1 notBefore) (Ne.symm other)
        · exact hy x hx

theorem find?_placeIn (e : Evidence) (entries : List Evidence) (a : Address) :
    (placeIn e entries).find? (·.start = a)
      = if e.start = a then some e else entries.find? (·.start = a) := by
  induction entries with
  | nil => by_cases h : e.start = a <;> simp [placeIn, h]
  | cons y rest ih =>
    simp only [placeIn]
    split
    · by_cases h : e.start = a <;> simp [h]
    · split
      · next same => by_cases h : e.start = a <;> simp [h, ← same]
      · next other =>
        by_cases hy : y.start = a
        · have : e.start ≠ a := fun h => other (h.trans hy.symm)
          simp [hy, this]
        · simp [hy, ih]

/-! ### Operations -/

def empty (policy : DuplicatePolicy) : Store := ⟨policy, [], .nil⟩

instance : Inhabited Store := ⟨empty default⟩

/-- The entry with that start. -/
def get? (s : Store) (start : Address) : Option Evidence :=
  s.entries.find? (·.start = start)

/-- The store with the entry written, whatever was there. -/
def put (s : Store) (e : Evidence) : Store :=
  { s with entries := placeIn e s.entries, ascending := pairwise_placeIn e s.ascending }

/-- Adds evidence, and lets the policy decide where the start is taken. -/
def insert (s : Store) (e : Evidence) : Except Error (InsertOutcome × Store) :=
  match s.get? e.start with
  | none => .ok (.inserted, s.put e)
  | some kept =>
    let refusal := Error.duplicateStart e.start kept.kind e.kind
    match s.policy with
    | .replace => .ok (.replaced, s.put e)
    | .keepFirst =>
      if kept.kind ≠ e.kind then .error refusal
      else if e.span.size ≤ kept.span.size then .ok (.duplicate, s)
      -- The older entry stays but for its extent, and for an owner it does not have.
      else .ok (.extended, s.put
        { kept with span := e.span, function := kept.function <|> e.function })
    | .reject => .error refusal

/-- Makes a function the owner of the entry with that start; `none` if there is no such entry. -/
def setFunction? (s : Store) (start : Address) (function : FunctionId) : Option Store :=
  (s.get? start).map fun e => s.put { e with function := some function }

def size (s : Store) : Nat := s.entries.length

def isEmpty (s : Store) : Bool := s.entries.isEmpty

/-- The spans and kinds of all entries. -/
def parts (s : Store) : List Part := s.entries.map Evidence.part

/-- The sizes of all entries added up, stopping at the highest number.  Overlapping entries count
twice. -/
def bytes (s : Store) : UInt64 := Coverage.totalBytes s.parts

/-- A snapshot of the entries as a coverage. -/
def coverage (s : Store) : Coverage := Coverage.ofParts s.parts

/-! ### The view -/

@[simp] theorem get?_empty (policy : DuplicatePolicy) (a : Address) :
    (empty policy).get? a = none := rfl

/-- Writing an entry changes what is at its start, and nothing else. -/
theorem get?_put (s : Store) (e : Evidence) (a : Address) :
    (s.put e).get? a = if e.start = a then some e else s.get? a :=
  find?_placeIn e s.entries a

@[simp] theorem policy_put (s : Store) (e : Evidence) : (s.put e).policy = s.policy := rfl

/-- An entry is found under its own start. -/
theorem start_of_get? {s : Store} {a : Address} {e : Evidence} (h : s.get? a = some e) :
    e.start = a := by
  simpa using List.find?_some h

end Store

end ByteCensus
