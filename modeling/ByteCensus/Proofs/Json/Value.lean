import ByteCensus.Json.Value
import ByteCensus.Proofs.Json.Scan

/-!
# Reading back JSON values

Every JSON value comes back from its tokens (`Json.ofTokens_tokens`), so a text in which they are
spelled is read as the value, with whatever blanks between them (`Json.parse_of_spells`).  Its
compact text is one of these (`Json.parse_compact`), because the tokens of a value keep words and
numerals apart.

The reader keeps the open brackets on a stack instead of calling itself.  What carries the proof is
that the tokens of a value take it from waiting for a value to having that one complete, with the
same brackets open; `Progress.run_tokens` says so by the recursion of `Json.tokens`, together with
the same about the rest of an array and of an object.
-/

namespace ByteCensus.Json

/-! ### Words in the tokens of a value -/

theorem head?_furtherItems (items : List Json) :
    ∀ t ∈ (furtherItems items).head?, t.isWord = false := by
  cases items <;> rintro t ⟨⟩ <;> rfl

theorem head?_furtherMembers (members : List (Option String × Json)) :
    ∀ t ∈ (furtherMembers members).head?, t.isWord = false := by
  cases members <;> rintro t ⟨⟩ <;> rfl

mutual

theorem apart_tokens : ∀ v : Json, Token.Apart v.tokens
  | null | bool _ | number _ | text _ => List.isChain_singleton _
  | array [] => Token.Apart.cons rfl (List.isChain_singleton _)
  | array (v :: items) =>
    Token.Apart.cons rfl
      ((apart_tokens v).append (apart_furtherItems items) (head?_furtherItems items))
  | object [] => Token.Apart.cons rfl (List.isChain_singleton _)
  | object ((_, v) :: members) =>
    Token.Apart.cons rfl <| Token.Apart.cons rfl <| Token.Apart.cons rfl
      ((apart_tokens v).append (apart_furtherMembers members) (head?_furtherMembers members))

theorem apart_furtherItems : ∀ items : List Json, Token.Apart (furtherItems items)
  | [] => List.isChain_singleton _
  | v :: items =>
    Token.Apart.cons rfl
      ((apart_tokens v).append (apart_furtherItems items) (head?_furtherItems items))

theorem apart_furtherMembers :
    ∀ members : List (Option String × Json), Token.Apart (furtherMembers members)
  | [] => List.isChain_singleton _
  | (_, v) :: members =>
    Token.Apart.cons rfl <| Token.Apart.cons rfl <| Token.Apart.cons rfl
      ((apart_tokens v).append (apart_furtherMembers members) (head?_furtherMembers members))

end

/-! ### Tokens as values -/

namespace Progress

/-- Reads tokens one by one. -/
def run (p : Progress) (ts : List Token) : Except Fault Progress := ts.foldlM step p

@[simp] theorem run_nil (p : Progress) : p.run [] = .ok p := rfl

theorem run_cons {p q : Progress} {t : Token} (h : p.step t = .ok q) (ts : List Token) :
    p.run (t :: ts) = q.run ts := by
  rw [run, List.foldlM_cons, h]
  rfl

theorem run_append {p q : Progress} {ts : List Token} (h : p.run ts = .ok q) (us : List Token) :
    p.run (ts ++ us) = q.run us := by
  rw [run, List.foldlM_append]
  rw [run] at h
  rw [h]
  rfl

/-- No value starts with a closing bracket. -/
theorem tokens_eq_cons (v : Json) : ∃ t ts, v.tokens = t :: ts ∧ t ≠ .closeArray := by
  cases v with
  | null | bool _ | number _ | text _ => exact ⟨_, [], rfl, by simp⟩
  | array items => cases items <;> exact ⟨_, _, rfl, by simp⟩
  | object members => cases members <;> exact ⟨_, _, rfl, by simp⟩

/-- The first item of an array is read like a value behind the bracket. -/
theorem run_firstItem (around : List Frame) (v : Json) (ts : List Token) :
    (firstItem around).run (v.tokens ++ ts) =
      (value (.items [] :: around)).run (v.tokens ++ ts) := by
  -- The two states differ only in what they make of a closing bracket.
  obtain ⟨t, us, htokens, hclose⟩ := tokens_eq_cons v
  have hstep : (firstItem around).step t = (value (.items [] :: around)).step t := by
    cases t <;> first | rfl | exact absurd rfl hclose
  rw [htokens, List.cons_append, run, run, List.foldlM_cons, List.foldlM_cons, hstep]

mutual

/-- The tokens of a value complete it. -/
theorem run_tokens (around : List Frame) :
    ∀ v : Json, (value around).run v.tokens = .ok (complete around v)
  | .null | .bool _ | .number _ | .text _ => rfl
  | .array [] => rfl
  | .array (v :: items) => by
    -- The bracket is opened, the first item completed, and the rest is told by `run_furtherItems`.
    have hv := run_tokens (.items [] :: around) v
    have hopen : (value around).step .openArray = .ok (firstItem around) := rfl
    rw [Json.tokens, List.cons_append, run_cons hopen, run_firstItem, run_append hv,
      run_furtherItems around [] v items]
    rfl
  | .object [] => rfl
  | .object ((key, v) :: members) => by
    have hv := run_tokens (.members [] key :: around) v
    have hopen : (value around).step .openObject = .ok (firstKey around) := rfl
    have hkey : (firstKey around).step (.text key) = .ok (colon around [] key) := rfl
    have hcolon : (colon around [] key).step .colon = .ok (value (.members [] key :: around)) := rfl
    rw [Json.tokens, List.cons_append, List.cons_append, List.cons_append, run_cons hopen,
      run_cons hkey, run_cons hcolon, run_append hv, run_furtherMembers around [] key v members]
    rfl

/-- The tokens behind an item complete the array. -/
theorem run_furtherItems (around : List Frame) (before : List Json) (v : Json) :
    ∀ items, (complete (.items before :: around) v).run (furtherItems items)
      = .ok (complete around (.array (before.reverse ++ v :: items)))
  | [] => by
    have hclose : (complete (.items before :: around) v).step .closeArray
        = .ok (complete around (.array (v :: before).reverse)) := rfl
    rw [furtherItems, run_cons hclose, run_nil, List.reverse_cons]
  | w :: items => by
    have hw := run_tokens (.items (v :: before) :: around) w
    have hcomma : (complete (.items before :: around) v).step .comma
        = .ok (value (.items (v :: before) :: around)) := rfl
    rw [furtherItems, List.cons_append, run_cons hcomma, run_append hw,
      run_furtherItems around (v :: before) w items, List.reverse_cons, List.append_assoc]
    rfl

/-- The tokens behind a member complete the object. -/
theorem run_furtherMembers (around : List Frame) (before : List (Option String × Json))
    (key : Option String) (v : Json) :
    ∀ members, (complete (.members before key :: around) v).run (furtherMembers members)
      = .ok (complete around (.object (before.reverse ++ (key, v) :: members)))
  | [] => by
    have hclose : (complete (.members before key :: around) v).step .closeObject
        = .ok (complete around (.object ((key, v) :: before).reverse)) := rfl
    rw [furtherMembers, run_cons hclose, run_nil, List.reverse_cons]
  | (next, w) :: members => by
    have hw := run_tokens (.members ((key, v) :: before) next :: around) w
    have hcomma : (complete (.members before key :: around) v).step .comma
        = .ok (nextKey around ((key, v) :: before)) := rfl
    have hkey : (nextKey around ((key, v) :: before)).step (.text next)
        = .ok (colon around ((key, v) :: before) next) := rfl
    have hcolon : (colon around ((key, v) :: before) next).step .colon
        = .ok (value (.members ((key, v) :: before) next :: around)) := rfl
    rw [furtherMembers, List.cons_append, List.cons_append, List.cons_append, run_cons hcomma,
      run_cons hkey, run_cons hcolon, run_append hw,
      run_furtherMembers around ((key, v) :: before) next w members, List.reverse_cons,
      List.append_assoc]
    rfl

end

end Progress

/-- A value comes back from its tokens. -/
theorem ofTokens_tokens (v : Json) : ofTokens v.tokens = .ok v := by
  have hrun := Progress.run_tokens [] v
  rw [Progress.run] at hrun
  rw [ofTokens, hrun]
  rfl

/-! ### Texts as values -/

/-- A text that spells the tokens of a value is read as the value. -/
theorem parse_of_spells {s : String} {v : Json} (h : Token.Spells s.toList v.tokens) :
    parse s = .ok v := by
  rw [parse, Token.scan_of_spells h]
  exact ofTokens_tokens v

/-- **Every JSON value is read back from its compact text.** -/
theorem parse_compact (v : Json) : parse v.compact = .ok v := by
  apply parse_of_spells
  rw [compact, String.toList_ofList]
  exact Token.spells_compact (apart_tokens v)

end ByteCensus.Json
