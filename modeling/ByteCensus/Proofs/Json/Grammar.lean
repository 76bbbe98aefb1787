import ByteCensus.Proofs.Json.Value

/-!
# The texts of JSON

`Json.Writes` says which texts write a value: those that have the tokens of the value in their
order, with any blanks around them, and each text between quotes in any of the ways that escapes
allow.  The reader agrees with that, `Json.parse_eq_ok_iff`: it reads a value from just these texts,
and no other value.

The scanner is exact since every token that it cuts off is one in writing (`Token.scan_eq_ok_iff`).
The reader of tokens is exact since it forgets nothing: the tokens read are those of the brackets
still open and of what is complete inside them (`Progress.tokens_run`).

The text of a value over several lines is one of its texts, too (`Json.parse_pretty`).
-/

namespace ByteCensus.Json

/-! ### Quoted texts -/

/-- The characters between two quotes stand for these pieces. -/
inductive Pieces : List Char → List Piece → Prop
  | nil : Pieces [] []
  | plain {c cs pieces} (hc : ' ' ≤ c) (hquote : c ≠ '"') (hslash : c ≠ '\\')
      (h : Pieces cs pieces) : Pieces (c :: cs) (.char c :: pieces)
  | short {e c cs pieces} (he : shortEscape? e = some c) (h : Pieces cs pieces) :
      Pieces ('\\' :: e :: cs) (.char c :: pieces)
  | unit {a b c d value cs pieces} (hvalue : hexUnit? a b c d = some value)
      (h : Pieces cs pieces) :
      Pieces ('\\' :: 'u' :: a :: b :: c :: d :: cs) (.unit value :: pieces)

theorem readPieces_of_pieces {cs : List Char} {pieces : List Piece} (h : Pieces cs pieces)
    (rest : List Char) : readPieces (cs ++ '"' :: rest) = some (pieces, rest) := by
  induction h with
  | nil => rw [List.nil_append, readPieces]
  | @plain c cs pieces hc hquote hslash _ ih =>
    -- A plain character is neither a quote nor the start of an escape.
    rw [List.cons_append, readPieces.eq_4 c _ hquote (fun _ _ _ _ _ heq _ => hslash heq)
      (fun _ _ heq _ => hslash heq), if_pos ⟨hc, hslash⟩, ih]
    rfl
  | @short e c cs pieces he _ ih =>
    -- The letter u is no short escape.
    have hu : e ≠ 'u' := by
      rintro rfl
      cases he
    rw [List.cons_append, List.cons_append,
      readPieces.eq_3 e _ (fun _ _ _ _ _ heq _ => hu heq), he, ih]
    rfl
  | unit hvalue _ ih =>
    simp only [List.cons_append, readPieces, hvalue, ih]
    rfl

theorem pieces_of_readPieces {cs rest : List Char} {pieces : List Piece}
    (h : readPieces cs = some (pieces, rest)) :
    ∃ body, cs = body ++ '"' :: rest ∧ Pieces body pieces := by
  fun_induction readPieces cs generalizing pieces rest with
  | case1 r =>
    obtain ⟨rfl, rfl⟩ := Prod.mk.inj (Option.some.inj h)
    exact ⟨[], rfl, .nil⟩
  | case2 a b c d r ih =>
    obtain ⟨value, hvalue, h⟩ := Option.bind_eq_some_iff.1 h
    obtain ⟨⟨tail, r'⟩, hr, h⟩ := Option.bind_eq_some_iff.1 h
    obtain ⟨rfl, rfl⟩ := Prod.mk.inj (Option.some.inj h)
    obtain ⟨body, rfl, hbody⟩ := ih hr
    exact ⟨_, rfl, .unit hvalue hbody⟩
  | case3 e r _ ih =>
    obtain ⟨c, hc, h⟩ := Option.bind_eq_some_iff.1 h
    obtain ⟨⟨tail, r'⟩, hr, h⟩ := Option.bind_eq_some_iff.1 h
    obtain ⟨rfl, rfl⟩ := Prod.mk.inj (Option.some.inj h)
    obtain ⟨body, rfl, hbody⟩ := ih hr
    exact ⟨_, rfl, .short hc hbody⟩
  | case4 c r hquote _ _ hplain ih =>
    obtain ⟨⟨tail, r'⟩, hr, h⟩ := Option.bind_eq_some_iff.1 h
    obtain ⟨rfl, rfl⟩ := Prod.mk.inj (Option.some.inj h)
    obtain ⟨body, rfl, hbody⟩ := ih hr
    exact ⟨_, rfl, .plain hplain.1 hquote hplain.2 hbody⟩
  | case5 => cases h
  | case6 => cases h

namespace Token

/-! ### Single tokens -/

/-- The token may be written like this. -/
inductive Spelling : Token → List Char → Prop
  | own {t : Token} (h : ∀ s, t ≠ .text s) : Spelling t t.spell
  | quoted {body pieces} (h : Pieces body pieces) :
      Spelling (ofPieces pieces) ('"' :: body ++ ['"'])

theorem spelling_of_ofWord {word : List Char} {t : Token} (h : ofWord word = .ok t) :
    t.isWord ∧ t.spell = word := by
  unfold ofWord at h
  split at h
  · next hnull =>
    cases h
    exact ⟨rfl, hnull.symm⟩
  · split at h
    · next htrue =>
      cases h
      exact ⟨rfl, htrue.symm⟩
    · split at h
      · next hfalse =>
        cases h
        exact ⟨rfl, hfalse.symm⟩
      · split at h
        · next n hn =>
          cases h
          unfold Numeral.ofChars? at hn
          split at hn
          · cases hn
            exact ⟨rfl, rfl⟩
          · cases hn
        · cases h

theorem spelling_of_ofMark? {c : Char} {t : Token} (h : ofMark? c = some t) :
    (∀ s, t ≠ .text s) ∧ t.isWord = false ∧ t.spell = [c] := by
  unfold ofMark? at h
  split at h
  case h_7 => cases h
  all_goals
    cases h
    exact ⟨nofun, rfl, rfl⟩

/-- The first token that is cut off is there in writing, up to the end of its word. -/
theorem spelling_of_scanFirst {c : Char} {cs rest : List Char} {t : Token}
    (h : scanFirst c cs = .ok (t, rest)) :
    ∃ word, c :: cs = word ++ rest ∧ Spelling t word ∧
      (t.isWord → ∀ d ∈ rest.head?, isWordChar d = false) := by
  unfold scanFirst at h
  split at h
  · next mark hmark =>
    cases h
    obtain ⟨htext, hword, hspell⟩ := spelling_of_ofMark? hmark
    refine ⟨[c], rfl, hspell ▸ .own htext, ?_⟩
    rw [hword]
    nofun
  · split at h
    · next hquote =>
      split at h
      · next pieces rest' hread =>
        cases h
        obtain ⟨body, rfl, hbody⟩ := pieces_of_readPieces hread
        refine ⟨'"' :: body ++ ['"'], ?_, .quoted hbody, nofun⟩
        rw [hquote, List.append_assoc]
        rfl
      · cases h
    · split at h
      · next hc =>
        split at h
        · next hof =>
          cases h
          obtain ⟨hword, hspell⟩ := spelling_of_ofWord hof
          have htext : ∀ s, t ≠ .text s := by
            rintro s rfl
            cases hword
          refine ⟨t.spell, ?_, .own htext, fun _ => Text.stop_dropWhile cs⟩
          rw [hspell, List.cons_append, List.takeWhile_append_dropWhile]
        · cases h
      · cases h

/-- A text that starts with a token in writing has it as its first one. -/
theorem scanFirst_of_spelling {t : Token} {word rest : List Char} (h : Spelling t word)
    (hcut : t.isWord → ∀ c ∈ rest.head?, isWordChar c = false) :
    ∃ c tail, word ++ rest = c :: tail ∧ isSpace c = false ∧ scanFirst c tail = .ok (t, rest) := by
  cases h with
  | own => exact exists_scanFirst_spell t hcut
  | @quoted body pieces h =>
    refine ⟨'"', body ++ '"' :: rest, by simp, by decide, ?_⟩
    simp [scanFirst, ofMark?, readPieces_of_pieces h]

/-! ### Texts of tokens -/

/-- The text has the tokens in this order, each one written in some way, with any blanks around
them. -/
inductive Denotes : List Char → List Token → Prop
  | nil : Denotes [] []
  | space {c cs ts} (hspace : isSpace c) (h : Denotes cs ts) : Denotes (c :: cs) ts
  | token {t word cs ts} (hword : Spelling t word)
      (hcut : t.isWord → ∀ c ∈ cs.head?, isWordChar c = false) (h : Denotes cs ts) :
      Denotes (word ++ cs) (t :: ts)

/-- **The scanner finds the tokens of just those texts that have them in writing.** -/
theorem scan_eq_ok_iff {cs : List Char} {ts : List Token} : scan cs = .ok ts ↔ Denotes cs ts := by
  constructor
  · intro h
    -- On the length, since the scanner cuts off whole tokens.
    induction hlength : cs.length using Nat.strong_induction_on generalizing cs ts with
    | _ n ih =>
      cases cs with
      | nil =>
        rw [scan] at h
        cases h
        exact .nil
      | cons c cs =>
        rw [scan] at h
        split at h
        · next hspace => exact .space hspace (ih cs.length (by simp [← hlength]) h rfl)
        · split at h
          · cases h
          · next t rest hfirst =>
            have hshorter := length_scanFirst hfirst
            obtain ⟨word, hcs, hword, hcut⟩ := spelling_of_scanFirst hfirst
            split at h
            · cases h
            · next ts' hrest =>
              cases h
              rw [hcs]
              exact .token hword hcut (ih rest.length (by simp [← hlength]; omega) hrest rfl)
  · intro h
    induction h with
    | nil => rw [scan]
    | space hspace _ ih => rw [scan_space hspace, ih]
    | token hword hcut _ ih =>
      obtain ⟨c, tail, heq, hspace, hfirst⟩ := scanFirst_of_spelling hword hcut
      rw [heq]
      exact scan_token hspace hfirst ih

end Token

/-! ### What was read -/

/-- The tokens of earlier items, latest first, each with its comma. -/
def itemsRead : List Json → List Token
  | [] => []
  | v :: before => itemsRead before ++ v.tokens ++ [.comma]

/-- The tokens of earlier members, latest first, each with its comma. -/
def membersRead : List (Option String × Json) → List Token
  | [] => []
  | (key, v) :: before => membersRead before ++ .text key :: .colon :: v.tokens ++ [.comma]

theorem tokens_array (before : List Json) (v : Json) (items : List Json) :
    (array (before.reverse ++ v :: items)).tokens =
      .openArray :: itemsRead before ++ v.tokens ++ furtherItems items := by
  induction before generalizing v items with
  | nil => rfl
  | cons w before ih =>
    rw [List.reverse_cons, List.append_assoc, List.singleton_append, ih, furtherItems, itemsRead]
    simp

theorem tokens_object (before : List (Option String × Json)) (key : Option String) (v : Json)
    (members : List (Option String × Json)) :
    (object (before.reverse ++ (key, v) :: members)).tokens =
      .openObject :: membersRead before ++ .text key :: .colon :: v.tokens ++
        furtherMembers members := by
  induction before generalizing key v members with
  | nil => rfl
  | cons member before ih =>
    rw [List.reverse_cons, List.append_assoc, List.singleton_append, ih, furtherMembers,
      membersRead]
    simp

/-- The tokens of an open bracket and of what came behind it. -/
def Frame.tokens : Frame → List Token
  | items before => .openArray :: itemsRead before
  | members before key => .openObject :: membersRead before ++ [.text key, .colon]

/-- The tokens of all open brackets, of which the innermost comes first. -/
def openTokens : List Frame → List Token
  | [] => []
  | frame :: around => openTokens around ++ frame.tokens

namespace Progress

/-- All tokens read so far. -/
def tokens : Progress → List Token
  | value around => openTokens around
  | firstItem around => openTokens around ++ [.openArray]
  | firstKey around => openTokens around ++ [.openObject]
  | nextKey around before => openTokens around ++ .openObject :: membersRead before
  | colon around before key =>
    openTokens around ++ .openObject :: membersRead before ++ [.text key]
  | complete around v => openTokens around ++ v.tokens

variable {p q : Progress} {t : Token} {ts : List Token} {around : List Frame} {v : Json}

theorem tokens_start (h : start around t = .ok q) : q.tokens = openTokens around ++ [t] := by
  cases t <;> cases h <;> rfl

theorem tokens_proceed (h : proceed v around t = .ok q) :
    q.tokens = openTokens around ++ v.tokens ++ [t] := by
  unfold proceed at h
  split at h
  · cases h
    simp [tokens, openTokens, Frame.tokens, itemsRead]
  · cases h
    rw [tokens, List.reverse_cons, tokens_array]
    simp [openTokens, Frame.tokens, furtherItems]
  · cases h
    simp [tokens, openTokens, Frame.tokens, membersRead]
  · cases h
    rw [tokens, List.reverse_cons, tokens_object]
    simp [openTokens, Frame.tokens, furtherMembers]
  · cases h

/-- A token that is read is kept. -/
theorem tokens_step (h : p.step t = .ok q) : q.tokens = p.tokens ++ [t] := by
  unfold step at h
  split at h
  · exact tokens_start h
  · cases h
    simp [tokens, Json.tokens]
  · rw [tokens_start h]
    rfl
  · cases h
    simp [tokens, Json.tokens]
  · cases h
    simp [tokens, membersRead]
  · cases h
    simp [tokens]
  · cases h
    simp [tokens, openTokens, Frame.tokens]
  · exact tokens_proceed h
  · cases h

/-- **All tokens that are read are kept.** -/
theorem tokens_run (h : p.run ts = .ok q) : q.tokens = p.tokens ++ ts := by
  induction ts generalizing p with
  | nil =>
    cases h
    exact (List.append_nil _).symm
  | cons t ts ih =>
    cases hstep : p.step t with
    | error fault =>
      rw [run, List.foldlM_cons, hstep] at h
      cases h
    | ok p' =>
      rw [run_cons hstep] at h
      rw [ih h, tokens_step hstep, List.append_assoc]
      rfl

end Progress

/-! ### Values in texts -/

/-- **The reader of tokens reads a value from its tokens only.** -/
theorem ofTokens_eq_ok_iff {ts : List Token} {v : Json} : ofTokens ts = .ok v ↔ ts = v.tokens := by
  constructor
  · intro h
    unfold ofTokens at h
    cases hrun : ts.foldlM Progress.step (.value []) with
    | error fault =>
      rw [hrun] at h
      cases h
    | ok p =>
      rw [hrun] at h
      have hread := Progress.tokens_run hrun
      have hresult : p.result = .ok v := h
      unfold Progress.result at hresult
      split at hresult
      · cases hresult
        exact hread.symm
      · cases hresult
  · rintro rfl
    exact ofTokens_tokens v

/-- The text writes the value. -/
def Writes (s : String) (v : Json) : Prop := Token.Denotes s.toList v.tokens

/-- **A value is read from the texts that write it, and from no others.** -/
theorem parse_eq_ok_iff {s : String} {v : Json} : parse s = .ok v ↔ Writes s v := by
  unfold parse Writes
  rw [← Token.scan_eq_ok_iff]
  constructor
  · intro h
    cases hscan : Token.scan s.toList with
    | error fault =>
      rw [hscan] at h
      cases h
    | ok ts =>
      rw [hscan] at h
      rw [ofTokens_eq_ok_iff.1 h]
  · intro h
    rw [h]
    exact ofTokens_tokens v

/-! ### Texts over several lines -/

namespace Token

variable {cs : List Char} {t : Token} {ts : List Token}

theorem spells_blanks {blanks : List Char} (hblanks : ∀ c ∈ blanks, isSpace c) (h : Spells cs ts) :
    Spells (blanks ++ cs) ts := by
  induction blanks with
  | nil => exact h
  | cons c blanks ih =>
    obtain ⟨hc, hrest⟩ := List.forall_mem_cons.1 hblanks
    exact .space hc (ih hrest)

theorem spells_newLine (depth : Nat) (h : Spells cs ts) : Spells (newLine depth ++ cs) ts := by
  apply spells_blanks _ h
  refine List.forall_mem_cons.2 ⟨rfl, fun c hc => ?_⟩
  rw [List.eq_of_mem_replicate hc]
  rfl

/-- What is laid out for a token that is no word starts with no word character. -/
theorem head?_layout (depth : Nat) (h : t.isWord = false) (ts : List Token) :
    ∀ c ∈ (layout depth (t :: ts)).head?, isWordChar c = false := by
  unfold layout
  split
  case h_10 heq =>
    cases heq
    rw [List.head?_append_of_ne_nil _ t.spell_ne_nil]
    exact not_isWordChar_head_spell h
  all_goals rintro c ⟨⟩ <;> rfl

theorem spells_mark {c : Char} (hmark : ofMark? c = some t) (h : Spells cs ts) :
    Spells (c :: cs) (t :: ts) := by
  obtain ⟨-, hword, hspell⟩ := spelling_of_ofMark? hmark
  have hcut : t.isWord → ∀ c ∈ cs.head?, isWordChar c = false := by
    rw [hword]
    nofun
  have htoken := Spells.token hcut h
  rw [hspell] at htoken
  exact htoken

/-- Lines and indentation are blanks in between the tokens. -/
theorem spells_layout (h : Apart ts) (depth : Nat) : Spells (layout depth ts) ts := by
  fun_induction layout depth ts with
  | case1 => exact .nil
  | case2 depth ts ih =>
    -- Empty brackets stay on one line.
    have htail := (List.isChain_cons.1 (List.isChain_cons.1 h).2).2
    exact spells_mark rfl (spells_mark rfl (ih htail))
  | case3 depth ts ih =>
    have htail := (List.isChain_cons.1 (List.isChain_cons.1 h).2).2
    exact spells_mark rfl (spells_mark rfl (ih htail))
  | case4 depth ts _ ih => exact spells_mark rfl (spells_newLine _ (ih (List.isChain_cons.1 h).2))
  | case5 depth ts _ ih => exact spells_mark rfl (spells_newLine _ (ih (List.isChain_cons.1 h).2))
  | case6 depth ts ih => exact spells_newLine _ (spells_mark rfl (ih (List.isChain_cons.1 h).2))
  | case7 depth ts ih => exact spells_newLine _ (spells_mark rfl (ih (List.isChain_cons.1 h).2))
  | case8 depth ts ih => exact spells_mark rfl (spells_newLine _ (ih (List.isChain_cons.1 h).2))
  | case9 depth ts ih => exact spells_mark rfl (.space (by decide) (ih (List.isChain_cons.1 h).2))
  | case10 depth t ts _ _ _ _ _ _ _ _ ih =>
    obtain ⟨hnext, htail⟩ := List.isChain_cons.1 h
    refine .token (fun hword => ?_) (ih htail)
    cases ts with
    | nil => nofun
    | cons u us => exact head?_layout depth (hnext u rfl hword) us

end Token

/-- **Every JSON value is read back from its text over several lines.** -/
theorem parse_pretty (v : Json) : parse v.pretty = .ok v := by
  apply parse_of_spells
  rw [pretty, String.toList_ofList]
  exact Token.spells_layout (apart_tokens v) 0

end ByteCensus.Json
