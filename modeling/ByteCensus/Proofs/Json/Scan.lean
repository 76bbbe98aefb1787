import ByteCensus.Json.Token
import ByteCensus.Proofs.Text
import Mathlib.Data.List.Chain
import Mathlib.Data.List.TakeWhile

/-!
# Scanning what was spelled

`Token.scan` finds the tokens of every text that spells them, whatever blanks stand in between
(`Token.scan_of_spells`).  Only words and numerals need something behind them, since a run of word
characters is cut as long as possible: in `Token.Spells` no word character follows one directly.
Where no two of them stand side by side (`Token.Apart`) no blank is needed at all
(`Token.spells_compact`).

A quoted text is read one escape at a time.  The piece that the reading of an escape makes stands
for the character that was escaped (`exists_readPieces_escape`), so the text between the quotes
comes back whatever characters it has.
-/

namespace ByteCensus.Json

/-! ### Quoted texts -/

/-- In front of other pieces, the piece makes the character. -/
def Piece.StandsFor (p : Piece) (c : Char) : Prop :=
  ∀ pieces, joinPieces (p :: pieces) = (joinPieces pieces).map (c :: ·)

theorem Piece.standsFor_char (c : Char) : (Piece.char c).StandsFor c := by
  intro pieces
  simp [joinPieces]

/-- A unit below the surrogates is the character with that code point. -/
theorem Piece.standsFor_unit {c : Char} (h : c.toNat < 0xd800) :
    (Piece.unit c.toNat).StandsFor c := by
  intro pieces
  have hhigh : isHighSurrogate c.toNat = false := by
    rw [isHighSurrogate, decide_eq_false (by omega), Bool.false_and]
  have hlow : isLowSurrogate c.toNat = false := by
    rw [isLowSurrogate, decide_eq_false (by omega), Bool.false_and]
  rw [joinPieces.eq_def]
  simp [hhigh, hlow, Char.ofNat_toNat]

theorem hexValue?_digitChar : ∀ d < 16, hexValue? (Nat.digitChar d) = some d := by
  decide

theorem hexUnit?_digits {n : Nat} (h : n < 256) :
    hexUnit? '0' '0' (Nat.digitChar (n / 16)) (Nat.digitChar (n % 16)) = some n := by
  have hzero : hexValue? '0' = some 0 := hexValue?_digitChar 0 (by decide)
  have hhigh := hexValue?_digitChar (n / 16) (by omega)
  have hlow := hexValue?_digitChar (n % 16) (by omega)
  simp only [hexUnit?, hzero, hhigh, hlow, bind_pure_comp, Option.bind_eq_bind, Option.bind_some,
    Option.map_eq_map, Option.map_some, Option.some.injEq]
  omega

/-- What is written for a character is read as one piece that stands for it. -/
theorem exists_readPieces_escape (c : Char) : ∃ p : Piece, p.StandsFor c ∧
    ∀ cs, readPieces (escape c ++ cs) = (readPieces cs).map fun read => (p :: read.1, read.2) := by
  unfold escape
  split
  -- The seven characters with a short escape.
  iterate 7
    refine ⟨.char _, Piece.standsFor_char _, fun cs => ?_⟩
    cases hread : readPieces cs <;> simp [readPieces, shortEscape?, hread]
  rename_i hquote hbackslash _ _ _ _ _
  split
  · rename_i hcontrol
    have hsmall : c.toNat < 32 := hcontrol
    refine ⟨.unit c.toNat, Piece.standsFor_unit (by omega), fun cs => ?_⟩
    have hdigits := hexUnit?_digits (show c.toNat < 256 by omega)
    cases hread : readPieces cs <;> simp [unitEscape, readPieces, hdigits, hread]
  · rename_i hplain
    refine ⟨.char c, Piece.standsFor_char c, fun cs => ?_⟩
    have hc : ' ' ≤ c ∧ c ≠ '\\' := ⟨Char.not_lt.mp hplain, hbackslash⟩
    rw [List.singleton_append, readPieces.eq_4 c cs hquote (fun _ _ _ _ _ h _ => hbackslash h)
      (fun _ _ h _ => hbackslash h), if_pos hc]
    cases hread : readPieces cs <;> simp

/-- The text between quotes comes back. -/
theorem exists_readPieces_quoted (cs rest : List Char) : ∃ pieces,
    readPieces (cs.flatMap escape ++ '"' :: rest) = some (pieces, rest) ∧
      joinPieces pieces = some cs := by
  induction cs with
  | nil => exact ⟨[], by simp [readPieces], rfl⟩
  | cons c cs ih =>
    obtain ⟨p, hp, hread⟩ := exists_readPieces_escape c
    obtain ⟨pieces, hpieces, hjoin⟩ := ih
    refine ⟨p :: pieces, ?_, ?_⟩
    · rw [List.flatMap_cons, List.append_assoc, hread, hpieces]
      rfl
    · rw [hp, hjoin]
      rfl

/-! ### Words -/

theorem isWordChar_of_isDigit {c : Char} (h : c.isDigit) : isWordChar c := by
  simp [isWordChar, Char.isAlphanum, h]

theorem isWordChar_of_isDigits {cs : List Char} (h : isDigits cs) : ∀ c ∈ cs, isWordChar c := by
  intro c hc
  simp only [isDigits, Bool.and_eq_true] at h
  exact isWordChar_of_isDigit (List.all_eq_true.mp h.2 c hc)

/-- A sign that may be dropped is a word character, as are all others if the rest are. -/
theorem isWordChar_of_dropSign {cs : List Char} (h : ∀ c ∈ dropSign cs, isWordChar c) :
    ∀ c ∈ cs, isWordChar c := by
  unfold dropSign at h
  split at h
  · exact List.forall_mem_cons.mpr ⟨by decide, h⟩
  · exact List.forall_mem_cons.mpr ⟨by decide, h⟩
  · exact h

theorem isWordChar_of_isExponent {cs : List Char} (h : isExponent cs) :
    ∀ c ∈ cs, isWordChar c := by
  cases cs with
  | nil => exact fun c hc => absurd hc List.not_mem_nil
  | cons e cs =>
    simp only [isExponent, Bool.and_eq_true, Bool.or_eq_true, beq_iff_eq] at h
    refine List.forall_mem_cons.mpr ⟨?_, isWordChar_of_dropSign (isWordChar_of_isDigits h.2)⟩
    obtain rfl | rfl := h.1 <;> decide

/-- The digits at the head are word characters, and so are all if the rest are. -/
theorem isWordChar_of_dropWhile {cs : List Char}
    (h : ∀ c ∈ cs.dropWhile Char.isDigit, isWordChar c) : ∀ c ∈ cs, isWordChar c := by
  intro c hc
  rw [← List.takeWhile_append_dropWhile (p := Char.isDigit) (l := cs)] at hc
  obtain hc | hc := List.mem_append.mp hc
  · exact isWordChar_of_isDigit (List.mem_takeWhile_imp hc)
  · exact h c hc

theorem isWordChar_of_isFraction {cs : List Char} (h : isFraction cs) :
    ∀ c ∈ cs, isWordChar c := by
  unfold isFraction at h
  split at h
  · rw [Bool.and_eq_true] at h
    exact List.forall_mem_cons.mpr
      ⟨by decide, isWordChar_of_dropWhile (isWordChar_of_isExponent h.2)⟩
  · exact isWordChar_of_isExponent h

theorem isWordChar_of_isUnsigned {cs : List Char} (h : isUnsigned cs) :
    ∀ c ∈ cs, isWordChar c := by
  rw [isUnsigned, Bool.and_eq_true] at h
  exact isWordChar_of_dropWhile (isWordChar_of_isFraction h.2)

theorem isWordChar_of_isNumeral {cs : List Char} (h : isNumeral cs) : ∀ c ∈ cs, isWordChar c := by
  unfold isNumeral at h
  split at h
  · exact List.forall_mem_cons.mpr ⟨by decide, isWordChar_of_isUnsigned h⟩
  · exact isWordChar_of_isUnsigned h

namespace Token

/-- The token is cut as a run of word characters. -/
def isWord : Token → Bool
  | null | bool _ | number _ => true
  | _ => false

theorem isWordChar_of_mem_spell {t : Token} (h : t.isWord) : ∀ c ∈ t.spell, isWordChar c := by
  match t with
  | null => exact List.all_eq_true.mp rfl
  | bool true => exact List.all_eq_true.mp rfl
  | bool false => exact List.all_eq_true.mp rfl
  | number n => exact isWordChar_of_isNumeral n.isNumeral_chars

theorem ofWord_spell {t : Token} (h : t.isWord) : ofWord t.spell = .ok t := by
  match t with
  | null => rfl
  | bool true => rfl
  | bool false => rfl
  | number n =>
    -- None of the three words is a numeral.
    have hword : ∀ word, isNumeral word = false → n.chars ≠ word := by
      rintro word hword rfl
      rw [n.isNumeral_chars] at hword
      cases hword
    rw [spell, ofWord, if_neg (hword _ (by decide)), if_neg (hword _ (by decide)),
      if_neg (hword _ (by decide))]
    simp [Numeral.ofChars?, n.isNumeral_chars]

theorem spell_ne_nil (t : Token) : t.spell ≠ [] := by
  match t with
  | openArray | closeArray | openObject | closeObject | comma | colon => simp [spell]
  | null | bool true | bool false | text none => simp [spell]
  | text (some s) => simp [spell, quote]
  | number n =>
    intro hnil
    have hnumeral := n.isNumeral_chars
    rw [show n.chars = [] from hnil] at hnumeral
    exact absurd hnumeral (by decide)

/-- A token that is no word starts with no word character. -/
theorem not_isWordChar_head_spell {t : Token} (h : t.isWord = false) :
    ∀ c ∈ t.spell.head?, isWordChar c = false := by
  match t with
  | openArray | closeArray | openObject | closeObject | comma | colon | text none =>
    rintro c ⟨⟩
    decide
  | text (some s) =>
    rintro c ⟨⟩
    decide

/-! ### Single tokens -/

/-- A word character is no blank, no punctuation mark and no quote. -/
theorem classify_wordChar {c : Char} (h : isWordChar c) :
    isSpace c = false ∧ ofMark? c = none ∧ c ≠ '"' := by
  refine ⟨?_, ?_, ?_⟩
  · by_contra hspace
    simp only [isSpace, Bool.not_eq_false, Bool.or_eq_true, beq_iff_eq] at hspace
    rcases hspace with ((rfl | rfl) | rfl) | rfl <;> exact absurd h (by decide)
  · unfold ofMark?
    split <;> first | rfl | exact absurd h (by decide)
  · rintro rfl
    exact absurd h (by decide)

/-- The first token of a text that starts with a token in writing is that token. -/
theorem exists_scanFirst_spell (t : Token) {cs : List Char}
    (h : t.isWord → ∀ c ∈ cs.head?, isWordChar c = false) :
    ∃ c tail, t.spell ++ cs = c :: tail ∧ isSpace c = false ∧ scanFirst c tail = .ok (t, cs) := by
  cases hword : t.isWord with
  | true =>
    have hbehind := h hword
    have hof := ofWord_spell hword
    have hchars := isWordChar_of_mem_spell hword
    obtain ⟨c, word, hspell⟩ := List.exists_cons_of_ne_nil t.spell_ne_nil
    rw [hspell] at hof hchars
    have hc : isWordChar c := hchars c List.mem_cons_self
    have hrest : ∀ c ∈ word, isWordChar c := fun c hc => hchars c (List.mem_cons_of_mem _ hc)
    obtain ⟨hspace, hmark, hquote⟩ := classify_wordChar hc
    refine ⟨c, word ++ cs, by rw [hspell]; rfl, hspace, ?_⟩
    -- The run of word characters ends with the word, as the next character is none.
    have htake : (word ++ cs).takeWhile isWordChar = word :=
      Text.takeWhile_append_stop hrest hbehind
    have hdrop : (word ++ cs).dropWhile isWordChar = cs :=
      Text.dropWhile_append_stop hrest hbehind
    simp [scanFirst, hmark, hquote, hc, htake, hdrop, hof]
  | false =>
    match t with
    | openArray | closeArray | openObject | closeObject | comma | colon =>
      exact ⟨_, cs, rfl, by decide, rfl⟩
    | text (some s) =>
      obtain ⟨pieces, hread, hjoin⟩ := exists_readPieces_quoted s.toList cs
      refine ⟨'"', s.toList.flatMap escape ++ '"' :: cs, by simp [spell, quote], by decide, ?_⟩
      simp [scanFirst, ofMark?, hread, ofPieces, hjoin]
    | text none =>
      -- The unit d800 is the first of a pair, and nothing comes behind it.
      have hunit : hexUnit? 'd' '8' '0' '0' = some 0xd800 := by decide
      refine ⟨'"', ['\\', 'u', 'd', '8', '0', '0', '"'] ++ cs, rfl, by decide, ?_⟩
      simp [scanFirst, ofMark?, readPieces, hunit, ofPieces, joinPieces, isHighSurrogate]

/-! ### Texts of tokens -/

/-- The text has the tokens in this order, with any blanks around them. -/
inductive Spells : List Char → List Token → Prop
  | nil : Spells [] []
  | space {c cs ts} (hspace : isSpace c) (h : Spells cs ts) : Spells (c :: cs) ts
  | token {t cs ts} (hcut : t.isWord → ∀ c ∈ cs.head?, isWordChar c = false) (h : Spells cs ts) :
      Spells (t.spell ++ cs) (t :: ts)

theorem scan_space {c : Char} {cs : List Char} (h : isSpace c) : scan (c :: cs) = scan cs := by
  rw [scan, if_pos h]

theorem scan_token {c : Char} {cs rest : List Char} {t : Token} {ts : List Token}
    (hspace : isSpace c = false) (hfirst : scanFirst c cs = .ok (t, rest))
    (hrest : scan rest = .ok ts) : scan (c :: cs) = .ok (t :: ts) := by
  rw [scan, if_neg (by simp [hspace])]
  split
  · rename_i herror
    rw [hfirst] at herror
    cases herror
  · rename_i hok
    rw [hfirst] at hok
    obtain ⟨rfl, rfl⟩ := Prod.mk.inj (Except.ok.inj hok)
    rw [hrest]

/-- A text is cut into the tokens that it has in writing. -/
theorem scan_of_spells {cs : List Char} {ts : List Token} (h : Spells cs ts) :
    scan cs = .ok ts := by
  induction h with
  | nil => rw [scan]
  | space hspace _ ih => rw [scan_space hspace, ih]
  | @token t cs ts hcut _ ih =>
    obtain ⟨c, tail, heq, hspace, hfirst⟩ := exists_scanFirst_spell t hcut
    rw [heq]
    exact scan_token hspace hfirst ih

/-- No two words or numerals stand side by side. -/
def Apart (ts : List Token) : Prop :=
  ts.IsChain fun t u => t.isWord → u.isWord = false

theorem Apart.cons {t : Token} {ts : List Token} (h : t.isWord = false) (hts : Apart ts) :
    Apart (t :: ts) := by
  refine List.isChain_cons.mpr ⟨fun u _ hword => ?_, hts⟩
  rw [h] at hword
  cases hword

/-- Tokens that begin with no word may stand behind any others. -/
theorem Apart.append {ts us : List Token} (hts : Apart ts) (hus : Apart us)
    (h : ∀ u ∈ us.head?, u.isWord = false) : Apart (ts ++ us) :=
  List.isChain_append.mpr ⟨hts, hus, fun _ _ u hu _ => h u hu⟩

/-- Tokens that stand apart need no blanks in between. -/
theorem spells_compact {ts : List Token} (h : Apart ts) : Spells (compact ts) ts := by
  induction ts with
  | nil => exact .nil
  | cons t ts ih =>
    obtain ⟨hnext, htail⟩ := List.isChain_cons.mp h
    refine .token (fun hword => ?_) (ih htail)
    cases ts with
    | nil => rintro c ⟨⟩
    | cons u us =>
      have hhead : (compact (u :: us)).head? = u.spell.head? :=
        List.head?_append_of_ne_nil u.spell u.spell_ne_nil
      intro c hc
      exact not_isWordChar_head_spell (hnext u rfl hword) c (hhead ▸ hc)

end Token

end ByteCensus.Json
