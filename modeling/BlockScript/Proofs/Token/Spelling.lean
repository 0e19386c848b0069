import BlockScript.Token.Lexer
import Mathlib.Tactic.Common

/-!
# Spelling of words

Which texts are names and numbers, and that the lexer reads such a text, a quoted literal or an
operator as one lexeme wherever nothing that follows could belong to it.
-/

namespace BlockScript

/-- A letter, then letters, digits and hyphens, which are not a reserved word. -/
def IsIdentifier (s : String) : Prop :=
  (∃ c cs, s.toList = c :: cs ∧ Token.isLetter c ∧ ∀ d ∈ cs, Token.isWordChar d) ∧
    ∀ word : Keyword, word.spelling ≠ s

/-- Digits, one at least, and a sign before them or none. -/
def IsWhole (cs : List Char) : Prop :=
  ∃ sign digits, cs = sign ++ digits ∧ (sign = [] ∨ sign = ['+'] ∨ sign = ['-']) ∧
    digits ≠ [] ∧ ∀ d ∈ digits, d.isDigit

/-- A whole number, a point and digits, one at least. -/
def IsFractional (cs : List Char) : Prop :=
  ∃ whole places, cs = whole ++ '.' :: places ∧ IsWhole whole ∧
    places ≠ [] ∧ ∀ d ∈ places, d.isDigit

theorem Keyword.ofSpelling?_eq_some_iff {s : String} {word : Keyword} :
    Keyword.ofSpelling? s = some word ↔ word.spelling = s := by
  constructor
  · intro h
    simpa using List.find?_some h
  · rintro rfl
    cases word <;> decide

theorem Keyword.ofSpelling?_eq_none_iff {s : String} :
    Keyword.ofSpelling? s = none ↔ ∀ word : Keyword, word.spelling ≠ s := by
  constructor
  · intro h word hw
    rw [Keyword.ofSpelling?_eq_some_iff.mpr hw] at h
    cases h
  · intro h
    cases hs : Keyword.ofSpelling? s with
    | none => rfl
    | some word => exact (h word (Keyword.ofSpelling?_eq_some_iff.mp hs)).elim

namespace Token

/-- No name, number or operator goes on into the text. -/
structure Stops (rest : List Char) : Prop where
  head : ∀ c ∈ rest.head?, isWordChar c = false ∧ c ≠ '='
  point : ∀ cs, rest = '.' :: cs → beginsDigit cs = false

/-- The text `raw` before `rest` is one lexeme. -/
def IsLexeme (afterOperand : Bool) (kind : Kind) (value raw rest : List Char) : Prop :=
  ∃ c cs, raw = c :: cs ∧ isBlank c = false ∧
    lexeme afterOperand c (cs ++ rest) = .ok ⟨kind, value, raw, rest⟩

theorem span_append {p : Char → Bool} {cs r : List Char} (h : ∀ c ∈ cs, p c)
    (hr : ∀ c ∈ r.head?, p c = false) :
    (cs ++ r).takeWhile p = cs ∧ (cs ++ r).dropWhile p = r := by
  rw [List.takeWhile_append_of_pos h, List.dropWhile_append_of_pos h]
  cases r with
  | nil => simp
  | cons c r => simp [hr c (by simp)]

theorem digit_isWordChar {c : Char} (h : c.isDigit) : isWordChar c := by simp [isWordChar, h]

theorem digit_not_blank {c : Char} (h : c.isDigit) : isBlank c = false := by
  by_contra hb
  simp only [isBlank, Bool.not_eq_false, Bool.or_eq_true, decide_eq_true_eq] at hb
  rcases hb with (((rfl | rfl) | rfl) | rfl) | rfl <;> revert h <;> decide

theorem letter_not_blank {c : Char} (h : isLetter c) : isBlank c = false := by
  by_contra hb
  simp only [isBlank, Bool.not_eq_false, Bool.or_eq_true, decide_eq_true_eq] at hb
  rcases hb with (((rfl | rfl) | rfl) | rfl) | rfl <;> revert h <;> decide

theorem letter_not_digit {c : Char} (h : isLetter c) : c.isDigit = false := by
  have hletter : (c.isUpper || c.isLower || decide (c = '_')) = true := h
  simp only [Bool.or_eq_true, decide_eq_true_eq] at hletter
  simp only [Char.isDigit, Bool.and_eq_false_iff, decide_eq_false_iff_not, UInt32.le_iff_toNat_le]
  have h9 : '9'.val.toNat = 57 := rfl
  rcases hletter with (hupper | hlower) | rfl
  · have hA : 65 ≤ c.val.toNat := (of_decide_eq_true hupper).1
    right; omega
  · have ha : 97 ≤ c.val.toNat := of_decide_eq_true (Bool.and_eq_true_iff.mp hlower).1
    right; omega
  · decide

theorem letter_not_sign {c : Char} (h : isLetter c) : isSign c = false := by
  by_contra hs
  simp only [isSign, Bool.not_eq_false, Bool.or_eq_true, decide_eq_true_eq] at hs
  rcases hs with rfl | rfl <;> revert h <;> decide

/-! ## Numbers -/

theorem digit_stop {rest : List Char} (h : Stops rest) : ∀ c ∈ rest.head?, c.isDigit = false := by
  intro c hc
  have := (h.head c hc).1
  by_contra hd
  rw [digit_isWordChar (by simpa using hd)] at this
  cases this

theorem fraction_of_stops {rest : List Char} (h : Stops rest) : fraction rest = ([], rest) := by
  unfold fraction
  split
  · rename_i d r
    have hd : d.isDigit = false := h.point _ rfl
    simp [hd]
  · rfl

theorem number_whole (c : Char) {ds rest : List Char} (hds : ∀ d ∈ ds, d.isDigit)
    (h : Stops rest) : number c (ds ++ rest) = ⟨.integer, c :: ds, c :: ds, rest⟩ := by
  obtain ⟨ht, hd⟩ := span_append hds (digit_stop h)
  simp [number, ht, hd, fraction_of_stops h]

theorem number_fractional (c : Char) {ds places rest : List Char} (hds : ∀ d ∈ ds, d.isDigit)
    (hp : places ≠ []) (hps : ∀ d ∈ places, d.isDigit) (h : Stops rest) :
    number c (ds ++ '.' :: places ++ rest) =
      ⟨.decimal, c :: ds ++ '.' :: places, c :: ds ++ '.' :: places, rest⟩ := by
  obtain ⟨p, ps, rfl⟩ := List.exists_cons_of_ne_nil hp
  obtain ⟨hp, hps⟩ := List.forall_mem_cons.mp hps
  obtain ⟨ht, hd⟩ := span_append (r := '.' :: p :: ps ++ rest) hds (by simp)
  obtain ⟨ht', hd'⟩ := span_append hps (digit_stop h)
  simp only [List.cons_append] at ht hd
  simp [number, ht, hd, fraction, hp, ht', hd']

/-- A number begins with a digit, or with a sign before one, and goes on with digits. -/
theorem whole_cons {raw : List Char} (h : IsWhole raw) :
    ∃ c cs, raw = c :: cs ∧ isBlank c = false ∧ (∀ d ∈ cs, d.isDigit) ∧
      ∀ rest, (c.isDigit || (isSign c && beginsDigit (cs ++ rest))) = true := by
  obtain ⟨sign, digits, rfl, hs, hne, hds⟩ := h
  obtain ⟨d, ds, rfl⟩ := List.exists_cons_of_ne_nil hne
  obtain ⟨hd, hds'⟩ := List.forall_mem_cons.mp hds
  rcases hs with rfl | rfl | rfl
  · exact ⟨d, ds, rfl, digit_not_blank hd, hds', by simp [hd]⟩
  · exact ⟨'+', d :: ds, rfl, by decide, hds, by simp [isSign, beginsDigit, hd]⟩
  · exact ⟨'-', d :: ds, rfl, by decide, hds, by simp [isSign, beginsDigit, hd]⟩

theorem isLexeme_whole {raw rest : List Char} (h : IsWhole raw) (hr : Stops rest) :
    IsLexeme false .integer raw raw rest := by
  obtain ⟨c, cs, rfl, hb, hcs, hbegin⟩ := whole_cons h
  refine ⟨c, cs, rfl, hb, ?_⟩
  simp [lexeme, hbegin, number_whole c hcs hr]

theorem isLexeme_fractional {raw rest : List Char} (h : IsFractional raw) (hr : Stops rest) :
    IsLexeme false .decimal raw raw rest := by
  obtain ⟨whole, places, rfl, hw, hp, hps⟩ := h
  obtain ⟨c, cs, rfl, hb, hcs, hbegin⟩ := whole_cons hw
  refine ⟨c, cs ++ '.' :: places, rfl, hb, ?_⟩
  have hbegin' := hbegin ('.' :: places ++ rest)
  rw [← List.append_assoc] at hbegin'
  have := number_fractional c hcs hp hps hr
  simp only [lexeme, Bool.not_false, Bool.and_true, hbegin', if_true, this]

/-! ## Names and reserved words -/

theorem isLexeme_word (f : Bool) {c : Char} {cs rest : List Char} (hc : isLetter c)
    (hcs : ∀ d ∈ cs, isWordChar d) (hr : Stops rest) :
    IsLexeme f (wordKind (c :: cs)) (c :: cs) (c :: cs) rest := by
  refine ⟨c, cs, rfl, letter_not_blank hc, ?_⟩
  have hq : c ≠ '"' := by rintro rfl; revert hc; decide
  have hq' : c ≠ '\'' := by rintro rfl; revert hc; decide
  obtain ⟨ht, hd⟩ := span_append hcs fun d hd => (hr.head d hd).1
  simp [lexeme, letter_not_digit hc, letter_not_sign hc, hq, hq', hc, word, ht, hd]

theorem isLexeme_identifier (f : Bool) {s : String} {rest : List Char} (h : IsIdentifier s)
    (hr : Stops rest) : IsLexeme f .identifier s.toList s.toList rest := by
  obtain ⟨⟨c, cs, hs, hc, hcs⟩, hk⟩ := h
  have hw := isLexeme_word f hc hcs hr
  rw [← hs] at hw
  simpa [wordKind, Keyword.ofSpelling?_eq_none_iff.mpr hk] using hw

theorem isLexeme_keyword (f : Bool) (word : Keyword) {rest : List Char} (hr : Stops rest) :
    IsLexeme f (.keyword word) word.spelling.toList word.spelling.toList rest := by
  have hs : ∃ c cs, word.spelling.toList = c :: cs ∧ isLetter c ∧ ∀ d ∈ cs, isWordChar d := by
    cases word <;> exact ⟨_, _, rfl, by decide, List.all_eq_true.mp (by decide)⟩
  obtain ⟨c, cs, hs, hc, hcs⟩ := hs
  have hw := isLexeme_word f hc hcs hr
  rw [← hs] at hw
  simpa [wordKind, Keyword.ofSpelling?_eq_some_iff.mpr rfl] using hw

/-! ## Quoted literals -/

/-- A character is written as itself, if it is neither the quote nor a line end nor a backslash, or
as a backslash and a letter that stands for it. -/
theorem escapeChar_cases {q : Char} (hq : Text.resolve? q = some q) (c : Char) :
    (Text.escapeChar q c = [c] ∧ c ≠ '\n' ∧ c ≠ '\r' ∧ c ≠ '\\' ∧ c ≠ q) ∨
      ∃ e, Text.escapeChar q c = ['\\', e] ∧ Text.resolve? e = some c := by
  unfold Text.escapeChar
  split_ifs with h₁ h₂ h₃ h₄ h₅ h₆
  · exact .inr ⟨'n', rfl, by rw [h₁]; rfl⟩
  · exact .inr ⟨'r', rfl, by rw [h₂]; rfl⟩
  · exact .inr ⟨'t', rfl, by rw [h₃]; rfl⟩
  · exact .inr ⟨'b', rfl, by rw [h₄]; rfl⟩
  · exact .inr ⟨'\\', rfl, by rw [h₅]; rfl⟩
  · exact .inr ⟨q, rfl, by rw [h₆, hq]⟩
  · exact .inl ⟨rfl, h₁, h₂, h₅, h₆⟩

theorem stringTail_plain {c : Char} (h₁ : c ≠ '\n') (h₂ : c ≠ '\r') (h₃ : c ≠ '\\') (h₄ : c ≠ '"')
    {n : Nat} {cs value raw rest : List Char} (h : stringTail (n + 1) cs = .ok (value, raw, rest)) :
    stringTail n (c :: cs) = .ok (c :: value, c :: raw, rest) := by
  unfold stringTail
  split <;> simp_all

theorem stringTail_escaped {c e : Char} (he : Text.resolve? e = some c)
    {n : Nat} {cs value raw rest : List Char} (h : stringTail (n + 2) cs = .ok (value, raw, rest)) :
    stringTail n ('\\' :: e :: cs) = .ok (c :: value, '\\' :: e :: raw, rest) := by
  simp only [stringTail, he, h]
  rfl

theorem stringTail_escape (v rest : List Char) (n : Nat) :
    stringTail n (Text.escape '"' v ++ '"' :: rest) =
      .ok (v, Text.escape '"' v ++ ['"'], rest) := by
  induction v generalizing n with
  | nil => rfl
  | cons c v ih =>
    rcases escapeChar_cases (q := '"') rfl c with ⟨hc, h₁, h₂, h₃, h₄⟩ | ⟨e, hc, he⟩
    · simpa [hc] using stringTail_plain h₁ h₂ h₃ h₄ (ih (n + 1))
    · simpa [hc] using stringTail_escaped he (ih (n + 2))

theorem isLexeme_string (f : Bool) (v rest : List Char) :
    IsLexeme f .string v ('"' :: Text.escape '"' v ++ ['"']) rest := by
  refine ⟨'"', Text.escape '"' v ++ ['"'], rfl, by decide, ?_⟩
  simp only [lexeme, List.append_assoc, List.cons_append, List.nil_append, stringTail_escape]
  rfl

theorem isLexeme_character (f : Bool) (c : Char) (rest : List Char) :
    IsLexeme f .character [c] ('\'' :: Text.escape '\'' [c] ++ ['\'']) rest := by
  refine ⟨'\'', Text.escape '\'' [c] ++ ['\''], rfl, by decide, ?_⟩
  have hlex : ∀ cs, lexeme f '\'' cs = characterTail cs := fun cs => rfl
  rw [hlex]
  rcases escapeChar_cases (q := '\'') rfl c with ⟨hc, h₁, h₂, h₃, h₄⟩ | ⟨e, hc, he⟩
  · simp only [Text.escape_cons, Text.escape_nil, hc, List.cons_append, List.nil_append]
    unfold characterTail
    split
    · simp_all
    · simp_all
    · simp_all
    · rename_i heq
      obtain ⟨rfl, rfl⟩ := List.cons.inj heq
      simp [h₁, h₂, h₄, closeCharacter]
  · simp [hc, characterTail, he, closeCharacter]

/-! ## Operators -/

/-- A character that begins neither a blank nor any other kind of lexeme than an operator, signs of
numbers apart. -/
def isMark (c : Char) : Bool :=
  !isBlank c && !c.isDigit && !isLetter c && c != '"' && c != '\''

theorem lexeme_mark (f : Bool) {c : Char} {cs : List Char} (hc : isMark c)
    (hs : isSign c = false ∨ beginsDigit cs = false) : lexeme f c cs = .ok (operator c cs) := by
  simp only [isMark, Bool.and_eq_true, Bool.not_eq_true', bne_iff_ne, ne_eq] at hc
  obtain ⟨⟨⟨⟨-, hd⟩, hl⟩, hq⟩, hq'⟩ := hc
  rcases hs with hs | hs <;> simp [lexeme, hd, hl, hq, hq', hs]

theorem mark_not_blank {c : Char} (hc : isMark c) : isBlank c = false := by
  simp only [isMark, Bool.and_eq_true, Bool.not_eq_true'] at hc
  exact hc.1.1.1.1

theorem isLexeme_mark (f : Bool) {c : Char} {rest : List Char} (hc : isMark c)
    (hs : isSign c = false ∨ beginsDigit rest = false) (hr : rest.head? ≠ some '=') :
    IsLexeme f .operator [c] [c] rest := by
  refine ⟨c, [], rfl, mark_not_blank hc, ?_⟩
  rw [List.nil_append, lexeme_mark f hc hs]
  cases rest with
  | nil => rfl
  | cons d rest =>
    have hd : d ≠ '=' := by simpa using hr
    simp [operator, isPair, hd]

theorem isLexeme_pair (f : Bool) {c : Char} {rest : List Char} (hc : isMark c)
    (hp : isPair c '=') : IsLexeme f .operator [c, '='] [c, '='] rest := by
  refine ⟨c, ['='], rfl, mark_not_blank hc, ?_⟩
  rw [lexeme_mark f hc (.inr rfl)]
  simp [operator, hp]

end Token

end BlockScript
