import BlockScript.Proofs.Token.Lexis
import BlockScript.Proofs.Token.Scanning

/-!
# The lexer reads the longest lexemes

A text is tokenized just if it splits into blanks and lexemes as the lexical grammar says, and its
tokens are those lexemes. It is rejected just if a quote somewhere begins no literal.
-/

namespace BlockScript.Lexis

open Token

variable {c : Char} {cs raw rest value body : List Char}

/-! ## Characters -/

theorem isDigit_iff : IsDigit c ↔ c.isDigit = true := by
  simp only [IsDigit, Char.isDigit, Bool.and_eq_true, decide_eq_true_eq]
  rfl

theorem isLetter_iff : IsLetter c ↔ isLetter c = true := by
  have hupper : c.isUpper = true ↔ 'A' ≤ c ∧ c ≤ 'Z' := decide_eq_true_iff
  have hlower : c.isLower = true ↔ 'a' ≤ c ∧ c ≤ 'z' :=
    Bool.and_eq_true_iff.trans (and_congr decide_eq_true_iff decide_eq_true_iff)
  have hletter : isLetter c = (c.isUpper || c.isLower || decide (c = '_')) := rfl
  rw [IsLetter, hletter, Bool.or_eq_true, Bool.or_eq_true, hupper, hlower, decide_eq_true_iff,
    or_assoc]

theorem isWordChar_iff : IsLetter c ∨ IsDigit c ∨ c = '-' ↔ isWordChar c = true := by
  simp only [isLetter_iff, isDigit_iff, isWordChar, Bool.or_eq_true, decide_eq_true_eq, or_assoc]

theorem isBlank_iff : IsBlank c ↔ isBlank c = true := by
  simp only [IsBlank, isBlank, Bool.or_eq_true, decide_eq_true_eq, List.mem_cons, List.not_mem_nil,
    or_false, or_assoc]
  rfl

theorem isSign_iff : c ∈ ['+', '-'] ↔ isSign c = true := by
  simp [isSign]

theorem mem_escapes_iff {e : Char} : (e, c) ∈ escapes ↔ Text.resolve? e = some c := by
  simp only [escapes, List.mem_cons, Prod.mk.injEq, List.not_mem_nil, or_false]
  constructor
  · intro h
    rcases h with ⟨rfl, rfl⟩ | ⟨rfl, rfl⟩ | ⟨rfl, rfl⟩ | ⟨rfl, rfl⟩ | ⟨rfl, rfl⟩ | ⟨rfl, rfl⟩ |
      ⟨rfl, rfl⟩ <;> rfl
  · intro h
    unfold Text.resolve? at h
    split at h <;> simp_all [Text.backspace, eq_comm]

/-! ## Numbers -/

theorem mem_whole_iff : raw ∈ whole ↔ IsWhole raw := by
  simp only [mem_whole, isDigit_iff]
  rfl

theorem mem_fractional_iff : raw ∈ whole * fraction ↔ IsFractional raw := by
  rw [Language.mem_mul]
  simp only [mem_fraction, mem_whole_iff, isDigit_iff]
  constructor
  · rintro ⟨w, hw, _, ⟨places, rfl, hplaces⟩, rfl⟩
    exact ⟨w, places, rfl, hw, hplaces⟩
  · rintro ⟨w, places, rfl, hw, hplaces⟩
    exact ⟨w, hw, _, ⟨places, rfl, hplaces⟩, rfl⟩

/-- Text of one kind in front is part of what is taken of that kind. -/
theorem length_le_takeWhile {p : Char → Bool} {ds : List Char} (hds : ∀ d ∈ ds, p d)
    (rest : List Char) : ds.length ≤ ((ds ++ rest).takeWhile p).length := by
  rw [List.takeWhile_append_of_pos hds, List.length_append]
  exact Nat.le_add_right _ _

theorem length_whole_le {raw' rest' : List Char} (hsplit : raw' ++ rest' = c :: cs)
    (hraw : IsWhole raw') : raw'.length ≤ (Token.number c cs).raw.length := by
  obtain ⟨d, ds, rfl, -, hds, -⟩ := whole_cons hraw
  rw [List.cons_append] at hsplit
  obtain ⟨rfl, rfl⟩ := List.cons.inj hsplit
  have hle := length_le_takeWhile hds rest'
  simp only [Token.number, List.length_cons, List.length_append]
  omega

theorem length_fractional_le {raw' rest' : List Char} (hsplit : raw' ++ rest' = c :: cs)
    (hraw : IsFractional raw') : raw'.length ≤ (Token.number c cs).raw.length := by
  obtain ⟨_, places, rfl, hw, hne, hplaces⟩ := hraw
  obtain ⟨d, ds, rfl, -, hds, -⟩ := whole_cons hw
  obtain ⟨p, ps, rfl⟩ := List.exists_cons_of_ne_nil hne
  rw [List.forall_mem_cons] at hplaces
  simp only [List.append_assoc, List.cons_append] at hsplit
  obtain ⟨rfl, rfl⟩ := List.cons.inj hsplit
  have hpoint : ∀ c ∈ ('.' :: p :: (ps ++ rest')).head?, c.isDigit = false := by
    simp
  obtain ⟨htake, hdrop⟩ := span_append hds hpoint
  have hle := length_le_takeWhile hplaces.2 rest'
  simp only [Token.number, htake, hdrop, Token.fraction, hplaces.1, if_true, List.length_append,
    List.length_cons]
  omega

theorem number_kind (h : c.isDigit || (isSign c && beginsDigit cs)) :
    ((Token.number c cs).kind = .integer ∧ (Token.number c cs).raw ∈ whole) ∨
      ((Token.number c cs).kind = .decimal ∧ (Token.number c cs).raw ∈ whole * fraction) := by
  have hlexical := number_lexical .start 0 h
  rw [mem_whole_iff, mem_fractional_iff]
  by_cases hpart : (Token.fraction (cs.dropWhile Char.isDigit)).1 = []
  · left
    simpa [Lexical, Token.number, hpart] using hlexical
  · right
    simpa [Lexical, Token.number, hpart] using hlexical

theorem longest_number (h : c.isDigit || (isSign c && beginsDigit cs)) :
    Longest number (c :: cs) (Token.number c cs).raw (Token.number c cs).rest := by
  refine ⟨number_append c cs, ?_, ?_⟩
  · rw [mem_number]
    exact (number_kind h).imp And.right And.right
  · intro raw' rest' hsplit hraw
    rcases mem_number.mp hraw with hwhole | hfractional
    · exact length_whole_le hsplit (mem_whole_iff.mp hwhole)
    · exact length_fractional_le hsplit (mem_fractional_iff.mp hfractional)

/-- A number has a fraction, or it has none. -/
theorem not_whole_and_fractional (h : raw ∈ whole) : raw ∉ whole * fraction := by
  intro h'
  obtain ⟨d, ds, rfl, -, hds, -⟩ := whole_cons (mem_whole_iff.mp h)
  obtain ⟨w, places, hraw, hw, -, -⟩ := mem_fractional_iff.mp h'
  obtain ⟨e, es, rfl, -, -, -⟩ := whole_cons hw
  obtain ⟨-, rfl⟩ := List.cons.inj hraw
  have hpoint : '.' ∈ es ++ '.' :: places := by simp
  exact absurd (hds '.' hpoint) (by decide)

/-! ## Words and operators -/

theorem longest_word (hc : isLetter c) :
    Longest word (c :: cs) (Token.word c cs).raw (Token.word c cs).rest := by
  refine ⟨by simp [Token.word], ?_, ?_⟩
  · refine mem_word.mpr ⟨c, cs.takeWhile isWordChar, rfl, isLetter_iff.mpr hc, ?_⟩
    intro d hd
    exact isWordChar_iff.mpr (takeWhile_all _ _ d hd)
  · intro raw' rest' hsplit hraw
    obtain ⟨d, ds, rfl, -, hds⟩ := mem_word.mp hraw
    obtain ⟨rfl, rfl⟩ := List.cons.inj hsplit
    have hle := length_le_takeWhile (fun d hd => isWordChar_iff.mp (hds d hd)) rest'
    simpa [Token.word] using hle

theorem isPair_iff {d : Char} : isPair c d = true ↔ c ∈ ['<', '>', '=', '!'] ∧ d = '=' := by
  simp only [isPair, Bool.and_eq_true, Bool.or_eq_true, decide_eq_true_eq, List.mem_cons,
    List.not_mem_nil, or_false, or_assoc]
  exact and_comm

theorem longest_operator (c : Char) (cs : List Char) :
    Longest operator (c :: cs) (Token.operator c cs).raw (Token.operator c cs).rest := by
  refine ⟨(operator_append c cs).1, ?_, ?_⟩
  · rw [mem_operator]
    unfold Token.operator
    split
    · split
      · rename_i hpair
        obtain ⟨hc, rfl⟩ := isPair_iff.mp hpair
        exact .inl ⟨c, hc, rfl⟩
      · exact .inr ⟨c, rfl⟩
    · exact .inr ⟨c, rfl⟩
  · intro raw' rest' hsplit hraw
    rcases mem_operator.mp hraw with ⟨d, hd, rfl⟩ | ⟨d, rfl⟩
    · obtain ⟨rfl, rfl⟩ := List.cons.inj hsplit
      have hpair : isPair d '=' = true := isPair_iff.mpr ⟨hd, rfl⟩
      simp [Token.operator, hpair]
    · exact List.length_pos_iff.mpr (operator_append c cs).2.1

theorem operator_eq (c : Char) (cs : List Char) :
    Token.operator c cs = ⟨.operator, (Token.operator c cs).raw, (Token.operator c cs).raw,
      (Token.operator c cs).rest⟩ := by
  unfold Token.operator
  split
  · split <;> rfl
  · rfl

/-! ## Literals -/

/-- No literal goes over the end of a line. -/
theorem Denotes.newline_notMem {quote : Char} (h : Denotes quote body value) : '\n' ∉ body := by
  induction h with
  | nil => exact List.not_mem_nil
  | plain hc _ ih =>
    simp only [List.mem_cons, not_or] at hc ⊢
    exact ⟨Ne.symm hc.2.2.1, ih⟩
  | @escaped e c _ _ he _ ih =>
    simp only [List.mem_cons, not_or]
    refine ⟨by decide, ?_, ih⟩
    rintro rfl
    revert he
    simp [escapes]

theorem stringTail_of_denotes (h : Denotes '"' body value) (n : Nat) (rest : List Char) :
    stringTail n (body ++ '"' :: rest) = .ok (value, body ++ ['"'], rest) := by
  induction h generalizing n with
  | nil => rfl
  | plain hc _ ih =>
    simp only [List.mem_cons, List.not_mem_nil, or_false, not_or] at hc
    obtain ⟨hquote, hslash, hlf, hcr⟩ := hc
    exact stringTail_plain hlf hcr hslash hquote (ih (n + 1))
  | escaped he _ ih => exact stringTail_escaped (mem_escapes_iff.mp he) (ih (n + 2))

theorem denotes_of_stringTail {n : Nat} (h : stringTail n cs = .ok (value, raw, rest)) :
    ∃ body, raw = body ++ ['"'] ∧ Denotes '"' body value := by
  fun_induction stringTail n cs generalizing value raw rest with
  | case1 => cases h
  | case2 =>
    cases h
    exact ⟨[], rfl, .nil⟩
  | case3 => cases h
  | case4 => cases h
  | case5 n e cs c he ih =>
    cases hs : stringTail (n + 2) cs with
    | error flaw =>
      rw [hs] at h
      cases h
    | ok r =>
      rw [hs] at h
      cases h
      obtain ⟨body, hbody, hdenotes⟩ := ih hs
      exact ⟨'\\' :: e :: body, by simp [hbody], .escaped (mem_escapes_iff.mpr he) hdenotes⟩
  | case6 => cases h
  | case7 n c cs hquote hlone hslash hline ih =>
    cases hs : stringTail (n + 1) cs with
    | error flaw =>
      rw [hs] at h
      cases h
    | ok r =>
      rw [hs] at h
      cases h
      obtain ⟨body, hbody, hdenotes⟩ := ih hs
      refine ⟨c :: body, by simp [hbody], .plain ?_ hdenotes⟩
      have hslash' : c ≠ '\\' := by
        intro hc
        cases cs with
        | nil => exact hlone hc rfl
        | cons e cs => exact hslash e cs hc rfl
      simp only [Bool.or_eq_true, decide_eq_true_eq, not_or] at hline
      simp only [List.mem_cons, List.not_mem_nil, or_false, not_or]
      exact ⟨hquote, hslash', hline.1, hline.2⟩

theorem characterTail_of_denotes (h : Denotes '\'' body value) (hlength : value.length = 1)
    (rest : List Char) :
    characterTail (body ++ '\'' :: rest) =
      .ok ⟨.character, value, '\'' :: body ++ ['\''], rest⟩ := by
  cases h with
  | nil => cases hlength
  | @plain c body value hc h =>
    obtain rfl : value = [] := List.length_eq_zero_iff.mp (Nat.succ.inj hlength)
    cases h
    simp only [List.mem_cons, List.not_mem_nil, or_false, not_or] at hc
    obtain ⟨hquote, hslash, hlf, hcr⟩ := hc
    rw [List.cons_append, List.nil_append]
    unfold characterTail
    split
    · simp_all
    · simp_all
    · simp_all
    · rename_i heq
      obtain ⟨rfl, rfl⟩ := List.cons.inj heq
      simp [hlf, hcr, hquote, closeCharacter]
  | @escaped e c body value he h =>
    obtain rfl : value = [] := List.length_eq_zero_iff.mp (Nat.succ.inj hlength)
    cases h
    simp [characterTail, mem_escapes_iff.mp he, closeCharacter]

theorem denotes_of_closeCharacter {l : Lexeme} {raw : List Char}
    (h : closeCharacter c raw cs = .ok l) (hraw : Denotes '\'' raw [c]) :
    l.kind = .character ∧ IsCharacter l.raw l.value := by
  unfold closeCharacter at h
  split at h
  · cases h
    exact ⟨rfl, raw, rfl, hraw, rfl⟩
  · cases h

theorem isCharacter_of_characterTail {l : Lexeme} (h : characterTail cs = .ok l) :
    l.kind = .character ∧ IsCharacter l.raw l.value := by
  unfold characterTail at h
  split at h
  · cases h
  · cases h
  · split at h
    · cases h
    · rename_i c he
      exact denotes_of_closeCharacter h (.escaped (mem_escapes_iff.mpr he) .nil)
  · rename_i c cs hlone hslash
    split_ifs at h with hline hquote
    refine denotes_of_closeCharacter h (.plain ?_ .nil)
    have hslash' : c ≠ '\\' := by
      intro hc
      cases cs with
      | nil => exact hlone hc rfl
      | cons e cs => exact hslash e cs hc rfl
    simp only [Bool.or_eq_true, decide_eq_true_eq, not_or] at hline
    simp only [List.mem_cons, List.not_mem_nil, or_false, not_or]
    exact ⟨hquote, hslash', hline.1, hline.2⟩

/-! ## Lexemes -/

theorem endsOperand_iff (t : Face) :
    t.EndsOperand ↔ endsOperand t.kind (String.ofList t.value) = true := by
  have hclose : String.ofList t.value = ")" ↔ t.value = [')'] := by
    rw [← String.toList_inj, String.toList_ofList]
    rfl
  unfold Face.EndsOperand endsOperand
  split <;> simp_all

theorem lexeme_quote (f : Bool) (cs : List Char) : lexeme f '"' cs =
    (stringTail 1 cs).bind fun r => .ok ⟨.string, r.1, '"' :: r.2.1, r.2.2⟩ := rfl

theorem lexeme_apostrophe (f : Bool) (cs : List Char) : lexeme f '\'' cs = characterTail cs := rfl

theorem lexeme_letter (f : Bool) (cs : List Char) (hc : isLetter c) :
    lexeme f c cs = .ok (Token.word c cs) := by
  have hquote : c ≠ '"' := by rintro rfl; revert hc; decide
  have hquote' : c ≠ '\'' := by rintro rfl; revert hc; decide
  simp [lexeme, letter_not_digit hc, letter_not_sign hc, hquote, hquote', hc]

theorem wordKind_of_keyword {w : Keyword} (h : raw = w.spelling.toList) :
    wordKind raw = .keyword w := by
  have hword : Keyword.ofSpelling? (String.ofList raw) = some w := by
    rw [Keyword.ofSpelling?_eq_some_iff, h, String.ofList_toList]
  rw [wordKind, hword]

theorem wordKind_of_identifier (h : ∀ w : Keyword, raw ≠ w.spelling.toList) :
    wordKind raw = .identifier := by
  have hword : Keyword.ofSpelling? (String.ofList raw) = none := by
    rw [Keyword.ofSpelling?_eq_none_iff]
    intro w hspelling
    exact h w (by rw [hspelling, String.toList_ofList])
  rw [wordKind, hword]

/-- A word is read as such after any token. -/
theorem lexeme_of_word (f : Bool) (hc : IsLetter c) (hlongest : Longest word (c :: cs) raw rest) :
    isBlank c = false ∧ lexeme f c cs = .ok ⟨wordKind raw, raw, raw, rest⟩ := by
  have hletter := isLetter_iff.mp hc
  obtain ⟨rfl, rfl⟩ := hlongest.unique (longest_word hletter)
  exact ⟨letter_not_blank hletter, lexeme_letter f cs hletter⟩

theorem number_front {f : Bool} (h : (c.isDigit || (isSign c && beginsDigit cs && !f)) = true) :
    (c.isDigit || (isSign c && beginsDigit cs)) = true := by
  simp only [Bool.or_eq_true, Bool.and_eq_true] at h ⊢
  exact h.imp_right And.left

theorem number_not_blank (h : (c.isDigit || (isSign c && beginsDigit cs)) = true) :
    isBlank c = false := by
  simp only [Bool.or_eq_true, Bool.and_eq_true] at h
  rcases h with hd | ⟨hs, -⟩
  · exact digit_not_blank hd
  · simp only [isSign, Bool.or_eq_true, decide_eq_true_eq] at hs
    rcases hs with rfl | rfl <;> rfl

/-- Only a quote can begin no lexeme. -/
theorem malformed_of_lexeme {f : Bool} {flaw : Flaw} (h : lexeme f c cs = .error flaw) :
    Malformed (c :: cs) := by
  unfold lexeme at h
  split_ifs at h with hnumber hquote hquote' hletter
  · subst hquote
    refine .inl ⟨rfl, ?_⟩
    rintro _ rest value hsplit ⟨body, rfl, hdenotes⟩
    rw [List.cons_append, List.cons_append, List.append_assoc] at hsplit
    obtain ⟨-, rfl⟩ := List.cons.inj hsplit
    have hok := stringTail_of_denotes hdenotes 1 rest
    simp only [List.cons_append, List.nil_append, hok] at h
    cases h
  · subst hquote'
    refine .inr ⟨rfl, ?_⟩
    rintro _ rest value hsplit ⟨body, rfl, hdenotes, hlength⟩
    rw [List.cons_append, List.cons_append, List.append_assoc] at hsplit
    obtain ⟨-, rfl⟩ := List.cons.inj hsplit
    have hok := characterTail_of_denotes hdenotes hlength rest
    simp only [List.cons_append, List.nil_append, hok] at h
    cases h

theorem lexeme_of_malformed (f : Bool) (h : Malformed (c :: cs)) :
    ∃ flaw, lexeme f c cs = .error flaw := by
  rcases h with ⟨hhead, hnone⟩ | ⟨hhead, hnone⟩
  · obtain rfl := Option.some.inj hhead
    cases hs : stringTail 1 cs with
    | error flaw => exact ⟨flaw, by rw [lexeme_quote, hs]; rfl⟩
    | ok r =>
      obtain ⟨value, raw, rest⟩ := r
      obtain ⟨body, hbody, hdenotes⟩ := denotes_of_stringTail hs
      have happend := stringTail_append hs
      refine absurd ⟨body, rfl, hdenotes⟩ (hnone _ rest value ?_)
      rw [List.cons_append, ← hbody, List.cons_append, happend]
  · obtain rfl := Option.some.inj hhead
    cases hl : characterTail cs with
    | error flaw => exact ⟨flaw, hl⟩
    | ok l =>
      have hcharacter := (isCharacter_of_characterTail hl).2
      exact absurd hcharacter (hnone l.raw l.rest l.value (characterTail_append hl).1)

section

variable {previous : Option Face} {f : Bool} {t : Face} {l : Lexeme}
  (hf : f = true ↔ ∃ t ∈ previous, t.EndsOperand)
include hf

theorem beginsNumber_iff :
    BeginsNumber previous (c :: cs) ↔ (c.isDigit || (isSign c && beginsDigit cs && !f)) = true := by
  have hsign : (∀ t ∈ previous, ¬ t.EndsOperand) ↔ f = false := by
    rw [← Bool.not_eq_true, hf]
    simp
  simp only [BeginsNumber, hsign, isDigit_iff, isSign_iff, Bool.or_eq_true, Bool.and_eq_true,
    Bool.not_eq_true']
  constructor
  · rintro (⟨d, r, heq, hd⟩ | ⟨d, e, r, heq, hd, he, hf'⟩)
    · obtain ⟨rfl, -⟩ := List.cons.inj heq
      exact .inl hd
    · obtain ⟨rfl, rfl⟩ := List.cons.inj heq
      exact .inr ⟨⟨hd, he⟩, hf'⟩
  · rintro (hd | ⟨⟨hd, he⟩, hf'⟩)
    · exact .inl ⟨c, cs, rfl, hd⟩
    · cases cs with
      | nil => cases he
      | cons e r => exact .inr ⟨c, e, r, rfl, hd, he, hf'⟩

/-- A number is read as such where one may begin. -/
theorem lexeme_of_number {kind : Kind} (hbegins : BeginsNumber previous (c :: cs))
    (hlongest : Longest number (c :: cs) raw rest)
    (hkind : (kind = .integer ∧ raw ∈ whole) ∨ (kind = .decimal ∧ raw ∈ whole * fraction)) :
    isBlank c = false ∧ lexeme f c cs = .ok ⟨kind, raw, raw, rest⟩ := by
  have hnumber := (beginsNumber_iff hf).mp hbegins
  have hfront := number_front hnumber
  obtain ⟨rfl, rfl⟩ := hlongest.unique (longest_number hfront)
  have hsame : (Token.number c cs).kind = kind := by
    rcases hkind with ⟨rfl, hwhole⟩ | ⟨rfl, hfractional⟩
    · exact (number_kind hfront).elim And.left fun h =>
        absurd h.2 (not_whole_and_fractional hwhole)
    · exact (number_kind hfront).elim (fun h => absurd hfractional (not_whole_and_fractional h.2))
        And.left
  rw [lexeme, if_pos hnumber, ← hsame]
  exact ⟨number_not_blank hfront, rfl⟩

/-- What is read as a lexeme is one. -/
theorem begins_of_lexeme (hblank : isBlank c = false) (h : lexeme f c cs = .ok l) :
    Begins previous (c :: cs) ⟨l.kind, l.value, l.raw⟩ l.rest := by
  have happend := (lexeme_append h).1
  unfold lexeme at h
  split_ifs at h with hnumber hquote hquote' hletter
  · cases h
    have hbegins := (beginsNumber_iff hf).mpr hnumber
    have hfront := number_front hnumber
    have hlongest := longest_number hfront
    rcases number_kind hfront with ⟨hkind, hraw⟩ | ⟨hkind, hraw⟩
    · rw [hkind]
      exact .integer hbegins hlongest hraw
    · rw [hkind]
      exact .decimal hbegins hlongest hraw
  · cases hs : stringTail 1 cs with
    | error flaw =>
      rw [hs] at h
      cases h
    | ok r =>
      rw [hs] at h
      cases h
      obtain ⟨body, hbody, hdenotes⟩ := denotes_of_stringTail hs
      rw [← happend]
      exact .string ⟨body, by simp [hbody], hdenotes⟩
  · obtain ⟨hkind, hcharacter⟩ := isCharacter_of_characterTail h
    rw [← happend, hkind]
    exact .character hcharacter
  · cases h
    have hlongest : Longest word (c :: cs) (Token.word c cs).raw (Token.word c cs).rest :=
      longest_word hletter
    have hc := isLetter_iff.mpr hletter
    simp only [Token.word, wordKind] at hlongest ⊢
    cases hk : Keyword.ofSpelling? (String.ofList (c :: cs.takeWhile isWordChar)) with
    | some word =>
      have hspelling := Keyword.ofSpelling?_eq_some_iff.mp hk
      exact .keyword word hc hlongest (by rw [hspelling, String.toList_ofList])
    | none =>
      have hspelling := Keyword.ofSpelling?_eq_none_iff.mp hk
      refine .identifier hc hlongest fun word hword => hspelling word ?_
      rw [hword, String.ofList_toList]
  · cases h
    have hface := operator_eq c cs
    rw [congrArg Lexeme.kind hface, congrArg Lexeme.value hface]
    refine .operator ?_ ?_ ?_ ?_ (longest_operator c cs)
    · rwa [beginsNumber_iff hf]
    · rwa [isLetter_iff]
    · simp [hquote, hquote']
    · rw [isBlank_iff, hblank]
      exact Bool.false_ne_true

/-- A lexeme is read as such. -/
theorem lexeme_of_begins (h : Begins previous (c :: cs) t rest) :
    isBlank c = false ∧ lexeme f c cs = .ok ⟨t.kind, t.value, t.raw, rest⟩ := by
  generalize hcs : c :: cs = text at h
  cases h with
  | integer hbegins hlongest hraw =>
    subst hcs
    exact lexeme_of_number hf hbegins hlongest (.inl ⟨rfl, hraw⟩)
  | decimal hbegins hlongest hraw =>
    subst hcs
    exact lexeme_of_number hf hbegins hlongest (.inr ⟨rfl, hraw⟩)
  | keyword word hc hlongest hraw =>
    obtain ⟨rfl, rfl⟩ := List.cons.inj hcs
    rw [← wordKind_of_keyword hraw]
    exact lexeme_of_word f hc hlongest
  | identifier hc hlongest hraw =>
    obtain ⟨rfl, rfl⟩ := List.cons.inj hcs
    rw [← wordKind_of_identifier hraw]
    exact lexeme_of_word f hc hlongest
  | string hstring =>
    obtain ⟨body, rfl, hdenotes⟩ := hstring
    rw [List.cons_append, List.cons_append, List.append_assoc] at hcs
    obtain ⟨rfl, rfl⟩ := List.cons.inj hcs
    refine ⟨rfl, ?_⟩
    rw [List.singleton_append, lexeme_quote, stringTail_of_denotes hdenotes]
    rfl
  | character hcharacter =>
    obtain ⟨body, rfl, hdenotes, hlength⟩ := hcharacter
    rw [List.cons_append, List.cons_append, List.append_assoc] at hcs
    obtain ⟨rfl, rfl⟩ := List.cons.inj hcs
    refine ⟨rfl, ?_⟩
    rw [List.singleton_append, lexeme_apostrophe, characterTail_of_denotes hdenotes hlength]
  | operator hnumber hletter hquote hblank hlongest =>
    obtain ⟨rfl, rfl⟩ := List.cons.inj hcs
    rw [beginsNumber_iff hf] at hnumber
    rw [isLetter_iff] at hletter
    rw [isBlank_iff, Bool.not_eq_true] at hblank
    simp only [List.mem_cons, List.not_mem_nil, or_false, not_or] at hquote
    obtain ⟨rfl, rfl⟩ := hlongest.unique (longest_operator c cs)
    refine ⟨hblank, ?_⟩
    rw [lexeme, if_neg hnumber, if_neg hquote.1, if_neg hquote.2, if_neg hletter]
    exact congrArg Except.ok (operator_eq c cs)

end

end BlockScript.Lexis
