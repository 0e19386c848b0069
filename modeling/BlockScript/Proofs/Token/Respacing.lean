import BlockScript.Proofs.Token.Splitting

/-!
# Respacing

What a token reads as hangs on its own characters and on the token before it, never on how much
space stands around it: the raw texts of a tokenized source, with blanks of any kind put between
them, are read as the same tokens.
-/

namespace BlockScript.Lexis

open scoped Computability

variable {previous last : Option Face} {cs raw rest rest' v : List Char} {t : Face}
  {ts : List Face} {ws : List (List Char)}

/-! ## No lexeme reaches over a blank -/

instance : DecidablePred IsBlank := fun c => inferInstanceAs (Decidable (c ∈ _))

/-- Behind its first character no word of the language has a blank. -/
def Blankless (L : Language Char) : Prop := ∀ w ∈ L, ∀ c ∈ w.tail, ¬ IsBlank c

theorem not_isBlank_of_isDigit {c : Char} (h : IsDigit c) : ¬ IsBlank c := by
  rw [isBlank_iff, Token.digit_not_blank (isDigit_iff.mp h)]
  exact Bool.false_ne_true

theorem not_isBlank_of_isLetter {c : Char} (h : IsLetter c) : ¬ IsBlank c := by
  rw [isBlank_iff, Token.letter_not_blank (isLetter_iff.mp h)]
  exact Bool.false_ne_true

theorem not_isBlank_of_mem_whole (h : raw ∈ whole) : ∀ c ∈ raw, ¬ IsBlank c := by
  obtain ⟨sign, ds, rfl, hsign, -, hds⟩ := mem_whole.mp h
  intro c hc
  rcases List.mem_append.mp hc with hc | hc
  · rcases hsign with rfl | rfl | rfl
    · cases hc
    · obtain rfl := List.mem_singleton.mp hc
      decide
    · obtain rfl := List.mem_singleton.mp hc
      decide
  · exact not_isBlank_of_isDigit (hds c hc)

theorem not_isBlank_of_mem_fraction (h : raw ∈ fraction) : ∀ c ∈ raw, ¬ IsBlank c := by
  obtain ⟨places, rfl, -, hplaces⟩ := mem_fraction.mp h
  rw [List.forall_mem_cons]
  exact ⟨by decide, fun c hc => not_isBlank_of_isDigit (hplaces c hc)⟩

theorem blankless_number : Blankless number := by
  intro w hw c hc
  rcases mem_number.mp hw with hwhole | hfractional
  · exact not_isBlank_of_mem_whole hwhole c (List.mem_of_mem_tail hc)
  · obtain ⟨a, ha, b, hb, rfl⟩ := Language.mem_mul.mp hfractional
    rcases List.mem_append.mp (List.mem_of_mem_tail hc) with hc | hc
    · exact not_isBlank_of_mem_whole ha c hc
    · exact not_isBlank_of_mem_fraction hb c hc

theorem blankless_word : Blankless word := by
  intro w hw c hc
  obtain ⟨d, ds, rfl, -, hds⟩ := mem_word.mp hw
  rcases hds c hc with hletter | hdigit | rfl
  · exact not_isBlank_of_isLetter hletter
  · exact not_isBlank_of_isDigit hdigit
  · decide

theorem blankless_operator : Blankless operator := by
  intro w hw c hc
  rcases mem_operator.mp hw with ⟨d, -, rfl⟩ | ⟨d, rfl⟩
  · obtain rfl := List.mem_singleton.mp hc
    decide
  · cases hc

/-- The text is over, or a blank comes next. -/
def Parted (cs : List Char) : Prop := ∀ c ∈ cs.head?, IsBlank c

/-- A longest word stays the longest when it is parted from what follows. -/
theorem Longest.parted {L : Language Char} (hL : Blankless L) (h : Longest L cs raw rest)
    (hne : raw ≠ []) (hparted : Parted rest') : Longest L (raw ++ rest') raw rest' := by
  refine ⟨rfl, h.mem, ?_⟩
  intro raw' behind hsplit hraw'
  by_contra hlt
  rw [not_le] at hlt
  -- a longer word would reach over the blank behind `raw`
  obtain ⟨more, rfl⟩ : raw <+: raw' :=
    List.prefix_of_prefix_length_le (List.prefix_append raw rest')
      (hsplit ▸ List.prefix_append raw' behind) hlt.le
  rw [List.append_assoc] at hsplit
  obtain rfl := List.append_cancel_left hsplit
  cases more with
  | nil => simp at hlt
  | cons c more =>
    refine hL _ hraw' c ?_ (hparted c (by simp))
    rw [List.tail_append_of_ne_nil hne]
    exact List.mem_append_right _ (List.mem_cons_self ..)

/-! ## One lexeme -/

/-- In front of a number stands a sign, or none, and then a digit. -/
theorem number_begins (h : raw ∈ number) : ∃ sign d ds, raw = sign ++ d :: ds ∧
    (sign = [] ∨ ∃ c ∈ ['+', '-'], sign = [c]) ∧ IsDigit d := by
  obtain ⟨w, more, rfl, hw⟩ : ∃ w more, raw = w ++ more ∧ w ∈ whole := by
    rcases mem_number.mp h with hwhole | hfractional
    · exact ⟨raw, [], (List.append_nil raw).symm, hwhole⟩
    · obtain ⟨w, hw, more, -, rfl⟩ := Language.mem_mul.mp hfractional
      exact ⟨w, more, rfl, hw⟩
  obtain ⟨sign, ds, rfl, hsign, hne, hds⟩ := mem_whole.mp hw
  obtain ⟨d, ds, rfl⟩ := List.exists_cons_of_ne_nil hne
  refine ⟨sign, d, ds ++ more, by simp, ?_, hds d (List.mem_cons_self ..)⟩
  rcases hsign with rfl | rfl | rfl
  · exact .inl rfl
  · exact .inr ⟨'+', by simp, rfl⟩
  · exact .inr ⟨'-', by simp, rfl⟩

/-- Whether a number begins shows in its own characters. -/
theorem BeginsNumber.parted (hraw : raw ∈ number) (h : BeginsNumber previous (raw ++ rest)) :
    BeginsNumber previous (raw ++ rest') := by
  obtain ⟨sign, d, ds, rfl, rfl | ⟨c, hc, rfl⟩, hd⟩ := number_begins hraw
  · exact .inl ⟨d, ds ++ rest', rfl, hd⟩
  · rcases h with ⟨e, r, heq, he⟩ | ⟨e, f, r, heq, -, -, hprevious⟩
    · obtain ⟨rfl, -⟩ := List.cons.inj heq
      exact .inl ⟨c, d :: ds ++ rest', rfl, he⟩
    · exact .inr ⟨c, d, ds ++ rest', rfl, hc, hd, hprevious⟩

theorem ne_nil_of_mem_number (h : raw ∈ number) : raw ≠ [] := by
  obtain ⟨sign, d, ds, rfl, -⟩ := number_begins h
  exact List.append_ne_nil_of_right_ne_nil sign (List.cons_ne_nil d ds)

/-- A sign that is an operator stays one before a blank. -/
theorem not_beginsNumber_of_operator {c : Char} (hraw : c :: cs ∈ operator)
    (h : ¬ BeginsNumber previous (c :: cs ++ rest)) (hparted : Parted rest') :
    ¬ BeginsNumber previous (c :: cs ++ rest') := by
  rintro (⟨d, r, heq, hd⟩ | ⟨d, e, r, heq, hd, he, -⟩)
  · obtain ⟨rfl, -⟩ := List.cons.inj heq
    exact h (.inl ⟨c, cs ++ rest, rfl, hd⟩)
  · obtain ⟨rfl, htail⟩ := List.cons.inj heq
    rcases mem_operator.mp hraw with ⟨b, hb, hpair⟩ | ⟨b, hsingle⟩
    · obtain ⟨rfl, rfl⟩ := List.cons.inj hpair
      revert hb hd
      simp only [List.mem_cons, List.not_mem_nil, or_false]
      rintro (rfl | rfl) hb <;> revert hb <;> decide
    · obtain ⟨-, rfl⟩ := List.cons.inj hsingle
      obtain rfl : rest' = e :: r := htail
      exact not_isBlank_of_isDigit he (hparted e rfl)

/-- A token is read again from its own characters, whatever blanks follow it. -/
theorem Begins.parted (h : Begins previous cs t rest) (hparted : Parted rest') :
    Begins previous (t.raw ++ rest') t rest' := by
  cases h with
  | integer hbegins hlongest hraw =>
    obtain rfl := hlongest.split
    have hne := ne_nil_of_mem_number hlongest.mem
    exact .integer (hbegins.parted hlongest.mem) (hlongest.parted blankless_number hne hparted) hraw
  | decimal hbegins hlongest hraw =>
    obtain rfl := hlongest.split
    have hne := ne_nil_of_mem_number hlongest.mem
    exact .decimal (hbegins.parted hlongest.mem) (hlongest.parted blankless_number hne hparted) hraw
  | keyword w hc hlongest hraw =>
    obtain ⟨c, ds, rfl, -⟩ := mem_word.mp hlongest.mem
    obtain ⟨rfl, -⟩ := List.cons.inj hlongest.split
    exact .keyword w hc (hlongest.parted blankless_word (List.cons_ne_nil c ds) hparted) hraw
  | identifier hc hlongest hraw =>
    obtain ⟨c, ds, rfl, -⟩ := mem_word.mp hlongest.mem
    obtain ⟨rfl, -⟩ := List.cons.inj hlongest.split
    exact .identifier hc (hlongest.parted blankless_word (List.cons_ne_nil c ds) hparted) hraw
  | string hstring => exact .string hstring
  | character hcharacter => exact .character hcharacter
  | @operator c cs raw rest hnumber hletter hquote hblank hlongest =>
    obtain ⟨d, ds, rfl⟩ : ∃ d ds, raw = d :: ds := by
      rcases mem_operator.mp hlongest.mem with ⟨d, -, rfl⟩ | ⟨d, rfl⟩
      · exact ⟨d, ['='], rfl⟩
      · exact ⟨d, [], rfl⟩
    obtain ⟨rfl, rfl⟩ := List.cons.inj hlongest.split
    refine .operator ?_ hletter hquote hblank
      (hlongest.parted blankless_operator (List.cons_ne_nil d ds) hparted)
    exact not_beginsNumber_of_operator hlongest.mem hnumber hparted

/-! ## The tokens of a text -/

theorem Reads.blanks (hv : ∀ c ∈ v, IsBlank c) (h : Reads previous cs ts last rest) :
    Reads previous (v ++ cs) ts last rest := by
  induction v with
  | nil => exact h
  | cons c v ih =>
    rw [List.forall_mem_cons] at hv
    exact .blank hv.1 (ih hv.2)

/-- The characters of the tokens, each with a text behind it. -/
def spaced (ts : List Face) (ws : List (List Char)) : List Char :=
  (List.zipWith (fun t v => t.raw ++ v) ts ws).flatten

/-- Tokens are read again from their own characters, with blanks between them. -/
theorem Reads.spaced (h : Reads previous cs ts last rest) (hlength : ws.length = ts.length)
    (hblank : ∀ v ∈ ws, ∀ c ∈ v, IsBlank c) (hne : ∀ v ∈ ws.dropLast, v ≠ []) :
    Reads previous (spaced ts ws) ts last [] := by
  induction h generalizing ws with
  | done previous cs => exact .done previous []
  | blank hc h ih => exact ih hlength hblank hne
  | @token previous last cs after rest t ts ht h ih =>
    cases ws with
    | nil => cases hlength
    | cons v ws =>
      obtain ⟨hv, hws⟩ := List.forall_mem_cons.mp hblank
      have hparted : Parted (v ++ Lexis.spaced ts ws) := by
        cases v with
        | cons c v =>
          rintro d ⟨⟩
          exact hv c (List.mem_cons_self ..)
        | nil =>
          -- only the last blank may be missing, and then the text is over
          cases ws with
          | nil => simp [Parted, Lexis.spaced]
          | cons w ws => exact absurd rfl (hne [] (by simp))
      have hne' : ∀ w ∈ ws.dropLast, w ≠ [] := by
        intro w hw
        cases ws with
        | nil => cases hw
        | cons u ws => exact hne w (List.mem_cons_of_mem v hw)
      have hreads := (ih (Nat.succ.inj hlength) hws hne').blanks hv
      have htext : Lexis.spaced (t :: ts) (v :: ws) = t.raw ++ (v ++ Lexis.spaced ts ws) := by
        simp [Lexis.spaced]
      rw [htext]
      exact .token (ht.parted hparted) hreads

end BlockScript.Lexis

namespace BlockScript.Token

open Lexis (IsBlank)

/-- The raw texts of the tokens with `w` in front and a text of `ws` behind each of them. -/
def respace (w : String) (ts : List Token) (ws : List String) : String :=
  w ++ String.join (List.zipWith (fun t v => t.raw ++ v) ts ws)

theorem toList_respace (w : String) (ts : List Token) (ws : List String) :
    (respace w ts ws).toList =
      w.toList ++ Lexis.spaced (ts.map Token.face) (ws.map String.toList) := by
  have hzip : (List.zipWith (fun t v => t.raw ++ v) ts ws).map String.toList =
      List.zipWith (fun t v => t.raw ++ v) (ts.map Token.face) (ws.map String.toList) := by
    simp [List.map_zipWith, List.zipWith_map, Token.face]
  rw [respace, String.toList_append, String.toList_join, Lexis.spaced, ← hzip, List.flatMap_def]

/-- The raw texts of a tokenized source, with blanks put around them and at least one between any
two, are read as the same tokens. -/
theorem tokenize_respace {source w : String} {ts : List Token} {eof : Token} {ws : List String}
    (h : tokenize source = .ok (ts ++ [eof])) (hlength : ws.length = ts.length)
    (hblank : ∀ v ∈ w :: ws, ∀ c ∈ v.toList, IsBlank c) (hne : ∀ v ∈ ws.dropLast, v ≠ "") :
    ∃ ts', tokenize (respace w ts ws) = .ok ts' ∧
      ts'.map Token.face = (ts ++ [eof]).map Token.face := by
  rw [List.forall_mem_cons] at hblank
  obtain ⟨faces, last, hreads, hfaces⟩ :=
    Lexis.reads_of_scans (tokenize_eq_ok_iff.mp h) Lexis.flag_none
  have hts : ts.map Token.face = faces := by
    rw [List.map_append, List.map_singleton] at hfaces
    exact (List.append_inj' hfaces rfl).1
  have hspaced : Lexis.Reads none (respace w ts ws).toList faces last [] := by
    rw [toList_respace, hts]
    refine (hreads.spaced ?_ ?_ ?_).blanks hblank.1
    · rw [List.length_map, hlength, ← hts, List.length_map]
    · simpa using hblank.2
    · simpa [← List.map_dropLast] using hne
  obtain ⟨ts', hscans, hfaces'⟩ := Lexis.scans_of_reads hspaced rfl Lexis.flag_none .start 0
  exact ⟨ts', tokenize_eq_ok_iff.mpr hscans, hfaces'.trans hfaces.symm⟩

theorem tokenize_respace_signs : ∃ ts eof ts', tokenize "-2-x-1+ +3==\"a b\"" = .ok (ts ++ [eof]) ∧
    ts.map Token.raw = ["-2", "-", "x-1", "+", "+3", "==", "\"a b\""] ∧
    tokenize "\n-2 -\t\rx-1\x08+  +3 ==\n\"a b\"" = .ok ts' ∧
    ts'.map Token.face = (ts ++ [eof]).map Token.face := by
  have htokens : tokenize "-2-x-1+ +3==\"a b\"" = .ok
      ([⟨.integer, "-2", "-2", ⟨1, 1⟩, 0⟩, ⟨.operator, "-", "-", ⟨1, 3⟩, 2⟩,
        ⟨.identifier, "x-1", "x-1", ⟨1, 4⟩, 3⟩, ⟨.operator, "+", "+", ⟨1, 7⟩, 6⟩,
        ⟨.integer, "+3", "+3", ⟨1, 9⟩, 8⟩, ⟨.operator, "==", "==", ⟨1, 11⟩, 10⟩,
        ⟨.string, "a b", "\"a b\"", ⟨1, 13⟩, 12⟩] ++ [.endAt ⟨1, 18⟩ 17]) := rfl
  let ws := [" ", "\t\r", "\x08", "  ", " ", "\n", ""]
  have hblank : ∀ v ∈ "\n" :: ws, ∀ c ∈ v.toList, IsBlank c := by simp [ws, IsBlank]
  have hne : ∀ v ∈ ws.dropLast, v ≠ "" := by decide
  obtain ⟨ts', hts', hfaces⟩ := tokenize_respace htokens rfl hblank hne
  exact ⟨_, _, ts', htokens, rfl, hts', hfaces⟩

end BlockScript.Token
