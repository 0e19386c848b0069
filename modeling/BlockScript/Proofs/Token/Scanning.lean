import BlockScript.Proofs.Token.Spelling

/-!
# Scanning

What the lexer does to a text, without a bound on the number of steps: a text is empty, or begins
with a blank, or begins with a lexeme, and each lexeme is a word of the language.
-/

namespace BlockScript.Token

/-- The tokens of the text `cs`, which stands at the place `p` and the index `i`. -/
inductive Scans : Position → Nat → (afterOperand : Bool) → List Char → List Token → Prop
  | done (p : Position) (i : Nat) (f : Bool) : Scans p i f [] [endAt p i]
  | blank {p : Position} {i : Nat} {f : Bool} {c : Char} {cs : List Char} {ts : List Token}
      (hc : isBlank c) (h : Scans (p.step c) (i + 1) f cs ts) : Scans p i f (c :: cs) ts
  | word {p : Position} {i : Nat} {f : Bool} {c : Char} {cs : List Char} {l : Lexeme}
      {ts : List Token} (hc : isBlank c = false) (hl : lexeme f c cs = .ok l)
      (h : Scans (p.advance l.raw) (i + l.raw.length)
        (endsOperand l.kind (String.ofList l.value)) l.rest ts) :
      Scans p i f (c :: cs) (⟨l.kind, String.ofList l.value, String.ofList l.raw, p, i⟩ :: ts)

/-- What a token says agrees with its kind. -/
def Lexical (t : Token) : Prop :=
  match t.kind with
  | .identifier => IsIdentifier t.value
  | .integer => IsWhole t.value.toList ∧ t.raw = t.value
  | .decimal => IsFractional t.value.toList ∧ t.raw = t.value
  | .character => ∃ c, t.value.toList = [c]
  | .keyword word => t.value = word.spelling
  | .operator => ∀ c ∈ t.value.toList.head?, isLetter c = false
  | .string | .endOfInput => True

/-! ## Lexemes tile the text -/

theorem fraction_append (cs : List Char) : (fraction cs).1 ++ (fraction cs).2 = cs := by
  unfold fraction
  split
  · split <;> simp
  · rfl

theorem number_append (c : Char) (cs : List Char) :
    (number c cs).raw ++ (number c cs).rest = c :: cs := by
  simp [number, List.append_assoc, fraction_append]

theorem stringTail_append {n : Nat} {cs value raw rest : List Char}
    (h : stringTail n cs = .ok (value, raw, rest)) : raw ++ rest = cs := by
  fun_induction stringTail n cs generalizing value raw rest with
  | case1 => cases h
  | case2 => cases h; rfl
  | case3 => cases h
  | case4 => cases h
  | case5 n e cs c he ih =>
    cases hs : stringTail (n + 2) cs with
    | error => rw [hs] at h; cases h
    | ok r => rw [hs] at h; cases h; simp [ih hs]
  | case6 => cases h
  | case7 n c cs _ _ _ _ ih =>
    cases hs : stringTail (n + 1) cs with
    | error => rw [hs] at h; cases h
    | ok r => rw [hs] at h; cases h; simp [ih hs]

theorem closeCharacter_append {c : Char} {raw cs : List Char} {l : Lexeme}
    (h : closeCharacter c raw cs = .ok l) :
    l.raw ++ l.rest = '\'' :: raw ++ cs ∧ l.raw ≠ [] ∧ l.kind = .character ∧ l.value = [c] := by
  unfold closeCharacter at h
  split at h
  · cases h
    simp
  · cases h

theorem characterTail_append {cs : List Char} {l : Lexeme} (h : characterTail cs = .ok l) :
    l.raw ++ l.rest = '\'' :: cs ∧ l.raw ≠ [] ∧ l.kind = .character ∧ ∃ c, l.value = [c] := by
  unfold characterTail at h
  split at h
  · cases h
  · cases h
  · split at h
    · cases h
    · obtain ⟨h₁, h₂, h₃, h₄⟩ := closeCharacter_append h
      exact ⟨h₁, h₂, h₃, _, h₄⟩
  · split_ifs at h
    obtain ⟨h₁, h₂, h₃, h₄⟩ := closeCharacter_append h
    exact ⟨h₁, h₂, h₃, _, h₄⟩

theorem operator_append (c : Char) (cs : List Char) :
    (operator c cs).raw ++ (operator c cs).rest = c :: cs ∧ (operator c cs).raw ≠ [] ∧
      (operator c cs).kind = .operator ∧ (operator c cs).value.head? = some c := by
  unfold operator
  split
  · split <;> simp
  · simp

theorem lexeme_append {f : Bool} {c : Char} {cs : List Char} {l : Lexeme}
    (h : lexeme f c cs = .ok l) : l.raw ++ l.rest = c :: cs ∧ l.raw ≠ [] := by
  unfold lexeme at h
  split_ifs at h with h₁ h₂ h₃ h₄
  · cases h
    exact ⟨number_append c cs, by simp [number]⟩
  · subst h₂
    cases hs : stringTail 1 cs with
    | error => rw [hs] at h; cases h
    | ok r => rw [hs] at h; cases h; simp [stringTail_append hs]
  · subst h₃
    exact ⟨(characterTail_append h).1, (characterTail_append h).2.1⟩
  · cases h
    simp [word]
  · cases h
    exact ⟨(operator_append c cs).1, (operator_append c cs).2.1⟩

/-! ## Lexemes are words of the language -/

theorem takeWhile_all (p : Char → Bool) (cs : List Char) : ∀ c ∈ cs.takeWhile p, p c :=
  List.all_eq_true.mp List.all_takeWhile

theorem isWhole_cons {c : Char} {cs : List Char} (h : c.isDigit || (isSign c && beginsDigit cs)) :
    IsWhole (c :: cs.takeWhile Char.isDigit) := by
  by_cases hc : c.isDigit
  · exact ⟨[], c :: cs.takeWhile Char.isDigit, rfl, .inl rfl, by simp,
      List.forall_mem_cons.mpr ⟨hc, takeWhile_all _ _⟩⟩
  · simp only [hc, Bool.false_or, Bool.and_eq_true] at h
    obtain ⟨hs, hb⟩ := h
    have hsign : c = '+' ∨ c = '-' := by simpa [isSign] using hs
    refine ⟨[c], cs.takeWhile Char.isDigit, rfl, ?_, ?_, takeWhile_all _ _⟩
    · rcases hsign with rfl | rfl <;> simp
    · cases cs with
      | nil => cases hb
      | cons d ds =>
        have hd : d.isDigit := hb
        simp [hd]

theorem fraction_places {cs : List Char} (h : (fraction cs).1 ≠ []) :
    ∃ places, (fraction cs).1 = '.' :: places ∧ places ≠ [] ∧ ∀ d ∈ places, d.isDigit := by
  unfold fraction at h ⊢
  split
  · rename_i d r
    by_cases hd : d.isDigit
    · exact ⟨d :: r.takeWhile Char.isDigit, by simp [hd], by simp,
        List.forall_mem_cons.mpr ⟨hd, takeWhile_all _ _⟩⟩
    · simp [hd] at h
  · simp at h

theorem number_lexical {c : Char} {cs : List Char} (p : Position) (i : Nat)
    (h : c.isDigit || (isSign c && beginsDigit cs)) :
    Lexical ⟨(number c cs).kind, String.ofList (number c cs).value,
      String.ofList (number c cs).raw, p, i⟩ := by
  have hw := isWhole_cons h
  by_cases hf : (fraction (cs.dropWhile Char.isDigit)).1 = []
  · simp [number, Lexical, hf, hw]
  · obtain ⟨places, hp, hne, hps⟩ := fraction_places hf
    simp only [number, hp, List.isEmpty_cons, Lexical, Bool.false_eq_true, if_false]
    exact ⟨⟨_, places, by simp, hw, hne, hps⟩, trivial⟩

theorem word_lexical {c : Char} (cs : List Char) (p : Position) (i : Nat) (h : isLetter c) :
    Lexical ⟨(word c cs).kind, String.ofList (word c cs).value,
      String.ofList (word c cs).raw, p, i⟩ := by
  simp only [word, wordKind]
  cases hk : Keyword.ofSpelling? (String.ofList (c :: cs.takeWhile isWordChar)) with
  | some word => exact (Keyword.ofSpelling?_eq_some_iff.mp hk).symm
  | none =>
    exact ⟨⟨c, cs.takeWhile isWordChar, by simp, h, takeWhile_all _ _⟩,
      Keyword.ofSpelling?_eq_none_iff.mp hk⟩

theorem lexeme_lexical {f : Bool} {c : Char} {cs : List Char} {l : Lexeme}
    (h : lexeme f c cs = .ok l) (p : Position) (i : Nat) :
    Lexical ⟨l.kind, String.ofList l.value, String.ofList l.raw, p, i⟩ := by
  unfold lexeme at h
  split_ifs at h with h₁ h₂ h₃ h₄
  · cases h
    apply number_lexical
    cases hd : c.isDigit <;> simp_all
  · cases hs : stringTail 1 cs with
    | error => rw [hs] at h; cases h
    | ok r => rw [hs] at h; cases h; trivial
  · obtain ⟨-, -, hk, d, hd⟩ := characterTail_append h
    simp only [Lexical, hk]
    exact ⟨d, by simp [hd]⟩
  · cases h
    exact word_lexical cs p i h₄
  · cases h
    obtain ⟨-, -, hk, hv⟩ := operator_append c cs
    simpa [Lexical, hk, hv] using h₄

theorem lexeme_kind {f : Bool} {c : Char} {cs : List Char} {l : Lexeme}
    (h : lexeme f c cs = .ok l) : l.kind ≠ .endOfInput := by
  unfold lexeme at h
  split_ifs at h
  · cases h
    simp only [number]
    split <;> simp
  · cases hs : stringTail 1 cs with
    | error => rw [hs] at h; cases h
    | ok r => rw [hs] at h; cases h; simp
  · simp [(characterTail_append h).2.2.1]
  · cases h
    simp only [word, wordKind]
    split <;> simp
  · cases h
    simp [(operator_append c cs).2.2.1]

/-! ## The bound on the number of steps is never used up -/

theorem lexeme_rest_length {f : Bool} {c : Char} {cs : List Char} {l : Lexeme}
    (h : lexeme f c cs = .ok l) : l.rest.length ≤ cs.length := by
  obtain ⟨happend, hne⟩ := lexeme_append h
  have hlength := congrArg List.length happend
  have hpos := List.length_pos_iff.mpr hne
  simp only [List.length_append, List.length_cons] at hlength
  omega

theorem scans_of_scan {fuel : Nat} {p : Position} {i : Nat} {f : Bool} {cs : List Char}
    {ts : List Token} (hfuel : cs.length ≤ fuel) (h : scan fuel p i f cs = .ok ts) :
    Scans p i f cs ts := by
  induction fuel generalizing p i f cs ts with
  | zero =>
    obtain rfl := List.length_eq_zero_iff.mp (Nat.le_zero.mp hfuel)
    cases h
    exact .done p i f
  | succ fuel ih =>
    cases cs with
    | nil => cases h; exact .done p i f
    | cons c cs =>
      have hlen : cs.length ≤ fuel := Nat.le_of_succ_le_succ hfuel
      unfold scan at h
      split_ifs at h with hb
      · exact .blank hb (ih hlen h)
      · cases hl : lexeme f c cs with
        | error flaw => rw [hl] at h; cases h
        | ok l =>
          rw [hl] at h
          have hrest := Nat.le_trans (lexeme_rest_length hl) hlen
          cases hs : scan fuel (p.advance l.raw) (i + l.raw.length)
              (endsOperand l.kind (String.ofList l.value)) l.rest with
          | error d => simp only [hs] at h; cases h
          | ok us =>
            simp only [hs] at h
            cases h
            exact .word (by simpa using hb) hl (ih hrest hs)

theorem scan_of_scans {fuel : Nat} {p : Position} {i : Nat} {f : Bool} {cs : List Char}
    {ts : List Token} (hfuel : cs.length ≤ fuel) (h : Scans p i f cs ts) :
    scan fuel p i f cs = .ok ts := by
  induction h generalizing fuel with
  | done => simp [scan]
  | blank hc _ ih =>
    obtain ⟨fuel, rfl⟩ := Nat.exists_eq_add_of_lt hfuel
    simpa [scan, hc] using ih (by omega)
  | word hc hl _ ih =>
    have hrest := lexeme_rest_length hl
    obtain ⟨fuel, rfl⟩ := Nat.exists_eq_add_of_lt hfuel
    rw [Nat.add_succ, scan, if_neg (by simp [hc])]
    simp only [hl, ih (Nat.le_trans hrest (Nat.le_add_right _ fuel))]
    rfl

theorem tokenize_eq_ok_iff {source : String} {ts : List Token} :
    tokenize source = .ok ts ↔ Scans .start 0 false source.toList ts :=
  ⟨scans_of_scan (Nat.le_refl _), scan_of_scans (Nat.le_refl _)⟩

theorem Scans.lexical {p : Position} {i : Nat} {f : Bool} {cs : List Char} {ts : List Token}
    (h : Scans p i f cs ts) : ∀ t ∈ ts, t.Lexical := by
  induction h with
  | done => simp [endAt, Lexical]
  | blank _ _ ih => exact ih
  | word _ hl _ ih => exact List.forall_mem_cons.mpr ⟨lexeme_lexical hl _ _, ih⟩

/-- The end of the input is the last token, and no other. -/
theorem Scans.exists_end {p : Position} {i : Nat} {f : Bool} {cs : List Char} {ts : List Token}
    (h : Scans p i f cs ts) : ∃ us eof, ts = us ++ [eof] ∧ eof.kind = .endOfInput ∧
      ∀ t ∈ us, t.kind ≠ .endOfInput := by
  induction h with
  | done p i => exact ⟨[], _, rfl, rfl, by simp⟩
  | blank _ _ ih => exact ih
  | word _ hl _ ih =>
    obtain ⟨us, eof, rfl, heof, hus⟩ := ih
    exact ⟨_ :: us, eof, rfl, heof, List.forall_mem_cons.mpr ⟨lexeme_kind hl, hus⟩⟩

end BlockScript.Token
