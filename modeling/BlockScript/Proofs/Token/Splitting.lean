import BlockScript.Proofs.Token.Munch

/-!
# Texts as blanks and lexemes

The lexer accepts a text just if it splits into blanks and lexemes, each the longest that begins
where it does, and its tokens are those lexemes with the end of the input behind them. It rejects a
text just if a quote at some token start begins no literal.
-/

namespace BlockScript

open Lexis (Face Reads Splits Breaks Malformed)

/-- The token without its place. -/
def Token.face (t : Token) : Face := ⟨t.kind, t.value.toList, t.raw.toList⟩

namespace Lexis

open Token

variable {previous last : Option Face} {p : Position} {i : Nat} {f : Bool}
  {cs after rest : List Char} {t : Face} {ts : List Face}

/-- The flag of the lexer tells of the token read last whether an operand ends with it. -/
theorem flag_some (t : Face) :
    endsOperand t.kind (String.ofList t.value) = true ↔ ∃ u ∈ some t, u.EndsOperand := by
  rw [← endsOperand_iff]
  simp only [Option.mem_some_iff, exists_eq_left']

theorem flag_none : false = true ↔ ∃ t ∈ (none : Option Face), t.EndsOperand := by
  simp

theorem Begins.exists_cons (h : Begins previous cs t rest) : ∃ c cs', cs = c :: cs' := by
  cases h with
  | integer hbegins _ _ | decimal hbegins _ _ =>
    rcases hbegins with ⟨d, r, rfl, -⟩ | ⟨c, d, r, rfl, -⟩
    · exact ⟨d, r, rfl⟩
    · exact ⟨c, d :: r, rfl⟩
  | keyword word hc hlongest hraw => exact ⟨_, _, rfl⟩
  | identifier hc hlongest hraw => exact ⟨_, _, rfl⟩
  | string hstring =>
    obtain ⟨body, rfl, -⟩ := hstring
    exact ⟨_, _, rfl⟩
  | character hcharacter =>
    obtain ⟨body, rfl, -, -⟩ := hcharacter
    exact ⟨_, _, rfl⟩
  | operator hnumber hletter hquote hblank hlongest => exact ⟨_, _, rfl⟩

/-- A quote is no blank. -/
theorem Malformed.exists_cons (h : Malformed cs) : ∃ c cs', cs = c :: cs' ∧ isBlank c = false := by
  cases cs with
  | nil =>
    rcases h with ⟨hhead, -⟩ | ⟨hhead, -⟩
    · cases hhead
    · cases hhead
  | cons c cs =>
    refine ⟨c, cs, rfl, ?_⟩
    rcases h with ⟨hhead, -⟩ | ⟨hhead, -⟩
    · obtain rfl := Option.some.inj hhead
      rfl
    · obtain rfl := Option.some.inj hhead
      rfl

/-! ## Accepted texts -/

theorem reads_of_scans {tokens : List Token} (h : Scans p i f cs tokens)
    (hf : f = true ↔ ∃ t ∈ previous, t.EndsOperand) :
    ∃ ts last, Reads previous cs ts last [] ∧
      tokens.map Token.face = ts ++ [⟨.endOfInput, [], []⟩] := by
  induction h generalizing previous with
  | done p i f => exact ⟨[], previous, .done previous [], rfl⟩
  | blank hc h ih =>
    obtain ⟨ts, last, hreads, hfaces⟩ := ih hf
    exact ⟨ts, last, .blank (isBlank_iff.mpr hc) hreads, hfaces⟩
  | @word _ _ _ _ _ l _ hc hl h ih =>
    have ht := begins_of_lexeme hf hc hl
    obtain ⟨ts, last, hreads, hfaces⟩ := ih (flag_some ⟨l.kind, l.value, l.raw⟩)
    refine ⟨_, last, .token ht hreads, ?_⟩
    rw [List.map_cons, hfaces, List.cons_append]
    simp only [Token.face, String.toList_ofList]

theorem scans_of_reads (h : Reads previous cs ts last rest) (hrest : rest = [])
    (hf : f = true ↔ ∃ t ∈ previous, t.EndsOperand) (p : Position) (i : Nat) :
    ∃ tokens, Scans p i f cs tokens ∧ tokens.map Token.face = ts ++ [⟨.endOfInput, [], []⟩] := by
  induction h generalizing f p i with
  | done previous cs =>
    subst hrest
    exact ⟨_, .done p i f, rfl⟩
  | @blank _ _ c _ _ _ hc h ih =>
    obtain ⟨tokens, hscans, hfaces⟩ := ih hrest hf (p.step c) (i + 1)
    exact ⟨tokens, .blank (isBlank_iff.mp hc) hscans, hfaces⟩
  | @token _ _ _ _ _ t _ ht h ih =>
    obtain ⟨c, cs, rfl⟩ := ht.exists_cons
    obtain ⟨hblank, hlexeme⟩ := lexeme_of_begins hf ht
    obtain ⟨tokens, hscans, hfaces⟩ := ih hrest (flag_some t) (p.advance t.raw) (i + t.raw.length)
    refine ⟨_, .word hblank hlexeme hscans, ?_⟩
    rw [List.map_cons, hfaces, List.cons_append]
    simp only [Token.face, String.toList_ofList]

/-! ## Rejected texts -/

theorem breaks_of_scan {fuel : Nat} {d : Diagnostic} (h : scan fuel p i f cs = .error d)
    (hf : f = true ↔ ∃ t ∈ previous, t.EndsOperand) :
    ∃ ts last rest, Reads previous cs ts last rest ∧ Malformed rest := by
  induction fuel generalizing previous p i f cs d with
  | zero => cases cs <;> cases h
  | succ fuel ih =>
    cases cs with
    | nil => cases h
    | cons c cs =>
      rw [scan] at h
      split_ifs at h with hblank
      · obtain ⟨ts, last, rest, hreads, hrest⟩ := ih h hf
        exact ⟨ts, last, rest, .blank (isBlank_iff.mpr hblank) hreads, hrest⟩
      · rw [Bool.not_eq_true] at hblank
        cases hl : lexeme f c cs with
        | error flaw => exact ⟨[], previous, c :: cs, .done previous _, malformed_of_lexeme hl⟩
        | ok l =>
          rw [hl] at h
          cases hs : scan fuel (p.advance l.raw) (i + l.raw.length)
              (endsOperand l.kind (String.ofList l.value)) l.rest with
          | ok tokens =>
            simp only [hs] at h
            cases h
          | error d =>
            have ht := begins_of_lexeme hf hblank hl
            obtain ⟨ts, last, rest, hreads, hrest⟩ := ih hs (flag_some ⟨l.kind, l.value, l.raw⟩)
            exact ⟨_, last, rest, .token ht hreads, hrest⟩

theorem scan_of_breaks (h : Reads previous cs ts last rest) (hrest : Malformed rest)
    (hf : f = true ↔ ∃ t ∈ previous, t.EndsOperand) {fuel : Nat} (hfuel : cs.length ≤ fuel)
    (p : Position) (i : Nat) : ∃ d, scan fuel p i f cs = .error d := by
  induction h generalizing f fuel p i with
  | done previous cs =>
    obtain ⟨c, cs, rfl, hblank⟩ := hrest.exists_cons
    obtain ⟨flaw, hflaw⟩ := lexeme_of_malformed f hrest
    obtain ⟨fuel, rfl⟩ := Nat.exists_eq_add_of_lt hfuel
    refine ⟨flaw.diagnostic p i, ?_⟩
    rw [Nat.add_succ, scan, if_neg (by simp [hblank]), hflaw]
  | @blank _ _ c _ _ _ hc h ih =>
    obtain ⟨fuel, rfl⟩ := Nat.exists_eq_add_of_lt hfuel
    obtain ⟨d, hd⟩ := ih hrest hf (Nat.le_add_right _ fuel) (p.step c) (i + 1)
    refine ⟨d, ?_⟩
    rw [Nat.add_succ, scan, if_pos (isBlank_iff.mp hc), hd]
  | @token _ _ _ _ _ t _ ht h ih =>
    obtain ⟨c, cs, rfl⟩ := ht.exists_cons
    obtain ⟨hblank, hlexeme⟩ := lexeme_of_begins hf ht
    have hafter := lexeme_rest_length hlexeme
    obtain ⟨fuel, rfl⟩ := Nat.exists_eq_add_of_lt hfuel
    obtain ⟨d, hd⟩ := ih hrest (flag_some t) (Nat.le_trans hafter (Nat.le_add_right _ fuel))
      (p.advance t.raw) (i + t.raw.length)
    refine ⟨d, ?_⟩
    rw [Nat.add_succ, scan, if_neg (by simp [hblank])]
    simp only [hlexeme, hd]
    rfl

end Lexis

/-- A text is accepted just if it splits into blanks and lexemes, which are then its tokens, and
rejected just if a quote begins no literal. -/
theorem Token.tokenize_splits (source : String) :
    ((∃ tokens, tokenize source = .ok tokens) ↔ ∃ ts, Splits source.toList ts) ∧
      (∀ tokens ts, tokenize source = .ok tokens →
        (Splits source.toList ts ↔ tokens.map Token.face = ts ++ [⟨.endOfInput, [], []⟩])) ∧
      ((∃ d, tokenize source = .error d) ↔ Breaks source.toList) := by
  have hsplit : ∀ tokens, tokenize source = .ok tokens → ∃ ts, Splits source.toList ts ∧
      tokens.map Token.face = ts ++ [⟨.endOfInput, [], []⟩] := by
    intro tokens h
    obtain ⟨ts, last, hreads, hfaces⟩ :=
      Lexis.reads_of_scans (tokenize_eq_ok_iff.mp h) Lexis.flag_none
    exact ⟨ts, ⟨last, hreads⟩, hfaces⟩
  have hjoin : ∀ ts, Splits source.toList ts → ∃ tokens, tokenize source = .ok tokens ∧
      tokens.map Token.face = ts ++ [⟨.endOfInput, [], []⟩] := by
    rintro ts ⟨last, hreads⟩
    obtain ⟨tokens, hscans, hfaces⟩ := Lexis.scans_of_reads hreads rfl Lexis.flag_none .start 0
    exact ⟨tokens, tokenize_eq_ok_iff.mpr hscans, hfaces⟩
  refine ⟨⟨?_, ?_⟩, ?_, ⟨?_, ?_⟩⟩
  · rintro ⟨tokens, h⟩
    obtain ⟨ts, hts, -⟩ := hsplit tokens h
    exact ⟨ts, hts⟩
  · rintro ⟨ts, hts⟩
    obtain ⟨tokens, h, -⟩ := hjoin ts hts
    exact ⟨tokens, h⟩
  · intro tokens ts h
    constructor
    · intro hts
      obtain ⟨tokens', h', hfaces⟩ := hjoin ts hts
      obtain rfl := Except.ok.inj (h.symm.trans h')
      exact hfaces
    · intro hfaces
      obtain ⟨ts', hts', hfaces'⟩ := hsplit tokens h
      obtain rfl := List.append_cancel_right (hfaces.symm.trans hfaces')
      exact hts'
  · rintro ⟨d, h⟩
    exact Lexis.breaks_of_scan h Lexis.flag_none
  · rintro ⟨ts, last, rest, hreads, hrest⟩
    exact Lexis.scan_of_breaks hreads hrest Lexis.flag_none (Nat.le_refl _) .start 0

end BlockScript
