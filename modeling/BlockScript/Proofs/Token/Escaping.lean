import BlockScript.Proofs.Token.Munch

/-!
# Escaping and reading are inverse

A text that is escaped and set between quotes is read back as one token with that text as its value,
at any place and before any other text. A literal that the lexer accepts may be written again from
its value.
-/

namespace BlockScript

/-- On one line every character takes a column. -/
theorem Position.advance_of_notMem {cs : List Char} (h : '\n' ∉ cs) (p : Position) :
    p.advance cs = ⟨p.line, p.column + cs.length⟩ := by
  induction cs generalizing p with
  | nil => rfl
  | cons c cs ih =>
    rw [List.mem_cons, not_or] at h
    rw [advance_cons, ih h.2, step, if_neg (Ne.symm h.1), List.length_cons, Nat.add_assoc,
      Nat.add_comm 1]

namespace Lexis

variable {quote : Char} {body raw value value' : List Char}

theorem Denotes.append {body' : List Char} (h : Denotes quote body value)
    (h' : Denotes quote body' value') : Denotes quote (body ++ body') (value ++ value') := by
  induction h with
  | nil => exact h'
  | plain hc _ ih => exact .plain hc ih
  | escaped he _ ih => exact .escaped he ih

/-- A text between quotes denotes one value. -/
theorem Denotes.unique (h : Denotes quote body value) (h' : Denotes quote body value') :
    value = value' := by
  induction h generalizing value' with
  | nil =>
    cases h'
    rfl
  | plain hc _ ih =>
    cases h' with
    | plain _ h' => rw [ih h']
    | escaped => simp at hc
  | escaped he _ ih =>
    cases h' with
    | plain hc => simp at hc
    | escaped he' h' =>
      rw [mem_escapes_iff] at he he'
      rw [Option.some.inj (he.symm.trans he'), ih h']

/-- What the writer puts between quotes denotes what it was given. -/
theorem denotes_escape (hquote : Text.resolve? quote = some quote) (value : List Char) :
    Denotes quote (Text.escape quote value) value := by
  induction value with
  | nil => exact .nil
  | cons c value ih =>
    rw [Text.escape_cons, ← List.singleton_append]
    refine .append ?_ ih
    rcases Token.escapeChar_cases hquote c with ⟨hc, hlf, hcr, hslash, hne⟩ | ⟨e, hc, he⟩
    · rw [hc]
      exact .plain (by simp [hlf, hcr, hslash, hne]) .nil
    · rw [hc]
      exact .escaped (mem_escapes_iff.mpr he) .nil

theorem escape_injective (hquote : Text.resolve? quote = some quote) :
    Function.Injective (Text.escape quote) := by
  intro v w h
  have hv := denotes_escape hquote v
  rw [h] at hv
  exact hv.unique (denotes_escape hquote w)

/-- The words that are literals, each with the kind and the quote that go together. -/
inductive IsLiteral : (kind : Token.Kind) → (quote : Char) → (raw value : List Char) → Prop
  | string {raw value : List Char} (h : IsString raw value) : IsLiteral .string '"' raw value
  | character {raw value : List Char} (h : IsCharacter raw value) :
      IsLiteral .character '\'' raw value

variable {kind : Token.Kind}

theorem IsLiteral.newline_notMem (h : IsLiteral kind quote raw value) : '\n' ∉ raw := by
  obtain ⟨⟨body, rfl, hbody⟩⟩ | ⟨⟨body, rfl, hbody, -⟩⟩ := h
  all_goals simpa using hbody.newline_notMem

/-- A literal may be written again from its value. -/
theorem IsLiteral.escape (h : IsLiteral kind quote raw value) :
    IsLiteral kind quote (quote :: Text.escape quote value ++ [quote]) value := by
  cases h with
  | string => exact .string ⟨_, rfl, denotes_escape rfl value⟩
  | character h =>
    obtain ⟨_, _, _, hlength⟩ := h
    exact .character ⟨_, rfl, denotes_escape rfl value, hlength⟩

end Lexis

namespace Token

variable {kind : Kind} {quote : Char} {raw value : List Char}

/-- A literal is one lexeme whatever stands before and after it. -/
theorem isLexeme_of_isLiteral (h : Lexis.IsLiteral kind quote raw value) (f : Bool)
    (rest : List Char) : IsLexeme f kind value raw rest := by
  cases h with
  | string h =>
    obtain ⟨body, rfl, hbody⟩ := h
    refine ⟨'"', body ++ ['"'], rfl, rfl, ?_⟩
    rw [List.append_assoc, List.singleton_append, Lexis.lexeme_quote,
      Lexis.stringTail_of_denotes hbody]
    rfl
  | character h =>
    obtain ⟨body, rfl, hbody, hlength⟩ := h
    refine ⟨'\'', body ++ ['\''], rfl, rfl, ?_⟩
    rw [List.append_assoc, List.singleton_append, Lexis.lexeme_apostrophe,
      Lexis.characterTail_of_denotes hbody hlength]

/-- Only literals are read as strings and characters. -/
theorem isLiteral_of_lexeme {f : Bool} {c : Char} {cs : List Char} {l : Lexeme}
    (h : lexeme f c cs = .ok l) (hkind : (l.kind, quote) ∈ [(.string, '"'), (.character, '\'')]) :
    Lexis.IsLiteral l.kind quote l.raw l.value := by
  unfold lexeme at h
  split_ifs at h with hnumber hquote hapostrophe hletter
  · cases h
    simp only [number] at hkind
    split_ifs at hkind <;> simp at hkind
  · cases hs : stringTail 1 cs with
    | error flaw =>
      rw [hs] at h
      cases h
    | ok r =>
      rw [hs] at h
      cases h
      obtain rfl : quote = '"' := by simpa using hkind
      obtain ⟨body, hbody, hdenotes⟩ := Lexis.denotes_of_stringTail hs
      exact .string ⟨body, by rw [hbody]; rfl, hdenotes⟩
  · obtain ⟨hcharacter, hliteral⟩ := Lexis.isCharacter_of_characterTail h
    obtain rfl : quote = '\'' := by simpa [hcharacter] using hkind
    rw [hcharacter]
    exact .character hliteral
  · cases h
    simp only [word, wordKind] at hkind
    split at hkind <;> simp at hkind
  · cases h
    simp [(operator_append c cs).2.2.1] at hkind

/-- Wherever the loop stands at a token start, it reads `raw` as one token and goes on right behind
it. -/
def ReadsAs (kind : Kind) (value raw : String) : Prop :=
  ∀ (fuel : Nat) (p : Position) (i : Nat) (afterOperand : Bool) (rest : List Char),
    scan (fuel + 1) p i afterOperand (raw.toList ++ rest) =
      (scan fuel ⟨p.line, p.column + raw.length⟩ (i + raw.length) (endsOperand kind value) rest).map
        (⟨kind, value, raw, p, i⟩ :: ·)

theorem readsAs_of_isLiteral {value raw : String}
    (h : Lexis.IsLiteral kind quote raw.toList value.toList) : ReadsAs kind value raw := by
  intro fuel p i f rest
  obtain ⟨c, cs, hraw, hblank, hlexeme⟩ := isLexeme_of_isLiteral h f rest
  have hadvance := Position.advance_of_notMem h.newline_notMem p
  rw [hraw, List.cons_append, scan, if_neg (by simp [hblank])]
  simp only [hlexeme, hadvance, String.ofList_toList, String.length_toList]
  rfl

/-- Writing a literal and reading it are inverse. -/
structure EscapesInversely : Prop where
  string : ∀ v : String, ReadsAs .string v (Text.enclose '"' v)
  character : ∀ c : Char,
    ReadsAs .character (String.singleton c) (Text.enclose '\'' (String.singleton c))
  /-- An accepted literal is read alike everywhere, and so is the one written from its value. -/
  literal : ∀ (f : Bool) (c : Char) (cs : List Char) (l : Lexeme) (quote : Char),
    lexeme f c cs = .ok l → (l.kind, quote) ∈ [(.string, '"'), (.character, '\'')] →
      ReadsAs l.kind (String.ofList l.value) (String.ofList l.raw) ∧
        ReadsAs l.kind (String.ofList l.value) (Text.enclose quote (String.ofList l.value))
  injective : ∀ quote ∈ ['"', '\''], Function.Injective (Text.escape quote)

theorem escape_reads_back : EscapesInversely where
  string v := by
    have hdenotes : Lexis.Denotes '"' (Text.escape '"' v.toList) v.toList :=
      Lexis.denotes_escape rfl v.toList
    exact readsAs_of_isLiteral (.string ⟨_, String.toList_ofList, hdenotes⟩)
  character c := by
    have hdenotes : Lexis.Denotes '\'' (Text.escape '\'' [c]) [c] := Lexis.denotes_escape rfl [c]
    rw [← String.toList_singleton] at hdenotes
    exact readsAs_of_isLiteral (.character ⟨_, String.toList_ofList, hdenotes, by simp⟩)
  literal f c cs l quote hl hkind := by
    have hliteral := isLiteral_of_lexeme hl hkind
    rw [← String.toList_ofList (l := l.value)] at hliteral
    constructor
    · rw [← String.toList_ofList (l := l.raw)] at hliteral
      exact readsAs_of_isLiteral hliteral
    · have hwritten := hliteral.escape
      rw [← String.toList_ofList (l := _ :: _ ++ _)] at hwritten
      exact readsAs_of_isLiteral hwritten
  injective quote hquote := by
    refine Lexis.escape_injective ?_
    rcases List.mem_pair.mp hquote with rfl | rfl <;> rfl

/-- Quotes of the other kind and most controls stand for themselves; the last backslash does not
escape the closing quote. -/
example : Text.enclose '"' "\"'\x08\x0b\n\\" = "\"\\\"'\\b\x0b\\n\\\\\"" := by decide

end Token

end BlockScript
