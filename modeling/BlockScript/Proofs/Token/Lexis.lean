import BlockScript.Token.Lexer
import Mathlib.Computability.Language

/-!
# The lexical grammar

Numbers, words and operators as languages over characters, quoted literals with the values that
they denote, and how a text splits into blanks and lexemes: at each token start stands the longest
word of the language that begins there.
-/

open scoped Computability

namespace BlockScript.Lexis

/-! ## Languages -/

/-- The texts of one character of a class. -/
def one (p : Char → Prop) : Language Char := {w | ∃ c, p c ∧ w = [c]}

def IsDigit (c : Char) : Prop := '0' ≤ c ∧ c ≤ '9'

def IsLetter (c : Char) : Prop := ('A' ≤ c ∧ c ≤ 'Z') ∨ ('a' ≤ c ∧ c ≤ 'z') ∨ c = '_'

def IsBlank (c : Char) : Prop := c ∈ [' ', '\t', '\r', '\n', '\x08']

/-- `[0-9]+` -/
def digits : Language Char := one IsDigit * (one IsDigit)∗

/-- `[+-]?[0-9]+` -/
def whole : Language Char := (1 + one (· ∈ ['+', '-'])) * digits

/-- `\.[0-9]+` -/
def fraction : Language Char := one (· = '.') * digits

/-- `[+-]?[0-9]+(\.[0-9]+)?` -/
def number : Language Char := whole * (1 + fraction)

/-- `[A-Za-z_][A-Za-z0-9_-]*` -/
def word : Language Char := one IsLetter * (one fun c => IsLetter c ∨ IsDigit c ∨ c = '-')∗

/-- `<=`, `>=`, `==`, `!=` and every single character. -/
def operator : Language Char :=
  one (· ∈ ['<', '>', '=', '!']) * one (· = '=') + one fun _ => True

/-- The longest word of `L` that `cs` begins with is `raw`, and `rest` follows it. -/
structure Longest (L : Language Char) (cs raw rest : List Char) : Prop where
  split : raw ++ rest = cs
  mem : raw ∈ L
  longest : ∀ raw' rest', raw' ++ rest' = cs → raw' ∈ L → raw'.length ≤ raw.length

/-! ## Literals -/

/-- The characters behind a backslash, each with the character that both stand for. -/
def escapes : List (Char × Char) :=
  [('b', '\x08'), ('n', '\n'), ('r', '\r'), ('t', '\t'), ('\\', '\\'), ('"', '"'), ('\'', '\'')]

/-- Between quotes the text `body` denotes `value`. -/
inductive Denotes (quote : Char) : (body value : List Char) → Prop
  | nil : Denotes quote [] []
  | plain {c : Char} {body value : List Char} (hc : c ∉ [quote, '\\', '\n', '\r'])
      (h : Denotes quote body value) : Denotes quote (c :: body) (c :: value)
  | escaped {e c : Char} {body value : List Char} (he : (e, c) ∈ escapes)
      (h : Denotes quote body value) : Denotes quote ('\\' :: e :: body) (c :: value)

def IsString (raw value : List Char) : Prop :=
  ∃ body, raw = '"' :: body ++ ['"'] ∧ Denotes '"' body value

/-- A character literal holds one character. -/
def IsCharacter (raw value : List Char) : Prop :=
  ∃ body, raw = '\'' :: body ++ ['\''] ∧ Denotes '\'' body value ∧ value.length = 1

/-- The text begins with a quote, but with no literal. -/
def Malformed (cs : List Char) : Prop :=
  (cs.head? = some '"' ∧ ∀ raw rest value, raw ++ rest = cs → ¬ IsString raw value) ∨
    (cs.head? = some '\'' ∧ ∀ raw rest value, raw ++ rest = cs → ¬ IsCharacter raw value)

/-! ## Reading -/

/-- A token without its place. -/
structure Face where
  kind : Token.Kind
  value : List Char
  raw : List Char

/-- A sign that follows such a token is an operator. -/
def Face.EndsOperand (t : Face) : Prop :=
  t.kind ∈ [.integer, .decimal, .character, .string, .identifier, .keyword .NIL, .keyword .TRUE,
    .keyword .FALSE] ∨ t.kind = .operator ∧ t.value = [')']

/-- A number begins with a digit, or with a sign directly before a digit where no operand ends. -/
def BeginsNumber (previous : Option Face) (cs : List Char) : Prop :=
  (∃ d r, cs = d :: r ∧ IsDigit d) ∨
    ∃ c d r, cs = c :: d :: r ∧ c ∈ ['+', '-'] ∧ IsDigit d ∧ ∀ t ∈ previous, ¬ t.EndsOperand

/-- The text `cs`, which the token `previous` precedes, begins with a token, and `rest` follows. -/
inductive Begins (previous : Option Face) : (cs : List Char) → Face → (rest : List Char) → Prop
  | integer {cs raw rest : List Char} (hbegins : BeginsNumber previous cs)
      (hlongest : Longest number cs raw rest) (hraw : raw ∈ whole) :
      Begins previous cs ⟨.integer, raw, raw⟩ rest
  | decimal {cs raw rest : List Char} (hbegins : BeginsNumber previous cs)
      (hlongest : Longest number cs raw rest) (hraw : raw ∈ whole * fraction) :
      Begins previous cs ⟨.decimal, raw, raw⟩ rest
  | keyword {c : Char} {cs raw rest : List Char} (word : Keyword) (hc : IsLetter c)
      (hlongest : Longest Lexis.word (c :: cs) raw rest) (hraw : raw = word.spelling.toList) :
      Begins previous (c :: cs) ⟨.keyword word, raw, raw⟩ rest
  | identifier {c : Char} {cs raw rest : List Char} (hc : IsLetter c)
      (hlongest : Longest word (c :: cs) raw rest)
      (hraw : ∀ word : Keyword, raw ≠ word.spelling.toList) :
      Begins previous (c :: cs) ⟨.identifier, raw, raw⟩ rest
  | string {raw value rest : List Char} (h : IsString raw value) :
      Begins previous (raw ++ rest) ⟨.string, value, raw⟩ rest
  | character {raw value rest : List Char} (h : IsCharacter raw value) :
      Begins previous (raw ++ rest) ⟨.character, value, raw⟩ rest
  | operator {c : Char} {cs raw rest : List Char} (hnumber : ¬ BeginsNumber previous (c :: cs))
      (hletter : ¬ IsLetter c) (hquote : c ∉ ['"', '\'']) (hblank : ¬ IsBlank c)
      (hlongest : Longest operator (c :: cs) raw rest) :
      Begins previous (c :: cs) ⟨.operator, raw, raw⟩ rest

/-- Blanks and the tokens `ts` lead from the token start before `cs` to the one before `rest`. -/
inductive Reads : (previous : Option Face) → (cs : List Char) → (ts : List Face) →
    (last : Option Face) → (rest : List Char) → Prop
  | done (previous : Option Face) (cs : List Char) : Reads previous cs [] previous cs
  | blank {previous last : Option Face} {c : Char} {cs rest : List Char} {ts : List Face}
      (hc : IsBlank c) (h : Reads previous cs ts last rest) : Reads previous (c :: cs) ts last rest
  | token {previous last : Option Face} {cs after rest : List Char} {t : Face} {ts : List Face}
      (ht : Begins previous cs t after) (h : Reads (some t) after ts last rest) :
      Reads previous cs (t :: ts) last rest

/-- The whole text is blanks and the tokens `ts`. -/
def Splits (cs : List Char) (ts : List Face) : Prop := ∃ last, Reads none cs ts last []

/-- Some token start of the text has a quote that begins no literal. -/
def Breaks (cs : List Char) : Prop := ∃ ts last rest, Reads none cs ts last rest ∧ Malformed rest

/-! ## Membership -/

theorem mem_one {p : Char → Prop} {w : List Char} : w ∈ one p ↔ ∃ c, p c ∧ w = [c] := Iff.rfl

theorem cons_mem_one_mul {p : Char → Prop} {L : Language Char} {w : List Char} :
    w ∈ one p * L ↔ ∃ c v, w = c :: v ∧ p c ∧ v ∈ L := by
  rw [Language.mem_mul]
  constructor
  · rintro ⟨_, ⟨c, hc, rfl⟩, v, hv, rfl⟩
    exact ⟨c, v, rfl, hc, hv⟩
  · rintro ⟨c, v, rfl, hc, hv⟩
    exact ⟨[c], ⟨c, hc, rfl⟩, v, hv, rfl⟩

theorem mem_star_one {p : Char → Prop} {w : List Char} : w ∈ (one p)∗ ↔ ∀ c ∈ w, p c := by
  rw [Language.mem_kstar]
  constructor
  · rintro ⟨parts, rfl, hparts⟩ c hc
    obtain ⟨part, hpart, hmem⟩ := List.mem_flatten.mp hc
    obtain ⟨d, hd, rfl⟩ := hparts part hpart
    rwa [List.mem_singleton.mp hmem]
  · intro h
    refine ⟨w.map fun c => [c], by simp [← List.flatMap_def], ?_⟩
    intro part hpart
    obtain ⟨c, hc, rfl⟩ := List.mem_map.mp hpart
    exact ⟨c, h c hc, rfl⟩

theorem mem_digits {w : List Char} : w ∈ digits ↔ w ≠ [] ∧ ∀ c ∈ w, IsDigit c := by
  rw [digits, cons_mem_one_mul]
  constructor
  · rintro ⟨c, v, rfl, hc, hv⟩
    exact ⟨List.cons_ne_nil c v, List.forall_mem_cons.mpr ⟨hc, mem_star_one.mp hv⟩⟩
  · rintro ⟨hne, h⟩
    obtain ⟨c, v, rfl⟩ := List.exists_cons_of_ne_nil hne
    obtain ⟨hc, hv⟩ := List.forall_mem_cons.mp h
    exact ⟨c, v, rfl, hc, mem_star_one.mpr hv⟩

theorem mem_word {w : List Char} : w ∈ word ↔
    ∃ c v, w = c :: v ∧ IsLetter c ∧ ∀ d ∈ v, IsLetter d ∨ IsDigit d ∨ d = '-' := by
  rw [word, cons_mem_one_mul]
  simp only [mem_star_one]

theorem mem_fraction {w : List Char} : w ∈ fraction ↔
    ∃ places, w = '.' :: places ∧ places ≠ [] ∧ ∀ d ∈ places, IsDigit d := by
  rw [fraction, cons_mem_one_mul]
  simp only [mem_digits]
  constructor
  · rintro ⟨_, places, rfl, rfl, hplaces⟩
    exact ⟨places, rfl, hplaces⟩
  · rintro ⟨places, rfl, hplaces⟩
    exact ⟨'.', places, rfl, rfl, hplaces⟩

theorem mem_whole {w : List Char} : w ∈ whole ↔ ∃ sign ds, w = sign ++ ds ∧
    (sign = [] ∨ sign = ['+'] ∨ sign = ['-']) ∧ ds ≠ [] ∧ ∀ d ∈ ds, IsDigit d := by
  rw [whole, Language.mem_mul]
  simp only [Language.mem_add, Language.mem_one, mem_one, mem_digits, List.mem_cons,
    List.not_mem_nil, or_false]
  constructor
  · rintro ⟨sign, hsign, ds, hds, rfl⟩
    refine ⟨sign, ds, rfl, ?_, hds⟩
    rcases hsign with rfl | ⟨c, rfl | rfl, rfl⟩
    · exact .inl rfl
    · exact .inr (.inl rfl)
    · exact .inr (.inr rfl)
  · rintro ⟨sign, ds, rfl, hsign, hds⟩
    refine ⟨sign, ?_, ds, hds, rfl⟩
    rcases hsign with rfl | rfl | rfl
    · exact .inl rfl
    · exact .inr ⟨'+', .inl rfl, rfl⟩
    · exact .inr ⟨'-', .inr rfl, rfl⟩

theorem mem_number {w : List Char} : w ∈ number ↔ w ∈ whole ∨ w ∈ whole * fraction := by
  rw [number, mul_add, mul_one, Language.mem_add]

theorem mem_operator {w : List Char} : w ∈ operator ↔
    (∃ c, c ∈ ['<', '>', '=', '!'] ∧ w = [c, '=']) ∨ ∃ c, w = [c] := by
  rw [operator, Language.mem_add, cons_mem_one_mul]
  simp only [mem_one, true_and]
  refine or_congr_left ?_
  constructor
  · rintro ⟨c, _, rfl, hc, _, rfl, rfl⟩
    exact ⟨c, hc, rfl⟩
  · rintro ⟨c, hc, rfl⟩
    exact ⟨c, _, rfl, hc, _, rfl, rfl⟩

/-! ## Longest words -/

variable {L : Language Char} {cs raw raw' rest rest' : List Char}

theorem Longest.unique (h : Longest L cs raw rest) (h' : Longest L cs raw' rest') :
    raw = raw' ∧ rest = rest' := by
  have hle := h.longest raw' rest' h'.split h'.mem
  have hle' := h'.longest raw rest h.split h.mem
  exact List.append_inj (h.split.trans h'.split.symm) (Nat.le_antisymm hle' hle)

end BlockScript.Lexis
