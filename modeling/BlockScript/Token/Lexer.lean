import BlockScript.Diagnostic
import BlockScript.Text.Escape

/-!
# Reading tokens

A text splits from left to right into blanks and lexemes, each the longest that begins where it
does. `lexeme` reads one, `tokenize` all. A sign belongs to the number after it unless an operand
ends before it.
-/

namespace BlockScript.Token

def isBlank (c : Char) : Bool :=
  c = ' ' || c = '\t' || c = '\r' || c = '\n' || c = Text.backspace

def isLetter (c : Char) : Bool := c.isAlpha || c = '_'

def isWordChar (c : Char) : Bool := isLetter c || c.isDigit || c = '-'

def isSign (c : Char) : Bool := c = '+' || c = '-'

/-- The front of a text read as one token, and what follows it. -/
structure Lexeme where
  kind : Kind
  value : List Char
  raw : List Char
  rest : List Char

/-- What is wrong with a literal, and how many characters precede the trouble. -/
structure Flaw where
  cause : QuoteFlaw
  offset : Nat

/-- The fraction `.[0-9]+` at the front of a text, empty where none begins. -/
def fraction : List Char → List Char × List Char
  | '.' :: d :: r =>
    if d.isDigit then ('.' :: d :: r.takeWhile Char.isDigit, r.dropWhile Char.isDigit)
    else ([], '.' :: d :: r)
  | r => ([], r)

/-- A number that goes on with `cs` after its first character, a digit or a sign. -/
def number (first : Char) (cs : List Char) : Lexeme :=
  let whole := first :: cs.takeWhile Char.isDigit
  let (part, rest) := fraction (cs.dropWhile Char.isDigit)
  let raw := whole ++ part
  ⟨if part.isEmpty then .integer else .decimal, raw, raw, rest⟩

/-- The kind of a word. -/
def wordKind (cs : List Char) : Kind :=
  match Keyword.ofSpelling? (String.ofList cs) with
  | some word => .keyword word
  | none => .identifier

/-- A word that goes on with `cs` after its first letter. -/
def word (first : Char) (cs : List Char) : Lexeme :=
  let raw := first :: cs.takeWhile isWordChar
  ⟨wordKind raw, raw, raw, cs.dropWhile isWordChar⟩

/-- The value, the text and the rest of a string literal, behind its opening quote; `offset` counts
the characters before `cs`. -/
def stringTail (offset : Nat) : List Char → Except Flaw (List Char × List Char × List Char)
  | [] => .error ⟨.unterminatedString, offset⟩
  | '"' :: rest => .ok ([], ['"'], rest)
  | ['\\'] => .error ⟨.unfinishedEscape, offset + 1⟩
  | '\\' :: e :: cs =>
    match Text.resolve? e with
    | none => .error ⟨.invalidEscape e, offset + 1⟩
    | some c => do
      let (value, raw, rest) ← stringTail (offset + 2) cs
      return (c :: value, '\\' :: e :: raw, rest)
  | c :: cs =>
    if c = '\n' || c = '\r' then .error ⟨.unterminatedString, offset⟩
    else do
      let (value, raw, rest) ← stringTail (offset + 1) cs
      return (c :: value, c :: raw, rest)

/-- The closing quote of a character literal whose value is `c`, written `raw`. -/
def closeCharacter (c : Char) (raw : List Char) : List Char → Except Flaw Lexeme
  | '\'' :: rest => .ok ⟨.character, [c], '\'' :: raw ++ ['\''], rest⟩
  | _ => .error ⟨.unterminatedCharacter, raw.length + 1⟩

/-- A character literal, behind its opening quote. -/
def characterTail : List Char → Except Flaw Lexeme
  | [] => .error ⟨.unterminatedCharacter, 1⟩
  | ['\\'] => .error ⟨.unfinishedEscape, 2⟩
  | '\\' :: e :: cs =>
    match Text.resolve? e with
    | none => .error ⟨.invalidEscape e, 2⟩
    | some c => closeCharacter c ['\\', e] cs
  | c :: cs =>
    if c = '\n' || c = '\r' then .error ⟨.unterminatedCharacter, 1⟩
    else if c = '\'' then .error ⟨.emptyCharacter, 1⟩
    else closeCharacter c [c] cs

/-- The operators of two characters; every other character is an operator by itself. -/
def isPair (c d : Char) : Bool := d = '=' && (c = '<' || c = '>' || c = '=' || c = '!')

def operator (c : Char) : List Char → Lexeme
  | d :: cs =>
    if isPair c d then ⟨.operator, [c, d], [c, d], cs⟩ else ⟨.operator, [c], [c], d :: cs⟩
  | [] => ⟨.operator, [c], [c], []⟩

/-- Whether a sign that stands before `cs` is part of a number. -/
def beginsDigit : List Char → Bool
  | d :: _ => d.isDigit
  | [] => false

/-- The lexeme that begins with the character `c` and goes on into `cs`; `afterOperand` tells
whether an operand ends before it. -/
def lexeme (afterOperand : Bool) (c : Char) (cs : List Char) : Except Flaw Lexeme :=
  if c.isDigit || (isSign c && beginsDigit cs && !afterOperand) then .ok (number c cs)
  else if c = '"' then do
    let (value, raw, rest) ← stringTail 1 cs
    return ⟨.string, value, '"' :: raw, rest⟩
  else if c = '\'' then characterTail cs
  else if isLetter c then .ok (word c cs)
  else .ok (operator c cs)

/-- The diagnostic of a literal that begins at `start`. -/
def Flaw.diagnostic (flaw : Flaw) (start : Position) (index : Nat) : Diagnostic :=
  let column := if flaw.cause.isEscape then start.column + flaw.offset else start.column
  ⟨.badQuote flaw.cause (index + flaw.offset), some ⟨start.line, column⟩⟩

/-- The tokens of `cs`, which stands at a place and an index; `fuel` bounds the number of lexemes
and blanks. -/
def scan : (fuel : Nat) → Position → Nat → (afterOperand : Bool) → List Char →
    Except Diagnostic (List Token)
  | _, p, i, _, [] => .ok [endAt p i]
  | 0, p, i, _, _ => .ok [endAt p i]
  | fuel + 1, p, i, afterOperand, c :: cs =>
    if isBlank c then scan fuel (p.step c) (i + 1) afterOperand cs
    else
      match lexeme afterOperand c cs with
      | .error flaw => .error (flaw.diagnostic p i)
      | .ok l => do
        let value := String.ofList l.value
        let rest ← scan fuel (p.advance l.raw) (i + l.raw.length) (endsOperand l.kind value) l.rest
        return ⟨l.kind, value, String.ofList l.raw, p, i⟩ :: rest

/-- The tokens of a text, the end of the input last. -/
def tokenize (source : String) : Except Diagnostic (List Token) :=
  let cs := source.toList
  scan cs.length .start 0 false cs

end BlockScript.Token
