/-!
# Escapes

Inside quotes a backslash and a letter stand for one character. `resolve?` reads what follows the
backslash; `escape` writes a text so that it can stand between the given quotes.
-/

namespace BlockScript.Text

/-- Backspace. -/
def backspace : Char := '\x08'

/-- The character that a backslash and this character stand for. -/
def resolve? : Char → Option Char
  | 'b' => some backspace
  | 'n' => some '\n'
  | 'r' => some '\r'
  | 't' => some '\t'
  | '\\' => some '\\'
  | '"' => some '"'
  | '\'' => some '\''
  | _ => none

/-- One character as it is written between `quote`s. -/
def escapeChar (quote c : Char) : List Char :=
  if c = '\n' then ['\\', 'n']
  else if c = '\r' then ['\\', 'r']
  else if c = '\t' then ['\\', 't']
  else if c = backspace then ['\\', 'b']
  else if c = '\\' then ['\\', '\\']
  else if c = quote then ['\\', quote]
  else [c]

/-- A text as it is written between `quote`s. -/
def escape (quote : Char) (cs : List Char) : List Char :=
  cs.flatMap (escapeChar quote)

@[simp] theorem escape_nil (quote : Char) : escape quote [] = [] := rfl

@[simp] theorem escape_cons (quote c : Char) (cs : List Char) :
    escape quote (c :: cs) = escapeChar quote c ++ escape quote cs := rfl

/-- A text between two `quote`s, escaped. -/
def enclose (quote : Char) (text : String) : String :=
  String.ofList (quote :: escape quote text.toList ++ [quote])

end BlockScript.Text
