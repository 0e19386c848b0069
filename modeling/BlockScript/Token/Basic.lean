import BlockScript.Position

/-!
# Tokens

The words of the language. A token keeps the text it was read from (`raw`) beside its value, in
which escapes are resolved, and the place of its first character.
-/

namespace BlockScript

/-- The reserved words, each spelled as its name. -/
inductive Keyword
  | AND | DEF | DO | ELSE | END | FALSE | FOR | IF | IN | LET | NIL | OR | RETURN | TRUE | WHILE
deriving DecidableEq, Repr

namespace Keyword

def all : List Keyword :=
  [AND, DEF, DO, ELSE, END, FALSE, FOR, IF, IN, LET, NIL, OR, RETURN, TRUE, WHILE]

def spelling : Keyword → String
  | AND => "AND" | DEF => "DEF" | DO => "DO" | ELSE => "ELSE" | END => "END" | FALSE => "FALSE"
  | FOR => "FOR" | IF => "IF" | IN => "IN" | LET => "LET" | NIL => "NIL" | OR => "OR"
  | RETURN => "RETURN" | TRUE => "TRUE" | WHILE => "WHILE"

def ofSpelling? (word : String) : Option Keyword :=
  all.find? (·.spelling == word)

end Keyword

namespace Token

inductive Kind
  | integer | decimal | character | string | identifier | keyword (word : Keyword)
  | operator | endOfInput
deriving DecidableEq, Repr

/-- The name of a kind; a keyword is its own kind. -/
def Kind.label : Kind → String
  | integer => "INTEGER" | decimal => "DECIMAL" | character => "CHARACTER" | string => "STRING"
  | identifier => "IDENTIFIER" | keyword word => word.spelling | operator => "OPERATOR"
  | endOfInput => "EOF"

end Token

structure Token where
  kind : Token.Kind
  value : String
  raw : String
  position : Position
  /-- How many characters precede the token. -/
  index : Nat
deriving DecidableEq, Repr

namespace Token

/-- The token after the last character of a text. -/
def endAt (position : Position) (index : Nat) : Token :=
  ⟨.endOfInput, "", "", position, index⟩

/-- Whether an operand may end here, so that a sign which follows is a binary operator. -/
def endsOperand (kind : Kind) (value : String) : Bool :=
  match kind with
  | .integer | .decimal | .character | .string | .identifier => true
  | .keyword .NIL | .keyword .TRUE | .keyword .FALSE => true
  | .operator => value == ")"
  | _ => false

def isKeyword (t : Token) (word : Keyword) : Bool := t.kind == .keyword word

def isOperator (t : Token) (text : String) : Bool := t.kind == .operator && t.value == text

end Token

end BlockScript
