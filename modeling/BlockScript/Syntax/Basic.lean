import BlockScript.Number.Decimal
import BlockScript.Position

/-!
# Syntax trees

A program is a list of fields, which are initialised in order, and a list of methods. Every node but
the program has the place of its first token. Trees built by hand may hold what no text denotes:
operators of other spellings, character literals of several characters and nodes of unknown kinds.
-/

namespace BlockScript

/-- The operators of the language, and spellings that it has no meaning for. -/
inductive Operator
  | and | or | eq | ne | lt | le | gt | ge | add | sub | mul | div
  | unknown (spelling : String)
deriving DecidableEq, Repr

namespace Operator

def spelling : Operator → String
  | and => "AND" | or => "OR" | eq => "==" | ne => "!=" | lt => "<" | le => "<=" | gt => ">"
  | ge => ">=" | add => "+" | sub => "-" | mul => "*" | div => "/"
  | unknown spelling => spelling

def known : List Operator := [and, or, eq, ne, lt, le, gt, ge, add, sub, mul, div]

def ofSpelling (text : String) : Operator :=
  (known.find? (·.spelling == text)).getD (unknown text)

/-- How tightly an operator binds, from one to four; none for a spelling without meaning. -/
def precedence? : Operator → Option Nat
  | and | or => some 1
  | eq | ne | lt | le | gt | ge => some 2
  | add | sub => some 3
  | mul | div => some 4
  | unknown _ => none

end Operator

/-- Constants. Numbers keep the text they were written as. -/
inductive Literal
  | nil
  | boolean (value : Bool)
  | character (value : String)
  | string (value : String)
  | integer (value : Int) (raw : String)
  | decimal (value : Decimal) (raw : String)
deriving DecidableEq, Repr

inductive Expr
  | literal (position : Position) (value : Literal)
  | group (position : Position) (inner : Expr)
  | binary (position : Position) (op : Operator) (left right : Expr)
  | name (position : Position) (id : String)
  | member (position : Position) (receiver : Expr) (name : String)
  | call (position : Position) (name : String) (arguments : List Expr)
  | methodCall (position : Position) (receiver : Expr) (name : String) (arguments : List Expr)
  | unknown (position : Position) (label : String)

def Expr.position : Expr → Position
  | literal p _ | group p _ | binary p .. | name p _ | member p .. | call p .. | methodCall p ..
  | unknown p _ => p

/-- What a declaration says: a name, a type or none, and an initial value or none. -/
structure Binding where
  position : Position
  name : String
  type : Option String
  value : Option Expr

inductive Stmt
  | expression (position : Position) (value : Expr)
  | declare (binding : Binding)
  | assign (position : Position) (target value : Expr)
  | conditional (position : Position) (condition : Expr) (thenBody elseBody : List Stmt)
  | forLoop (position : Position) (name : String) (iterable : Expr) (body : List Stmt)
  | whileLoop (position : Position) (condition : Expr) (body : List Stmt)
  | ret (position : Position) (value : Expr)
  | unknown (position : Position) (label : String)

def Stmt.position : Stmt → Position
  | expression p _ | assign p .. | conditional p .. | forLoop p .. | whileLoop p .. | ret p _
  | unknown p _ => p
  | declare b => b.position

structure Param where
  position : Position
  name : String
  type : Option String

structure Method where
  position : Position
  name : String
  params : List Param
  returnType : Option String
  body : List Stmt

structure Program where
  fields : List Binding
  methods : List Method

end BlockScript
