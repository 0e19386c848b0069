/-!
# Positions

A place in a source text, as diagnostics and syntax trees give it.
-/

namespace BlockScript

/-- A place in a text: its line and its column, both counted from one. -/
structure Position where
  line : Nat
  column : Nat
deriving DecidableEq, Repr

/-- The first character of a text. -/
def Position.start : Position := ⟨1, 1⟩

/-- The place after a character: a line feed begins a line, all else takes one column. -/
def Position.step (p : Position) (c : Char) : Position :=
  if c = '\n' then ⟨p.line + 1, 1⟩ else ⟨p.line, p.column + 1⟩

/-- The place after a stretch of text. -/
def Position.advance (p : Position) (cs : List Char) : Position :=
  cs.foldl Position.step p

@[simp] theorem Position.advance_nil (p : Position) : p.advance [] = p := rfl

@[simp] theorem Position.advance_cons (p : Position) (c : Char) (cs : List Char) :
    p.advance (c :: cs) = (p.step c).advance cs := rfl

theorem Position.advance_append (p : Position) (cs ds : List Char) :
    p.advance (cs ++ ds) = (p.advance cs).advance ds := by
  simp [Position.advance]

end BlockScript
