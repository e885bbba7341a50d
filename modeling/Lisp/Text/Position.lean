/-!
Places in a source text, counted in characters from line 1, column 1.
-/

namespace Lisp

structure Position where
  line : Nat := 1
  col : Nat := 1
deriving DecidableEq, Repr

namespace Position

/-- The place after a character that stands at `p`. -/
def advance (p : Position) (c : Char) : Position :=
  if c = '\n' then ⟨p.line + 1, 1⟩ else ⟨p.line, p.col + 1⟩

def text (p : Position) : String :=
  toString p.line ++ ":" ++ toString p.col

end Position

end Lisp
