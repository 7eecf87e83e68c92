/-
Source positions.
-/

namespace LetStack

/-- a line and a column, both from 1; a line of 0 or less means that the position is not known -/
structure Position where
  line : Int32 := 0
  col : Int32 := 0
deriving DecidableEq, Repr

namespace Position

/-- the position of a node that has none -/
def unknown : Position := ⟨0, 0⟩

def isKnown (p : Position) : Bool := 0 < p.line

/-- `line:col`, or a question mark -/
def text (p : Position) : String :=
  if p.isKnown then toString p.line.toInt ++ ":" ++ toString p.col.toInt else "?"

end Position

end LetStack
