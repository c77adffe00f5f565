/-! Lines and columns of a source text, both counted from one; columns count characters. -/
namespace RetroScript

structure Position where
  line : Nat
  column : Nat
  deriving DecidableEq, Repr, Inhabited

namespace Position

/-- The place of an empty program, before any line. -/
def none : Position := ⟨0, 0⟩

/-- Where a source text starts. -/
def start : Position := ⟨1, 1⟩

/-- The place after a character that stands here; only a line feed ends a line. -/
def next (p : Position) (c : Char) : Position :=
  if c = '\n' then ⟨p.line + 1, 1⟩ else ⟨p.line, p.column + 1⟩

/-- The place after a piece of text that starts here. -/
def advance (p : Position) (cs : List Char) : Position := cs.foldl next p

def text (p : Position) : String := toString p.line ++ ":" ++ toString p.column

end Position

end RetroScript
