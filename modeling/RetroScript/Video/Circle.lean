import RetroScript.Number.Binary
import RetroScript.Video.Memory

/-!
# Circles and discs

The canvas is scanned row by row and column by column, so the work is bounded by the canvas whatever
the radius is.
-/
namespace RetroScript.Video

/-- The nearest integer to a square root, computed in binary fractions. -/
def roundedRoot (n : Nat) : Nat := Number.nearestNat (Float.sqrt (Float.ofNat n))

/-- Half the width of a circle of radius `r` at distance `d` from its centre. -/
def chord (r d : Int) : Option Int :=
  if (d.natAbs : Int) > r then none else some (roundedRoot (r * r - d * d).toNat)

def range (n : Nat) : List Int := (List.range n).map Int.ofNat

/-- The integers from `a` to `b`, both included. -/
def interval (a b : Int) : List Int := (range (b - a + 1).toNat).map (a + ·)

/-- The two ends of each row that the circle meets. -/
def rowEnds (center : Point) (r y : Int) : List Point :=
  match chord r (y - center.y) with
  | some half => [⟨center.x - half, y⟩, ⟨center.x + half, y⟩]
  | none => []

/-- The two ends of each column that the circle meets. -/
def columnEnds (center : Point) (r x : Int) : List Point :=
  match chord r (x - center.x) with
  | some half => [⟨x, center.y - half⟩, ⟨x, center.y + half⟩]
  | none => []

/-- The pixels of a row inside the disc. -/
def Mode.rowInside (m : Mode) (center : Point) (r y : Int) : List Point :=
  match chord r (y - center.y) with
  | some half =>
    (interval (max (center.x - half) 0) (min (center.x + half) (m.columns - 1))).map (⟨·, y⟩)
  | none => []

/-- The pixels that drawing a circle colors. -/
def Mode.circlePoints (m : Mode) (center : Point) (r : Int) : List Point :=
  if r < 0 then []
  else (range height).flatMap (rowEnds center r) ++ (range m.columns).flatMap (columnEnds center r)

/-- The pixels that filling a circle colors. -/
def Mode.discPoints (m : Mode) (center : Point) (r : Int) : List Point :=
  if r < 0 then [] else (range height).flatMap (m.rowInside center r)

def Memory.drawCircle (m : Memory) (center : Point) (r : Int) (c : Color) : Memory :=
  m.paint (m.mode.circlePoints center r) c

def Memory.fillCircle (m : Memory) (center : Point) (r : Int) (c : Color) : Memory :=
  m.paint (m.mode.discPoints center r) c

end RetroScript.Video
