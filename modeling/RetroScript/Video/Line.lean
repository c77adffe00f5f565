import RetroScript.Number.Binary
import RetroScript.Video.Memory

/-!
# Lines

A line is clipped to the canvas by cutting its ends off at the edges, in binary fractions, and what
is left is drawn by stepping along it with an error term.
-/
namespace RetroScript.Video

/-! ### Stepping -/

/-- The steps of a line: its extent to the right and (negated) downward, and the signs. -/
structure Slope where
  dx : Int
  dy : Int
  sx : Int
  sy : Int

def Slope.between (a b : Point) : Slope where
  dx := (b.x - a.x).natAbs
  dy := -((b.y - a.y).natAbs : Int)
  sx := if a.x < b.x then 1 else -1
  sy := if a.y < b.y then 1 else -1

/-- Where a line that is being drawn has got to, with its error term. -/
structure Pen where
  point : Point
  err : Int
  deriving DecidableEq, Repr

/-- One pixel on, to the side, up or down, or both. -/
def Slope.advance (s : Slope) (pen : Pen) : Pen :=
  let sideways := s.dy ≤ 2 * pen.err
  let upright := 2 * pen.err ≤ s.dx
  { point := ⟨if sideways then pen.point.x + s.sx else pen.point.x,
      if upright then pen.point.y + s.sy else pen.point.y⟩
    err := (if sideways then pen.err + s.dy else pen.err) + (if upright then s.dx else 0) }

/-- The pixels from where the pen is to `target`, at most `n` steps on. -/
def walk (s : Slope) (target : Point) : Nat → Pen → List Point
  | 0, pen => [pen.point]
  | n + 1, pen =>
    if pen.point = target then [pen.point] else pen.point :: walk s target n (s.advance pen)

/-- The pen at the start of a line. -/
def Slope.start (s : Slope) (a : Point) : Pen := ⟨a, s.dx + s.dy⟩

/-- The pixels of a line between two points. -/
def segment (a b : Point) : List Point :=
  let s := Slope.between a b
  walk s b (s.dx - s.dy).toNat (s.start a)

/-! ### Clipping -/

/-- An end of a line while it is being clipped. -/
structure Spot where
  x : Float
  y : Float

/-- The sides of the canvas on which a spot lies outside. -/
structure Sides where
  left : Bool
  right : Bool
  low : Bool
  high : Bool

def Sides.isInside (s : Sides) : Bool := !(s.left || s.right || s.low || s.high)

/-- Whether two spots lie outside on the same side. -/
def Sides.share (s t : Sides) : Bool :=
  s.left && t.left || s.right && t.right || s.low && t.low || s.high && t.high

/-- The largest coordinates on the canvas. -/
structure Bounds where
  x : Float
  y : Float

def Mode.bounds (m : Mode) : Bounds := ⟨Float.ofNat (m.columns - 1), Float.ofNat (height - 1)⟩

def Bounds.sides (b : Bounds) (p : Spot) : Sides where
  left := p.x < 0
  right := !decide (p.x < 0) && decide (b.x < p.x)
  low := p.y < 0
  high := !decide (p.y < 0) && decide (b.y < p.y)

/-- Where the line from `p` to `q` meets the first of the edges named by `s`: high, low, right,
left. -/
def Bounds.cut (b : Bounds) (s : Sides) (p q : Spot) : Spot :=
  let dx := q.x - p.x
  let dy := q.y - p.y
  if s.high then ⟨p.x + dx * (b.y - p.y) / dy, b.y⟩
  else if s.low then ⟨p.x + dx * (0 - p.y) / dy, 0⟩
  else if s.right then ⟨b.x, p.y + dy * (b.x - p.x) / dx⟩
  else ⟨0, p.y + dy * (0 - p.x) / dx⟩

/-- Moves one end at a time onto an edge, at most `n` times; none if nothing can be visible. -/
def Bounds.clip (b : Bounds) : Nat → Spot → Spot → Option (Spot × Spot)
  | 0, p, q => some (p, q)
  | n + 1, p, q =>
    let sp := b.sides p
    let sq := b.sides q
    if sp.isInside && sq.isInside then some (p, q)
    else if sp.share sq then none
    else if sp.isInside then b.clip n p (b.cut sq p q)
    else b.clip n (b.cut sp p q) q

/-- The nearest point on the canvas. -/
def Mode.snap (m : Mode) (p : Spot) : Point where
  x := max 0 (min (Number.round p.x) (m.columns - 1))
  y := max 0 (min (Number.round p.y) (height - 1))

/-- The visible part of a line. Ends on the canvas stay as they are. -/
def Mode.clipLine (m : Mode) (a b : Point) : Option (Point × Point) :=
  if m.OnCanvas a ∧ m.OnCanvas b then some (a, b)
  else
    let spot (p : Point) : Spot := ⟨Float.ofInt p.x, Float.ofInt p.y⟩
    (m.bounds.clip 8 (spot a) (spot b)).map fun (p, q) => (m.snap p, m.snap q)

/-- The pixels that drawing a line colors. -/
def Mode.linePoints (m : Mode) (a b : Point) : List Point :=
  match m.clipLine a b with
  | some (a, b) => segment a b
  | none => []

def Memory.drawLine (m : Memory) (a b : Point) (c : Color) : Memory :=
  m.paint (m.mode.linePoints a b) c

end RetroScript.Video
