/-!
# Video memory

A canvas of 320 by 200 physical pixels, each a palette index. In multicolor mode a logical pixel is
two physical pixels wide. The picture that is shown is a copy of the canvas made by `update`.
-/
namespace RetroScript.Video

/-- Physical pixels in a row. -/
def width : Nat := 320

/-- Rows. -/
def height : Nat := 200

/-- A palette index. -/
abbrev Color := Fin 16

/-- The color whose index is the last four bits of a number. -/
def Color.ofInt (n : Int) : Color := ⟨(n % 16).toNat, by omega⟩

/-- What the canvas is cleared to. -/
def background : Color := ⟨0, by decide⟩

inductive Mode where
  /-- One logical pixel a physical pixel. -/
  | hires
  /-- Logical pixels twice as wide. -/
  | multiColor
  /-- Character mode; only the background shows. -/
  | text
  deriving DecidableEq, Repr

namespace Mode

def ofNumber? (n : Int) : Option Mode :=
  if n = 0 then some .hires
  else if n = 1 then some .multiColor
  else if n = 2 then some .text
  else none

/-- Physical pixels a logical pixel. -/
def pixelWidth : Mode → Nat
  | .multiColor => 2
  | _ => 1

/-- Logical pixels in a row. -/
def columns (m : Mode) : Nat := width / m.pixelWidth

end Mode

/-- A logical pixel, on or off the canvas. -/
structure Point where
  x : Int
  y : Int
  deriving DecidableEq, Repr

def Mode.OnCanvas (m : Mode) (p : Point) : Prop :=
  0 ≤ p.x ∧ p.x < m.columns ∧ 0 ≤ p.y ∧ p.y < height

instance (m : Mode) (p : Point) : Decidable (m.OnCanvas p) := by
  unfold Mode.OnCanvas; infer_instance

/-- The physical pixel where a logical pixel on the canvas starts. -/
def Mode.offset (m : Mode) (p : Point) : Nat := p.y.toNat * width + p.x.toNat * m.pixelWidth

/-- All physical pixels, row by row. -/
abbrev Picture := Vector Color (width * height)

def Picture.blank : Picture := Vector.replicate (width * height) background

structure Memory where
  mode : Mode := .hires
  pixels : Picture := Picture.blank
  /-- The canvas as of the last update. -/
  shown : Picture := Picture.blank
  /-- Updates so far. -/
  updates : Nat := 0

namespace Memory

def clear (m : Memory) : Memory := { m with pixels := Picture.blank }

/-- Changes the mode and clears the canvas. -/
def setMode (m : Memory) (mode : Mode) : Memory := { m with mode, pixels := Picture.blank }

/-- The palette index of a logical pixel, none off the canvas. -/
def pixel? (m : Memory) (p : Point) : Option Color :=
  if m.mode.OnCanvas p then m.pixels[m.mode.offset p]? else none

/-- Colors a logical pixel; off the canvas nothing happens. -/
def setPixel (m : Memory) (p : Point) (c : Color) : Memory :=
  if m.mode.OnCanvas p then
    let i := m.mode.offset p
    let wide := m.mode.pixelWidth = 2
    { m with
      pixels :=
        if wide then (m.pixels.setIfInBounds i c).setIfInBounds (i + 1) c
        else m.pixels.setIfInBounds i c }
  else m

/-- Colors logical pixels one after the other. -/
def paint (m : Memory) (ps : List Point) (c : Color) : Memory := ps.foldl (·.setPixel · c) m

/-- Shows the canvas; in character mode the background. -/
def update (m : Memory) : Memory :=
  { m with
    shown := if m.mode = .text then Picture.blank else m.pixels
    updates := m.updates + 1 }

end Memory

end RetroScript.Video
