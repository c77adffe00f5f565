import Mathlib.Data.Finset.Dedup
import RetroScript.Video.Circle
import RetroScript.Video.Frame
import RetroScript.Video.Line

/-!
# The last writer of a pixel

A drawing colors a set of logical pixels that its shape and the mode decide, whatever the canvas shows.
So a pixel has the color of the last drawing that reaches it: `last_writer_wins`.
-/

namespace RetroScript.Video

/-! ### Logical and physical pixels -/

/-- The logical pixel that a physical pixel belongs to. -/
def Mode.owner (m : Mode) (i : Nat) : Point :=
  ⟨(i % width / m.pixelWidth : Nat), (i / width : Nat)⟩

theorem Mode.onCanvas_owner (m : Mode) {i : Nat} (inside : i < width * height) :
    m.OnCanvas (m.owner i) := by
  cases m <;> simp only [OnCanvas, owner, columns, pixelWidth, width, height] at inside ⊢ <;> omega

theorem Mode.owner_eq_iff {m : Mode} {p : Point} (onCanvas : m.OnCanvas p) (i : Nat) :
    m.owner i = p ↔ m.offset p ≤ i ∧ i < m.offset p + m.pixelWidth := by
  obtain ⟨x, y⟩ := p
  cases m <;>
    simp only [OnCanvas, owner, offset, columns, pixelWidth, width, height, Point.mk.injEq] at onCanvas ⊢ <;>
    omega

theorem Mode.offset_lt {m : Mode} {p : Point} (onCanvas : m.OnCanvas p) : m.offset p < width * height := by
  cases m <;> simp only [OnCanvas, offset, columns, pixelWidth, width, height] at onCanvas ⊢ <;> omega

theorem Mode.owner_offset {m : Mode} {p : Point} (onCanvas : m.OnCanvas p) : m.owner (m.offset p) = p := by
  apply (m.owner_eq_iff onCanvas _).mpr
  cases m <;> simp [pixelWidth]

/-! ### One pixel after the other -/

namespace Memory

variable (m : Memory)

@[simp] theorem mode_setPixel (p : Point) (c : Color) : (m.setPixel p c).mode = m.mode := by
  unfold setPixel
  split <;> rfl

@[simp] theorem shown_setPixel (p : Point) (c : Color) : (m.setPixel p c).shown = m.shown := by
  unfold setPixel
  split <;> rfl

@[simp] theorem updates_setPixel (p : Point) (c : Color) : (m.setPixel p c).updates = m.updates := by
  unfold setPixel
  split <;> rfl

theorem getElem_setPixel (p : Point) (c : Color) {i : Nat} (inside : i < width * height) :
    (m.setPixel p c).pixels[i] = if m.mode.owner i = p then c else m.pixels[i] := by
  unfold setPixel
  by_cases onCanvas : m.mode.OnCanvas p
  · have owned := Mode.owner_eq_iff onCanvas i
    have first := Mode.offset_lt onCanvas
    cases mode : m.mode <;>
      simp only [mode, Mode.pixelWidth] at onCanvas owned first ⊢ <;>
      simp only [onCanvas, owned, if_true, Vector.getElem_setIfInBounds] <;>
      grind
  · have other : m.mode.owner i ≠ p := fun same => onCanvas (same ▸ m.mode.onCanvas_owner inside)
    simp only [if_neg onCanvas, if_neg other]

theorem pixel?_eq {p : Point} (onCanvas : m.mode.OnCanvas p) :
    m.pixel? p = some (m.pixels.get ⟨m.mode.offset p, Mode.offset_lt onCanvas⟩) := by
  rw [pixel?, if_pos onCanvas]
  exact Vector.getElem?_eq_getElem _

theorem pixel?_off {p : Point} (off : ¬ m.mode.OnCanvas p) : m.pixel? p = none := if_neg off

/-! What painting leaves alone, and what it does to a physical pixel. -/

theorem paint_keeps (ps : List Point) (c : Color) :
    (m.paint ps c).mode = m.mode ∧ (m.paint ps c).shown = m.shown ∧
      (m.paint ps c).updates = m.updates := by
  unfold paint
  induction ps generalizing m with
  | nil => exact ⟨rfl, rfl, rfl⟩
  | cons p ps ih => simpa using ih (m.setPixel p c)

theorem getElem_paint (ps : List Point) (c : Color) {i : Nat} (inside : i < width * height) :
    (m.paint ps c).pixels[i] = if m.mode.owner i ∈ ps then c else m.pixels[i] := by
  unfold paint
  induction ps generalizing m with
  | nil => simp
  | cons p ps ih =>
    rw [List.foldl_cons, ih, mode_setPixel, getElem_setPixel m p c inside]
    by_cases later : m.mode.owner i ∈ ps
    · rw [if_pos later, if_pos (List.mem_cons_of_mem p later)]
    · rw [if_neg later]
      apply if_congr _ rfl rfl
      simp [later]

theorem pixel?_paint (ps : List Point) (c : Color) (p : Point) :
    (m.paint ps c).pixel? p = if p ∈ ps ∧ m.mode.OnCanvas p then some c else m.pixel? p := by
  have mode := (m.paint_keeps ps c).1
  by_cases onCanvas : m.mode.OnCanvas p
  · have painted := m.getElem_paint ps c (Mode.offset_lt onCanvas)
    rw [Mode.owner_offset onCanvas] at painted
    rw [pixel?, mode, if_pos onCanvas, Vector.getElem?_eq_getElem (Mode.offset_lt onCanvas), painted,
      m.pixel?_eq onCanvas]
    simp only [onCanvas, and_true]
    split <;> rfl
  · rw [if_neg fun reached => onCanvas reached.2, m.pixel?_off onCanvas, pixel?_off _ (mode ▸ onCanvas)]

end Memory

/-! ### Strokes -/

inductive Shape where
  | point (p : Point)
  | line (a b : Point)
  | circle (center : Point) (r : Int)
  | disc (center : Point) (r : Int)

/-- What is plotted for a shape, on the canvas or off it. -/
def Shape.points (m : Mode) : Shape → List Point
  | .point p => [p]
  | .line a b => m.linePoints a b
  | .circle center r => m.circlePoints center r
  | .disc center r => m.discPoints center r

/-- The logical pixels of a shape. -/
def Shape.pixels (m : Mode) (shape : Shape) : Finset Point :=
  ((shape.points m).filter fun p => m.OnCanvas p).toFinset

theorem Shape.mem_pixels {m : Mode} {shape : Shape} {p : Point} :
    p ∈ shape.pixels m ↔ p ∈ shape.points m ∧ m.OnCanvas p := by
  simp [pixels]

/-- A call that draws. -/
structure Stroke where
  shape : Shape
  color : Int

def Stroke.index (s : Stroke) : Color := .ofInt s.color

/-- The index of a color is its last four bits. -/
theorem ofInt_val (c : Int) : (Color.ofInt c).val = (BitVec.ofInt 64 c &&& 15#64).toNat := by
  have low : ∀ n : Nat, n &&& 15 = n % 16 := fun n => Nat.and_two_pow_sub_one_eq_mod n 4
  rw [BitVec.toNat_and, BitVec.toNat_ofInt, BitVec.toNat_ofNat, low]
  simp only [Color.ofInt]
  omega

namespace Memory

def draw (m : Memory) (s : Stroke) : Memory :=
  match s.shape with
  | .point p => m.setPixel p s.index
  | .line a b => m.drawLine a b s.index
  | .circle center r => m.drawCircle center r s.index
  | .disc center r => m.fillCircle center r s.index

def drawAll (m : Memory) (strokes : List Stroke) : Memory := strokes.foldl draw m

/-- A canvas made blank by a clear, or by a change of the mode. -/
def restart (m : Memory) : Option Mode → Memory
  | none => m.clear
  | some mode => m.setMode mode

variable (m : Memory) (s : Stroke)

theorem draw_eq_paint : m.draw s = m.paint (s.shape.points m.mode) s.index := by
  unfold draw
  split <;> next shape => rw [shape]; rfl

theorem draw_keeps :
    (m.draw s).mode = m.mode ∧ (m.draw s).shown = m.shown ∧ (m.draw s).updates = m.updates := by
  rw [draw_eq_paint]
  exact m.paint_keeps _ _

theorem getElem_draw {i : Nat} (inside : i < width * height) :
    (m.draw s).pixels[i] =
      if m.mode.owner i ∈ s.shape.points m.mode then s.index else m.pixels[i] := by
  simp only [draw_eq_paint, getElem_paint m _ _ inside]

/-- A stroke colors its pixels and no others, whatever the canvas shows. -/
theorem pixel?_draw (p : Point) :
    (m.draw s).pixel? p = if p ∈ s.shape.pixels m.mode then some s.index else m.pixel? p := by
  rw [draw_eq_paint, pixel?_paint]
  simp only [Shape.mem_pixels]

/-- Memories are told apart by their physical pixels and by what drawing leaves alone. -/
theorem eq_of_pixels {m m' : Memory} (mode : m.mode = m'.mode) (shown : m.shown = m'.shown)
    (updates : m.updates = m'.updates)
    (pixels : ∀ i (inside : i < width * height), m.pixels[i] = m'.pixels[i]) : m = m' := by
  obtain ⟨_, pixels₁, _, _⟩ := m
  obtain ⟨_, pixels₂, _, _⟩ := m'
  obtain rfl : pixels₁ = pixels₂ := Vector.ext pixels
  cases mode
  cases shown
  cases updates
  rfl

theorem draw_draw : (m.draw s).draw s = m.draw s := by
  obtain ⟨mode, shown, updates⟩ := (m.draw s).draw_keeps s
  apply eq_of_pixels mode shown updates
  intro i inside
  rw [getElem_draw _ _ inside, (m.draw_keeps s).1, getElem_draw _ _ inside]
  split <;> rfl

theorem draw_comm {s t : Stroke} (same : s.index = t.index) :
    (m.draw s).draw t = (m.draw t).draw s := by
  obtain ⟨mode₁, shown₁, updates₁⟩ := m.draw_keeps s
  obtain ⟨mode₂, shown₂, updates₂⟩ := m.draw_keeps t
  obtain ⟨mode₁', shown₁', updates₁'⟩ := (m.draw s).draw_keeps t
  obtain ⟨mode₂', shown₂', updates₂'⟩ := (m.draw t).draw_keeps s
  apply eq_of_pixels
  · rw [mode₁', mode₁, mode₂', mode₂]
  · rw [shown₁', shown₁, shown₂', shown₂]
  · rw [updates₁', updates₁, updates₂', updates₂]
  · intro i inside
    rw [getElem_draw _ _ inside, getElem_draw _ _ inside, getElem_draw _ _ inside,
      getElem_draw _ _ inside, mode₁, mode₂, same]
    split <;> split <;> rfl

/-! ### Many strokes -/

theorem drawAll_keeps (strokes : List Stroke) :
    (m.drawAll strokes).mode = m.mode ∧ (m.drawAll strokes).shown = m.shown ∧
      (m.drawAll strokes).updates = m.updates := by
  unfold drawAll
  induction strokes generalizing m with
  | nil => exact ⟨rfl, rfl, rfl⟩
  | cons s strokes ih =>
    obtain ⟨mode, shown, updates⟩ := m.draw_keeps s
    obtain ⟨mode', shown', updates'⟩ := ih (m.draw s)
    exact ⟨mode'.trans mode, shown'.trans shown, updates'.trans updates⟩

/-- Strokes that do not reach a pixel leave it as it is. -/
theorem pixel?_drawAll {strokes : List Stroke} {p : Point}
    (missed : ∀ s ∈ strokes, p ∉ s.shape.pixels m.mode) : (m.drawAll strokes).pixel? p = m.pixel? p := by
  unfold drawAll
  induction strokes generalizing m with
  | nil => rfl
  | cons s strokes ih =>
    have later : ∀ t ∈ strokes, p ∉ t.shape.pixels (m.draw s).mode := by
      intro t member
      rw [(m.draw_keeps s).1]
      exact missed t (List.mem_cons_of_mem s member)
    rw [List.foldl_cons, ih (m.draw s) later, pixel?_draw, if_neg (missed s List.mem_cons_self)]

theorem drawAll_append (before after : List Stroke) :
    m.drawAll (before ++ after) = (m.drawAll before).drawAll after := List.foldl_append

theorem pixel?_last {before after : List Stroke} {s : Stroke} {p : Point}
    (reached : p ∈ s.shape.pixels m.mode) (missed : ∀ t ∈ after, p ∉ t.shape.pixels m.mode) :
    (m.drawAll (before ++ s :: after)).pixel? p = some s.index := by
  have mode := (m.drawAll_keeps before).1
  have drawn := ((m.drawAll before).draw_keeps s).1.trans mode
  rw [drawAll_append]
  change (((m.drawAll before).draw s).drawAll after).pixel? p = some s.index
  rw [pixel?_drawAll _ (by rw [drawn]; exact missed), pixel?_draw, mode, if_pos reached]

theorem restart_keeps (fresh : Option Mode) :
    (m.restart fresh).shown = m.shown ∧ (m.restart fresh).updates = m.updates := by
  cases fresh <;> exact ⟨rfl, rfl⟩

theorem pixel?_restart (fresh : Option Mode) {p : Point} (onCanvas : (m.restart fresh).mode.OnCanvas p) :
    (m.restart fresh).pixel? p = some background := by
  have blank : (m.restart fresh).pixels = Picture.blank := by cases fresh <;> rfl
  rw [pixel?, if_pos onCanvas, Vector.getElem?_eq_getElem (Mode.offset_lt onCanvas)]
  simp [blank, Picture.blank]

end Memory

/-- What strokes make of the canvas of `start`, which is blank. -/
structure LastWriterWins (start : Memory) (strokes : List Stroke) (last : Memory) : Prop where
  mode : last.mode = start.mode
  frame : last.frame = start.frame
  updates : last.updates = start.updates
  /-- A pixel has the color of the last stroke that reaches it. -/
  written : ∀ p before s after, strokes = before ++ s :: after → p ∈ s.shape.pixels start.mode →
    (∀ t ∈ after, p ∉ t.shape.pixels start.mode) → last.pixel? p = some s.index
  /-- A pixel that no stroke reaches has the color of the background. -/
  blank : ∀ p, start.mode.OnCanvas p → (∀ s ∈ strokes, p ∉ s.shape.pixels start.mode) →
    last.pixel? p = some background

/-- What a stroke does to any canvas. -/
structure Draws (m : Memory) (s : Stroke) : Prop where
  onCanvas : ∀ p ∈ s.shape.pixels m.mode, m.mode.OnCanvas p
  colors : ∀ p, (m.draw s).pixel? p = if p ∈ s.shape.pixels m.mode then some s.index else m.pixel? p
  index : s.index.val = (BitVec.ofInt 64 s.color &&& 15#64).toNat
  twice : (m.draw s).draw s = m.draw s
  commutes : ∀ t : Stroke, s.index = t.index → (m.draw s).draw t = (m.draw t).draw s

/-- A stroke colors pixels that only its shape and the mode decide, and after a clear or a change of
the mode every pixel shows the last stroke that reaches it. -/
theorem last_writer_wins (m : Memory) (fresh : Option Mode) (strokes : List Stroke) :
    (m.restart fresh).frame = m.frame ∧ (m.restart fresh).updates = m.updates ∧
    LastWriterWins (m.restart fresh) strokes ((m.restart fresh).drawAll strokes) ∧
    ∀ (now : Memory) (s : Stroke), Draws now s := by
  obtain ⟨mode, shown, updates⟩ := (m.restart fresh).drawAll_keeps strokes
  obtain ⟨shown', updates'⟩ := m.restart_keeps fresh
  refine ⟨?_, updates', ⟨mode, ?_, updates, ?_, ?_⟩, fun now s => ?_⟩
  · rw [Memory.frame, Memory.frame, shown']
  · rw [Memory.frame, Memory.frame, shown]
  · rintro p before s after rfl reached missed
    exact Memory.pixel?_last _ reached missed
  · intro p onCanvas missed
    rw [Memory.pixel?_drawAll _ missed]
    exact m.pixel?_restart fresh onCanvas
  · exact ⟨fun p reached => (Shape.mem_pixels.mp reached).2, now.pixel?_draw s, ofInt_val s.color,
      now.draw_draw s, fun t same => now.draw_comm same⟩

/-- A line with a point on it, and a point off the canvas. -/
def crossed : List Stroke := [⟨.line ⟨0, 0⟩ ⟨4, 2⟩, 19⟩, ⟨.point ⟨2, 1⟩, -11⟩, ⟨.point ⟨160, 1⟩, 7⟩]

theorem last_writer_wins_crossed :
    let last := (({} : Memory).fillCircle ⟨0, 0⟩ 9 1).setMode .multiColor |>.drawAll crossed
    last.pixel? ⟨4, 2⟩ = some 3 ∧ last.pixel? ⟨2, 1⟩ = some 5 ∧ last.pixel? ⟨3, 0⟩ = some background := by
  obtain ⟨_, _, wins, _⟩ :=
    last_writer_wins (({} : Memory).fillCircle ⟨0, 0⟩ 9 1) (some .multiColor) crossed
  refine ⟨?_, ?_, ?_⟩
  · exact wins.written _ [] _ _ rfl (by decide) (by decide)
  · exact wins.written _ [_] _ _ rfl (by decide) (by decide)
  · exact wins.blank _ (by decide) (by decide)

end RetroScript.Video
