import RetroScript.Proofs.LinePixels
import RetroScript.Proofs.NumberValue
import RetroScript.Proofs.VideoMemory

/-!
# Clipping lines

Ends of a line may be anywhere, and what a cut gives is rounded. Still an end on the canvas stays where it
is and every result is on the canvas, since no step moves an end that lies inside and the last one snaps.
No cut divides by zero: ends with the same coordinate lie outside on the same side or not at all.
`line_safe` adds what follows for drawing.
-/

namespace RetroScript.Video

/-! ### Ends that stay -/

theorem Sides.share_of_isInside {s t : Sides} (inside : s.isInside = true) :
    s.share t = false ∧ t.share s = false := by
  obtain ⟨left, right, low, high⟩ := s
  simp only [isInside, Bool.not_eq_true', Bool.or_eq_false_iff] at inside
  simp [share, inside]

namespace Bounds

variable {b : Bounds} {p q : Spot}

theorem clip_of_inside_left (inside : (b.sides p).isInside = true) (n : Nat) (q : Spot) :
    ∃ q', b.clip n p q = some (p, q') := by
  induction n generalizing q with
  | zero => exact ⟨q, rfl⟩
  | succ n ih =>
    rw [clip, inside, (Sides.share_of_isInside inside).1]
    cases (b.sides q).isInside with
    | true => exact ⟨q, rfl⟩
    | false => exact ih _

theorem clip_of_inside_right (inside : (b.sides q).isInside = true) (n : Nat) (p : Spot) :
    ∃ p', b.clip n p q = some (p', q) := by
  induction n generalizing p with
  | zero => exact ⟨p, rfl⟩
  | succ n ih =>
    rw [clip, inside, (Sides.share_of_isInside inside).2]
    cases (b.sides p).isInside with
    | true => exact ⟨p, rfl⟩
    | false => exact ih _

end Bounds

/-! ### Ends as spots -/

def Point.spot (p : Point) : Spot := ⟨Float.ofInt p.x, Float.ofInt p.y⟩

theorem Mode.columns_le (m : Mode) : 0 < m.columns ∧ m.columns ≤ 320 := by
  cases m <;> decide

theorem Mode.sides_spot (m : Mode) (p : Point) : m.bounds.sides p.spot =
    ⟨decide (p.x < 0), decide (m.columns ≤ p.x), decide (p.y < 0), decide ((height : Int) ≤ p.y)⟩ := by
  have zero : (0 : Float) = Float.ofInt 0 := rfl
  have negative : ∀ n : Int, Float.ofInt n < 0 ↔ n < 0 := fun n => by
    rw [zero, Number.ofInt_lt_ofInt (Or.inr (by decide))]
  have beyond : ∀ (k : Nat) (n : Int), 0 < k → k ≤ 320 → (Float.ofNat (k - 1) < Float.ofInt n ↔ (k : Int) ≤ n) := by
    intro k n pos small
    have cast : Float.ofNat (k - 1) = Float.ofInt ((k - 1 : Nat) : Int) := rfl
    rw [cast, Number.ofInt_lt_ofInt (Or.inl (by omega))]
    omega
  have columns := m.columns_le
  have outside : ∀ (k : Nat) (n : Int), 0 < k → (!decide (n < 0) && decide ((k : Int) ≤ n)) = decide ((k : Int) ≤ n) := by
    intro k n pos
    rw [Bool.eq_iff_iff]
    simp
    omega
  simp only [Bounds.sides, Mode.bounds, Point.spot, negative, beyond _ _ columns.1 columns.2,
    beyond height _ (by decide) (by decide), outside _ _ columns.1, outside height _ (by decide)]

theorem Mode.isInside_spot (m : Mode) (p : Point) : (m.bounds.sides p.spot).isInside = true ↔ m.OnCanvas p := by
  rw [sides_spot]
  simp only [Sides.isInside, OnCanvas, Bool.not_eq_true', Bool.or_eq_false_iff, decide_eq_false_iff_not]
  omega

theorem Mode.onCanvas_snap (m : Mode) (s : Spot) : m.OnCanvas (m.snap s) := by
  have columns := m.columns_le
  have rows : height = 200 := rfl
  unfold OnCanvas snap
  dsimp only
  omega

theorem Mode.snap_spot {m : Mode} {p : Point} (onCanvas : m.OnCanvas p) : m.snap p.spot = p := by
  have columns := m.columns_le
  have rows : height = 200 := rfl
  obtain ⟨x, y⟩ := p
  unfold OnCanvas at onCanvas
  dsimp only at onCanvas
  unfold snap Point.spot
  dsimp only
  rw [Number.round_ofInt (by omega), Number.round_ofInt (by omega), Point.mk.injEq]
  omega

/-! ### The visible part -/

/-- Both points lie beyond one edge. -/
def Mode.Beyond (m : Mode) (a b : Point) : Prop :=
  a.x < 0 ∧ b.x < 0 ∨ m.columns ≤ a.x ∧ m.columns ≤ b.x ∨ a.y < 0 ∧ b.y < 0 ∨ height ≤ a.y ∧ height ≤ b.y

section

variable {m : Mode} {a b p q : Point}

theorem Mode.clipLine_eq (apart : ¬ (m.OnCanvas a ∧ m.OnCanvas b)) :
    m.clipLine a b = (m.bounds.clip 8 a.spot b.spot).map fun e => (m.snap e.1, m.snap e.2) := by
  unfold clipLine
  rw [if_neg apart]
  rfl

theorem Mode.onCanvas_clipLine (clipped : m.clipLine a b = some (p, q)) : m.OnCanvas p ∧ m.OnCanvas q := by
  by_cases both : m.OnCanvas a ∧ m.OnCanvas b
  · rw [clipLine, if_pos both] at clipped
    cases clipped
    exact both
  · rw [clipLine_eq both, Option.map_eq_some_iff] at clipped
    obtain ⟨e, -, same⟩ := clipped
    cases same
    exact ⟨m.onCanvas_snap e.1, m.onCanvas_snap e.2⟩

theorem Mode.clipLine_left (onCanvas : m.OnCanvas a) (b : Point) : ∃ q, m.clipLine a b = some (a, q) := by
  by_cases both : m.OnCanvas a ∧ m.OnCanvas b
  · exact ⟨b, by rw [clipLine, if_pos both]⟩
  · obtain ⟨q, clipped⟩ := Bounds.clip_of_inside_left ((m.isInside_spot a).mpr onCanvas) 8 b.spot
    exact ⟨m.snap q, by rw [clipLine_eq both, clipped, Option.map_some, snap_spot onCanvas]⟩

theorem Mode.clipLine_right (onCanvas : m.OnCanvas b) (a : Point) : ∃ p, m.clipLine a b = some (p, b) := by
  by_cases both : m.OnCanvas a ∧ m.OnCanvas b
  · exact ⟨a, by rw [clipLine, if_pos both]⟩
  · obtain ⟨p, clipped⟩ := Bounds.clip_of_inside_right ((m.isInside_spot b).mpr onCanvas) 8 a.spot
    exact ⟨m.snap p, by rw [clipLine_eq both, clipped, Option.map_some, snap_spot onCanvas]⟩

theorem Mode.clipLine_beyond (beyond : m.Beyond a b) : m.clipLine a b = none := by
  have off : ¬ (m.OnCanvas a ∧ m.OnCanvas b) := by
    unfold OnCanvas
    unfold Beyond at beyond
    omega
  have outside : (m.bounds.sides a.spot).isInside = false := by
    rw [Bool.eq_false_iff, ne_eq, m.isInside_spot]
    unfold OnCanvas
    unfold Beyond at beyond
    omega
  have shared : (m.bounds.sides a.spot).share (m.bounds.sides b.spot) = true := by
    rw [sides_spot, sides_spot]
    simp only [Sides.share, Bool.or_eq_true, Bool.and_eq_true, decide_eq_true_eq]
    unfold Beyond at beyond
    omega
  rw [clipLine_eq off, Bounds.clip, outside, shared]
  rfl

end

/-! ### Divisors -/

/-- A quotient; none if the divisor is zero. -/
def quotient? (x d : Float) : Option Float := if d == 0 then none else some (x / d)

namespace Bounds

/-- `cut`, where a divisor that is zero is a failure. -/
def cut? (b : Bounds) (s : Sides) (p q : Spot) : Option Spot :=
  let dx := q.x - p.x
  let dy := q.y - p.y
  if s.high then (quotient? (dx * (b.y - p.y)) dy).map fun t => ⟨p.x + t, b.y⟩
  else if s.low then (quotient? (dx * (0 - p.y)) dy).map fun t => ⟨p.x + t, 0⟩
  else if s.right then (quotient? (dy * (b.x - p.x)) dx).map fun t => ⟨b.x, p.y + t⟩
  else (quotient? (dy * (0 - p.x)) dx).map fun t => ⟨0, p.y + t⟩

def clip? (b : Bounds) : Nat → Spot → Spot → Option (Option (Spot × Spot))
  | 0, p, q => some (some (p, q))
  | n + 1, p, q =>
    let sp := b.sides p
    let sq := b.sides q
    if sp.isInside && sq.isInside then some (some (p, q))
    else if sp.share sq then some none
    else if sp.isInside then (b.cut? sq p q).bind (b.clip? n p ·)
    else (b.cut? sp p q).bind (b.clip? n · q)

variable {b : Bounds} {p q : Spot}

theorem quotient?_eq {d : Float} (x : Float) (nonzero : (d == 0) = false) : quotient? x d = some (x / d) := by
  rw [quotient?, nonzero]
  rfl

/-- Two numbers whose difference is zero lie on the same side of any number. -/
theorem lt_iff_of_sub {x y : Float} (zero : (x - y == 0) = true) (c : Float) : (x < c ↔ y < c) ∧ (c < x ↔ c < y) := by
  have isZero : (Number.read (x - y)).IsZero := by
    rcases (Number.beq_iff _ _).mp zero with ⟨-, same | both⟩
    · rw [same]
      rfl
    · exact both.1
  obtain ⟨number, number', same⟩ := Number.sub_isZero isZero
  simp only [Number.lt_iff, number, number', same, ne_eq, not_false_eq_true, true_and, and_self]

theorem sides_of_dx {b : Bounds} {p q : Spot} (zero : (q.x - p.x == 0) = true) :
    (b.sides p).left = (b.sides q).left ∧ (b.sides p).right = (b.sides q).right := by
  simp [sides, lt_iff_of_sub zero]

theorem sides_of_dy {b : Bounds} {p q : Spot} (zero : (q.y - p.y == 0) = true) :
    (b.sides p).low = (b.sides q).low ∧ (b.sides p).high = (b.sides q).high := by
  simp [sides, lt_iff_of_sub zero]

/-- The end that is moved lies outside on a side where the other one does not, so the two differ in the
coordinate that decides it. -/
theorem cut?_eq {s : Sides} (apart : (b.sides p).share (b.sides q) = false) (chosen : s = b.sides p ∨ s = b.sides q)
    (outside : s.isInside = false) : b.cut? s p q = some (b.cut s p q) := by
  simp only [Sides.share, Bool.or_eq_false_iff] at apart
  obtain ⟨⟨⟨left, right⟩, low⟩, high⟩ := apart
  have dx : s.right = true ∨ s.left = true → (q.x - p.x == 0) = false := by
    intro side
    rw [Bool.eq_false_iff]
    intro zero
    obtain ⟨sameLeft, sameRight⟩ := sides_of_dx (b := b) zero
    rw [sameLeft, Bool.and_self] at left
    rw [sameRight, Bool.and_self] at right
    rcases chosen with rfl | rfl <;> simp_all
  have dy : s.high = true ∨ s.low = true → (q.y - p.y == 0) = false := by
    intro side
    rw [Bool.eq_false_iff]
    intro zero
    obtain ⟨sameLow, sameHigh⟩ := sides_of_dy (b := b) zero
    rw [sameLow, Bool.and_self] at low
    rw [sameHigh, Bool.and_self] at high
    rcases chosen with rfl | rfl <;> simp_all
  unfold cut? cut
  by_cases isHigh : s.high = true
  · simp only [if_pos isHigh, quotient?_eq _ (dy (Or.inl isHigh)), Option.map_some]
  by_cases isLow : s.low = true
  · simp only [if_neg isHigh, if_pos isLow, quotient?_eq _ (dy (Or.inr isLow)), Option.map_some]
  by_cases isRight : s.right = true
  · simp only [if_neg isHigh, if_neg isLow, if_pos isRight, quotient?_eq _ (dx (Or.inl isRight)), Option.map_some]
  · have isLeft : s.left = true := by
      simp only [Sides.isInside, Bool.not_eq_false', Bool.or_eq_true] at outside
      simpa [isHigh, isLow, isRight] using outside
    simp only [if_neg isHigh, if_neg isLow, if_neg isRight, quotient?_eq _ (dx (Or.inr isLeft)), Option.map_some]

/-- No pass divides by zero, wherever the ends are. -/
theorem clip?_eq (b : Bounds) (n : Nat) (p q : Spot) : b.clip? n p q = some (b.clip n p q) := by
  induction n generalizing p q with
  | zero => rfl
  | succ n ih =>
    rw [clip?, clip]
    by_cases both : ((b.sides p).isInside && (b.sides q).isInside) = true
    · simp only [if_pos both]
    by_cases shared : (b.sides p).share (b.sides q) = true
    · simp only [if_neg both, if_pos shared]
    have apart : (b.sides p).share (b.sides q) = false := Bool.eq_false_iff.mpr shared
    by_cases first : (b.sides p).isInside = true
    · have second : (b.sides q).isInside = false := by simpa [first] using both
      simp only [if_neg both, if_neg shared, if_pos first, cut?_eq apart (Or.inr rfl) second, Option.bind_some, ih]
    · simp only [if_neg both, if_neg shared, if_neg first,
        cut?_eq apart (Or.inl rfl) (Bool.eq_false_iff.mpr first), Option.bind_some, ih]

end Bounds

/-! ### Words -/

/-- A number as a word; none if it is out of range. -/
def word? (n : Int) : Option Int := if Number.minWord ≤ n ∧ n ≤ Number.maxWord then some n else none

/-- `n + k` if `c` holds, else `n`. -/
def addIf? (c : Prop) [Decidable c] (n k : Int) : Option Int := if c then word? (n + k) else some n

namespace Slope

/-- `between`, `start` and `advance`, where every result of arithmetic has to be a word. -/
def between? (a b : Point) : Option Slope := do
  let dx ← word? (b.x - a.x)
  let dx ← word? dx.natAbs
  let dy ← word? (b.y - a.y)
  let dy ← word? dy.natAbs
  let dy ← word? (-dy)
  return { dx, dy, sx := if a.x < b.x then 1 else -1, sy := if a.y < b.y then 1 else -1 }

def start? (s : Slope) (a : Point) : Option Pen := return ⟨a, ← word? (s.dx + s.dy)⟩

def advance? (s : Slope) (pen : Pen) : Option Pen := do
  let twice ← word? (2 * pen.err)
  let err ← addIf? (s.dy ≤ twice) pen.err s.dy
  let x ← addIf? (s.dy ≤ twice) pen.point.x s.sx
  let err ← addIf? (twice ≤ s.dx) err s.dx
  let y ← addIf? (twice ≤ s.dx) pen.point.y s.sy
  return ⟨⟨x, y⟩, err⟩

end Slope

def walk? (s : Slope) (target : Point) : Nat → Pen → Option (List Point)
  | 0, pen => some [pen.point]
  | n + 1, pen =>
    if pen.point = target then some [pen.point]
    else (s.advance? pen).bind fun next => (walk? s target n next).map (pen.point :: ·)

def segment? (a b : Point) : Option (List Point) := do
  let s ← Slope.between? a b
  let pen ← s.start? a
  walk? s b (s.dx - s.dy).toNat pen

def Mode.clipLine? (m : Mode) (a b : Point) : Option (Option (Point × Point)) :=
  if m.OnCanvas a ∧ m.OnCanvas b then some (some (a, b))
  else (m.bounds.clip? 8 a.spot b.spot).map (Option.map fun e => (m.snap e.1, m.snap e.2))

/-- `drawLine`, where every divisor, word and index is checked. -/
def Memory.drawLine? (m : Memory) (a b : Point) (c : Color) : Option Memory := do
  match ← m.mode.clipLine? a b with
  | some (p, q) => (← segment? p q).foldlM (setPixel? c) m
  | none => some m

theorem word?_eq {n : Int} (small : n.natAbs ≤ 4000000) : word? n = some n := by
  unfold word? Number.minWord Number.maxWord
  rw [if_pos (by omega)]

theorem addIf?_eq {c : Prop} [Decidable c] {n k : Int} (small : n.natAbs ≤ 2000000) (small' : k.natAbs ≤ 2000000) :
    addIf? c n k = some (if c then n + k else n) := by
  unfold addIf?
  rw [word?_eq (by omega)]
  split <;> rfl

theorem Slope.advance?_eq {s : Slope} {pen : Pen} (err : pen.err.natAbs ≤ 1000000) (x : pen.point.x.natAbs ≤ 1000000)
    (y : pen.point.y.natAbs ≤ 1000000) (dx : s.dx.natAbs ≤ 1000000) (dy : s.dy.natAbs ≤ 1000000)
    (sx : s.sx.natAbs ≤ 1) (sy : s.sy.natAbs ≤ 1) : s.advance? pen = some (s.advance pen) := by
  have moved : (if s.dy ≤ 2 * pen.err then pen.err + s.dy else pen.err).natAbs ≤ 2000000 := by
    split <;> omega
  have added : ∀ n : Int, (if 2 * pen.err ≤ s.dx then n + s.dx else n) = n + if 2 * pen.err ≤ s.dx then s.dx else 0 := by
    intro n
    split <;> omega
  unfold advance? advance
  simp only [Option.bind_eq_bind]
  rw [word?_eq (by omega), Option.bind_some, addIf?_eq (by omega) (by omega), Option.bind_some,
    addIf?_eq (by omega) (by omega), Option.bind_some, addIf?_eq moved (by omega), Option.bind_some,
    addIf?_eq (by omega) (by omega), Option.bind_some, added]
  rfl

section

variable {m : Mode} {a b : Point}

theorem Mode.extents_lt (onA : m.OnCanvas a) (onB : m.OnCanvas b) :
    xExtent a b < m.columns ∧ yExtent a b < height := by
  unfold OnCanvas at onA onB
  unfold xExtent yExtent
  omega

theorem Mode.lineSteps_lt (onA : m.OnCanvas a) (onB : m.OnCanvas b) : lineSteps a b < max m.columns height := by
  obtain ⟨wide, tall⟩ := extents_lt onA onB
  unfold lineSteps
  omega

theorem advance?_linePen (onA : m.OnCanvas a) (onB : m.OnCanvas b) {n : Nat} (before : n < lineSteps a b) :
    (Slope.between a b).advance? (linePen a b n) = some (linePen a b (n + 1)) := by
  have columns := m.columns_le
  have rows : height = 200 := rfl
  obtain ⟨wide, tall⟩ := Mode.extents_lt onA onB
  obtain ⟨x, x', y, y'⟩ := Mode.onCanvas_linePixel onA onB (Nat.le_of_lt before)
  have i := movesIn_le (xExtent a b) (Nat.le_of_lt before)
  have j := movesIn_le (yExtent a b) (Nat.le_of_lt before)
  have dx : (Slope.between a b).dx = xExtent a b := rfl
  have dy : (Slope.between a b).dy = -(yExtent a b : Int) := rfl
  have sx : (Slope.between a b).sx = 1 ∨ (Slope.between a b).sx = -1 := sign_cases a.x b.x
  have sy : (Slope.between a b).sy = 1 ∨ (Slope.between a b).sy = -1 := sign_cases a.y b.y
  have err : (linePen a b n).err.natAbs ≤ 1000000 := by
    have parts : (linePen a b n).err =
        ((movesIn (yExtent a b) (lineSteps a b) n + 1) * xExtent a b : Nat) -
          ((movesIn (xExtent a b) (lineSteps a b) n + 1) * yExtent a b : Nat) := by
      simp only [linePen, Slope.penAt, dx, dy]
      push_cast
      ring
    have first := Nat.mul_le_mul (show movesIn (yExtent a b) (lineSteps a b) n + 1 ≤ 320 by omega)
      (show xExtent a b ≤ 320 by omega)
    have second := Nat.mul_le_mul (show movesIn (xExtent a b) (lineSteps a b) n + 1 ≤ 320 by omega)
      (show yExtent a b ≤ 320 by omega)
    omega
  rw [Slope.advance?_eq err (by rw [point_linePen]; omega) (by rw [point_linePen]; omega) (by omega) (by omega)
    (by omega) (by omega), advance_linePen (by omega)]

/-- The loop stays within words as long as it runs. -/
theorem walk?_linePen (onA : m.OnCanvas a) (onB : m.OnCanvas b) (bound : Nat) {n : Nat} (inside : n ≤ lineSteps a b) :
    walk? (Slope.between a b) b bound (linePen a b n) = some (walk (Slope.between a b) b bound (linePen a b n)) := by
  induction bound generalizing n with
  | zero => rfl
  | succ bound ih =>
    rw [walk?, walk, point_linePen]
    by_cases last : n = lineSteps a b
    · have arrived : linePixel a b n = b := by rw [last, linePixel_lineSteps]
      rw [if_pos arrived, if_pos arrived]
    · have before : n < lineSteps a b := by omega
      rw [if_neg (linePixel_ne before), if_neg (linePixel_ne before), advance?_linePen onA onB before,
        advance_linePen (by omega), Option.bind_some, ih (by omega), Option.map_some]

theorem segment?_eq (onA : m.OnCanvas a) (onB : m.OnCanvas b) : segment? a b = some (segment a b) := by
  have columns := m.columns_le
  have rows : height = 200 := rfl
  have between : Slope.between? a b = some (Slope.between a b) := by
    unfold Mode.OnCanvas at onA onB
    unfold Slope.between?
    simp only [Option.bind_eq_bind]
    rw [word?_eq (by omega), Option.bind_some, word?_eq (by omega), Option.bind_some, word?_eq (by omega),
      Option.bind_some, word?_eq (by omega), Option.bind_some, word?_eq (by omega), Option.bind_some]
    rfl
  have start : (Slope.between a b).start? a = some ((Slope.between a b).start a) := by
    obtain ⟨wide, tall⟩ := Mode.extents_lt onA onB
    have dx : (Slope.between a b).dx = xExtent a b := rfl
    have dy : (Slope.between a b).dy = -(yExtent a b : Int) := rfl
    unfold Slope.start?
    rw [word?_eq (by omega)]
    rfl
  have walked := walk?_linePen onA onB ((Slope.between a b).dx - (Slope.between a b).dy).toNat
    (Nat.zero_le (lineSteps a b))
  rw [linePen_zero] at walked
  unfold segment?
  simp only [Option.bind_eq_bind]
  rw [between, Option.bind_some, start, Option.bind_some]
  exact walked

theorem Mode.length_linePoints (m : Mode) (a b : Point) : (m.linePoints a b).length ≤ max m.columns height := by
  unfold linePoints
  split
  · next p q clipped =>
    obtain ⟨onP, onQ⟩ := onCanvas_clipLine clipped
    rw [segment_eq, List.length_map, List.length_range]
    exact lineSteps_lt onP onQ
  · exact Nat.zero_le _

theorem Mode.clipLine?_eq (m : Mode) (a b : Point) : m.clipLine? a b = some (m.clipLine a b) := by
  unfold clipLine?
  by_cases both : m.OnCanvas a ∧ m.OnCanvas b
  · rw [if_pos both, clipLine, if_pos both]
  · rw [if_neg both, Bounds.clip?_eq, clipLine_eq both, Option.map_some]

end

/-! ### Drawing -/

namespace Memory

variable (m : Memory) (a b : Point) (c : Color)

theorem drawLine?_eq : m.drawLine? a b c = some (m.drawLine a b c) := by
  unfold drawLine? drawLine Mode.linePoints
  rw [Mode.clipLine?_eq]
  simp only [Option.bind_eq_bind, Option.bind_some]
  cases clipped : m.mode.clipLine a b with
  | none => rfl
  | some ends =>
    obtain ⟨onP, onQ⟩ := Mode.onCanvas_clipLine clipped
    dsimp only
    rw [segment?_eq onP onQ, Option.bind_some, foldlM_setPixel?]

theorem pixel?_drawLine {p : Point} (onCanvas : m.mode.OnCanvas p) (member : p ∈ m.mode.linePoints a b) :
    (m.drawLine a b c).pixel? p = some c := by
  rw [drawLine, pixel?_paint, if_pos ⟨member, onCanvas⟩]

end Memory

/-- What holds for a line, wherever its ends are. -/
structure LineSafe (m : Memory) (a b : Point) (c : Color) : Prop where
  onCanvas : ∀ p q, m.mode.clipLine a b = some (p, q) → m.mode.OnCanvas p ∧ m.mode.OnCanvas q
  keepsFirst : m.mode.OnCanvas a → ∃ q, m.mode.clipLine a b = some (a, q)
  keepsSecond : m.mode.OnCanvas b → ∃ p, m.mode.clipLine a b = some (p, b)
  beyond : m.mode.Beyond a b → m.mode.clipLine a b = none
  /-- No pass divides by zero, from whatever spots it starts. -/
  divides : ∀ n p q, m.mode.bounds.clip? n p q = some (m.mode.bounds.clip n p q)
  /-- The loop comes to the end of what is left, by itself. -/
  ends : ∀ p q, m.mode.clipLine a b = some (p, q) → ∃ n < max m.mode.columns height,
    ((Slope.between p q).advance^[n] ((Slope.between p q).start p)).point = q ∧
      (m.mode.linePoints a b).length = n + 1 ∧
      ∀ bound, n ≤ bound → walk (Slope.between p q) q bound ((Slope.between p q).start p) = m.mode.linePoints a b
  writes : (m.mode.linePoints a b).length ≤ max m.mode.columns height
  /-- Nothing overflows, and no index is outside. -/
  checked : m.drawLine? a b c = some (m.drawLine a b c)
  nothing : m.mode.Beyond a b → m.drawLine a b c = m
  firstVisible : m.mode.OnCanvas a → (m.drawLine a b c).pixel? a = some c
  secondVisible : m.mode.OnCanvas b → (m.drawLine a b c).pixel? b = some c

theorem Mode.linePoints_of_clipLine {m : Mode} {a b p q : Point} (clipped : m.clipLine a b = some (p, q)) :
    m.linePoints a b = segment p q := by
  rw [linePoints, clipped]

/-- For all coordinates and in every mode. -/
theorem line_safe (m : Memory) (a b : Point) (c : Color) : LineSafe m a b c := by
  constructor
  case onCanvas => exact fun p q => Mode.onCanvas_clipLine
  case keepsFirst => exact fun onCanvas => Mode.clipLine_left onCanvas b
  case keepsSecond => exact fun onCanvas => Mode.clipLine_right onCanvas a
  case beyond => exact Mode.clipLine_beyond
  case divides => exact m.mode.bounds.clip?_eq
  case ends =>
    intro p q clipped
    obtain ⟨onP, onQ⟩ := Mode.onCanvas_clipLine clipped
    rw [Mode.linePoints_of_clipLine clipped]
    refine ⟨lineSteps p q, Mode.lineSteps_lt onP onQ, ?_, ?_, ?_⟩
    · rw [iterate_advance (Nat.le_refl _)]
      exact linePixel_lineSteps p q
    · rw [segment_eq, List.length_map, List.length_range]
    · intro bound enough
      rw [walk_start enough, segment_eq]
  case writes => exact m.mode.length_linePoints a b
  case checked => exact m.drawLine?_eq a b c
  case nothing =>
    intro beyond
    rw [Memory.drawLine, Mode.linePoints, Mode.clipLine_beyond beyond]
    rfl
  case firstVisible =>
    intro onCanvas
    obtain ⟨q, clipped⟩ := Mode.clipLine_left onCanvas b
    apply m.pixel?_drawLine a b c onCanvas
    rw [Mode.linePoints_of_clipLine clipped]
    exact left_mem_segment a q
  case secondVisible =>
    intro onCanvas
    obtain ⟨p, clipped⟩ := Mode.clipLine_right onCanvas a
    apply m.pixel?_drawLine a b c onCanvas
    rw [Mode.linePoints_of_clipLine clipped]
    exact right_mem_segment p b

end RetroScript.Video
