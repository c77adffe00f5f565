import Mathlib.Algebra.Order.Field.Basic
import Mathlib.Algebra.Order.Field.Rat
import Mathlib.Algebra.Order.Ring.Abs
import Mathlib.Data.List.Range
import Mathlib.Logic.Function.Iterate
import Mathlib.Tactic.FieldSimp
import Mathlib.Tactic.Linarith
import Mathlib.Tactic.Positivity
import Mathlib.Tactic.Ring
import RetroScript.Proofs.Canvas

/-!
# The pixels of a line

The loop that draws a line stops only when it hits the end, and only its error term keeps it from missing
it. This term follows from the moves made so far (`Slope.penAt`), and the moves are those of a rounded division.
So the `n`-th pixel is known in advance, in every direction: `line_pixels`.
-/

namespace RetroScript.Video

/-! ### Rounded division -/

/-- Of `extent` moves in `total` steps, those made in the first `n` steps: the nearest number, and a half
counts. -/
def movesIn (extent total n : Nat) : Nat := (2 * extent * n + total) / (2 * total)

section

variable {extent total : Nat}

theorem movesIn_zero (extent total : Nat) : movesIn extent total 0 = 0 := by
  unfold movesIn
  rw [Nat.mul_zero, Nat.zero_add]
  rcases Nat.eq_zero_or_pos total with rfl | pos
  · rfl
  · exact Nat.div_eq_of_lt (by omega)

theorem movesIn_bounds (extent : Nat) (pos : 0 < total) (n : Nat) :
    2 * (total * movesIn extent total n) ≤ 2 * (extent * n) + total ∧
      2 * (extent * n) + total < 2 * (total * movesIn extent total n) + 2 * total := by
  have parts := Nat.div_add_mod (2 * extent * n + total) (2 * total)
  have rest := Nat.mod_lt (2 * extent * n + total) (show 0 < 2 * total by omega)
  rw [Nat.mul_assoc 2 extent n] at parts rest
  rw [Nat.mul_assoc 2 total] at parts
  unfold movesIn
  rw [Nat.mul_assoc 2 extent n]
  omega

theorem eq_movesIn {k n : Nat} (low : 2 * (total * k) ≤ 2 * (extent * n) + total)
    (high : 2 * (extent * n) + total < 2 * (total * k) + 2 * total) : movesIn extent total n = k := by
  unfold movesIn
  apply Nat.div_eq_of_lt_le
  · rw [show k * (2 * total) = 2 * (total * k) by ring, Nat.mul_assoc]
    exact low
  · rw [show (k + 1) * (2 * total) = 2 * (total * k) + 2 * total by ring, Nat.mul_assoc]
    exact high

theorem movesIn_total (pos : 0 < total) : movesIn extent total total = extent :=
  eq_movesIn (by rw [Nat.mul_comm total]; omega) (by rw [Nat.mul_comm total]; omega)

theorem movesIn_le (extent : Nat) {n : Nat} (inside : n ≤ total) : movesIn extent total n ≤ extent := by
  rcases Nat.eq_zero_or_pos total with rfl | pos
  · obtain rfl : n = 0 := by omega
    rw [movesIn_zero]
    exact Nat.zero_le _
  · calc movesIn extent total n ≤ movesIn extent total total := by
          unfold movesIn
          gcongr
      _ = extent := movesIn_total pos

theorem movesIn_self (pos : 0 < total) (n : Nat) : movesIn total total n = n :=
  eq_movesIn (by omega) (by omega)

theorem movesIn_succ (pos : 0 < total) (le : extent ≤ total) (n : Nat) :
    movesIn extent total (n + 1) = movesIn extent total n +
      if 2 * (total * movesIn extent total n) + total ≤ 2 * (extent * n) + 2 * extent then 1 else 0 := by
  obtain ⟨low, high⟩ := movesIn_bounds extent pos n
  by_cases more : 2 * (total * movesIn extent total n) + total ≤ 2 * (extent * n) + 2 * extent
  · rw [if_pos more]
    apply eq_movesIn
    · rw [Nat.mul_succ, Nat.mul_succ]
      omega
    · rw [Nat.mul_succ, Nat.mul_succ]
      omega
  · rw [if_neg more]
    apply eq_movesIn
    · rw [Nat.mul_succ extent, Nat.add_zero]
      omega
    · rw [Nat.mul_succ extent, Nat.add_zero]
      omega

end

/-! ### The loop -/

/-- The pen after `i` moves to the side and `j` up or down. -/
def Slope.penAt (s : Slope) (a : Point) (i j : Nat) : Pen :=
  ⟨⟨a.x + s.sx * i, a.y + s.sy * j⟩, (j + 1) * s.dx + (i + 1) * s.dy⟩

theorem Slope.start_eq (s : Slope) (a : Point) : s.start a = s.penAt a 0 0 := by
  simp [start, penAt]

theorem Slope.advance_penAt (s : Slope) (a : Point) (i j : Nat) :
    s.advance (s.penAt a i j) =
      s.penAt a (i + if s.dy ≤ 2 * (s.penAt a i j).err then 1 else 0)
        (j + if 2 * (s.penAt a i j).err ≤ s.dx then 1 else 0) := by
  unfold advance
  by_cases sideways : s.dy ≤ 2 * (s.penAt a i j).err <;>
    by_cases upright : 2 * (s.penAt a i j).err ≤ s.dx <;>
    simp only [sideways, upright, if_true, if_false] <;>
    simp only [penAt, Nat.cast_add, Nat.cast_one, Nat.cast_zero, Pen.mk.injEq, Point.mk.injEq] <;>
    refine ⟨⟨?_, ?_⟩, ?_⟩ <;>
    ring

/-- How far a line goes to the side, and up or down. -/
def xExtent (a b : Point) : Nat := (b.x - a.x).natAbs

def yExtent (a b : Point) : Nat := (b.y - a.y).natAbs

/-- The steps of a line. -/
def lineSteps (a b : Point) : Nat := max (xExtent a b) (yExtent a b)

def linePen (a b : Point) (n : Nat) : Pen :=
  (Slope.between a b).penAt a (movesIn (xExtent a b) (lineSteps a b) n) (movesIn (yExtent a b) (lineSteps a b) n)

/-- The `n`-th pixel of a line. -/
def linePixel (a b : Point) (n : Nat) : Point := (linePen a b n).point

theorem point_linePen (a b : Point) (n : Nat) : (linePen a b n).point = linePixel a b n := rfl

variable {a b : Point}

/-- The error term after the moves of `n` steps asks for the next moves of a rounded division. -/
theorem asks_iff {w h total n i j : Nat} (pos : 0 < total) (longest : total = max w h)
    (inX : movesIn w total n = i) (inY : movesIn h total n = j) :
    (-(h : Int) ≤ 2 * ((j + 1) * w + (i + 1) * -h) ↔ 2 * (total * i) + total ≤ 2 * (w * n) + 2 * w) ∧
      (2 * ((j + 1) * w + (i + 1) * -h) ≤ (w : Int) ↔ 2 * (total * j) + total ≤ 2 * (h * n) + 2 * h) := by
  have expanded : ((j : Int) + 1) * w + (i + 1) * -h = w * j + w - h * i - h := by ring
  have boundsX := movesIn_bounds w pos n
  have boundsY := movesIn_bounds h pos n
  rw [inX] at boundsX
  rw [inY] at boundsY
  rw [expanded]
  rcases Nat.le_total h w with flat | steep
  · obtain rfl : total = w := by omega
    obtain rfl : n = i := (movesIn_self pos n).symm.trans inX
    zify at boundsY ⊢
    omega
  · obtain rfl : total = h := by omega
    obtain rfl : n = j := (movesIn_self pos n).symm.trans inY
    zify at boundsX ⊢
    omega

theorem xExtent_le (a b : Point) : xExtent a b ≤ lineSteps a b := Nat.le_max_left ..

theorem yExtent_le (a b : Point) : yExtent a b ≤ lineSteps a b := Nat.le_max_right ..

/-- The step lemma. In the direction of the longer extent every step moves, and in the other one the error
term asks what the division asks. -/
theorem advance_linePen (left : 0 < lineSteps a b) (n : Nat) :
    (Slope.between a b).advance (linePen a b n) = linePen a b (n + 1) := by
  obtain ⟨sideways, upright⟩ := asks_iff (n := n) left rfl rfl rfl
  unfold linePen
  rw [Slope.advance_penAt, movesIn_succ left (xExtent_le a b), movesIn_succ left (yExtent_le a b)]
  congr 2
  · exact if_congr sideways rfl rfl
  · exact if_congr upright rfl rfl

theorem linePen_zero (a b : Point) : linePen a b 0 = (Slope.between a b).start a := by
  unfold linePen
  rw [movesIn_zero, movesIn_zero, Slope.start_eq]

theorem iterate_advance {n : Nat} (inside : n ≤ lineSteps a b) :
    (Slope.between a b).advance^[n] ((Slope.between a b).start a) = linePen a b n := by
  induction n with
  | zero => exact (linePen_zero a b).symm
  | succ n ih => rw [Function.iterate_succ_apply', ih (by omega), advance_linePen (by omega)]

theorem sign_cases (p q : Int) : (if p < q then 1 else -1 : Int) = 1 ∨ (if p < q then 1 else -1 : Int) = -1 := by
  split
  · exact Or.inl rfl
  · exact Or.inr rfl

theorem sign_mul_natAbs (p q : Int) : (if p < q then 1 else -1 : Int) * (q - p).natAbs = q - p := by
  split <;> omega

theorem sx_mul_xExtent (a b : Point) : (Slope.between a b).sx * xExtent a b = b.x - a.x := sign_mul_natAbs a.x b.x

theorem sy_mul_yExtent (a b : Point) : (Slope.between a b).sy * yExtent a b = b.y - a.y := sign_mul_natAbs a.y b.y

theorem linePixel_zero (a b : Point) : linePixel a b 0 = a := by
  simp [linePixel, linePen, Slope.penAt, movesIn_zero]

theorem linePixel_lineSteps (a b : Point) : linePixel a b (lineSteps a b) = b := by
  have all : ∀ extent ≤ lineSteps a b, movesIn extent (lineSteps a b) (lineSteps a b) = extent := by
    intro extent le
    rcases Nat.eq_zero_or_pos (lineSteps a b) with none | pos
    · rw [none, movesIn_zero]
      omega
    · exact movesIn_total pos
  unfold linePixel linePen Slope.penAt
  rw [all _ (xExtent_le a b), all _ (yExtent_le a b)]
  dsimp only
  rw [sx_mul_xExtent, sy_mul_yExtent]
  obtain ⟨bx, yb⟩ := b
  simp

theorem linePixel_ne {n : Nat} (before : n < lineSteps a b) : linePixel a b n ≠ b := by
  intro arrived
  have x := sx_mul_xExtent a b
  have y := sy_mul_yExtent a b
  have pixelX : a.x + (Slope.between a b).sx * movesIn (xExtent a b) (lineSteps a b) n = b.x :=
    congrArg Point.x arrived
  have pixelY : a.y + (Slope.between a b).sy * movesIn (yExtent a b) (lineSteps a b) n = b.y :=
    congrArg Point.y arrived
  have longest : lineSteps a b = max (xExtent a b) (yExtent a b) := rfl
  rcases Nat.le_total (yExtent a b) (xExtent a b) with flat | steep
  · have same : lineSteps a b = xExtent a b := by omega
    rw [same, movesIn_self (by omega)] at pixelX
    have sign : (Slope.between a b).sx = 1 ∨ (Slope.between a b).sx = -1 := sign_cases a.x b.x
    rcases sign with sign | sign <;> rw [sign] at x pixelX <;> omega
  · have same : lineSteps a b = yExtent a b := by omega
    rw [same, movesIn_self (by omega)] at pixelY
    have sign : (Slope.between a b).sy = 1 ∨ (Slope.between a b).sy = -1 := sign_cases a.y b.y
    rcases sign with sign | sign <;> rw [sign] at y pixelY <;> omega

/-- The run lemma: the loop passes through all pixels that are left, if it is not cut off before. -/
theorem walk_linePen {bound n : Nat} (inside : n ≤ lineSteps a b) (enough : lineSteps a b ≤ n + bound) :
    walk (Slope.between a b) b bound (linePen a b n) =
      (List.range' n (lineSteps a b - n + 1)).map (linePixel a b) := by
  induction bound generalizing n with
  | zero =>
    obtain rfl : n = lineSteps a b := by omega
    rw [Nat.sub_self]
    rfl
  | succ bound ih =>
    by_cases last : n = lineSteps a b
    · subst last
      rw [walk, point_linePen, if_pos (linePixel_lineSteps a b), Nat.sub_self]
      rfl
    · have before : n < lineSteps a b := by omega
      have count : lineSteps a b - n + 1 = lineSteps a b - (n + 1) + 1 + 1 := by omega
      rw [walk, point_linePen, if_neg (linePixel_ne before), advance_linePen (by omega),
        ih (by omega) (by omega), count, List.range'_succ]
      rfl

theorem walk_start {bound : Nat} (enough : lineSteps a b ≤ bound) :
    walk (Slope.between a b) b bound ((Slope.between a b).start a) =
      (List.range (lineSteps a b + 1)).map (linePixel a b) := by
  rw [← linePen_zero, walk_linePen (Nat.zero_le _) (by omega), Nat.sub_zero, List.range_eq_range']

theorem segment_eq (a b : Point) : segment a b = (List.range (lineSteps a b + 1)).map (linePixel a b) := by
  apply walk_start
  have dx : (Slope.between a b).dx = xExtent a b := rfl
  have dy : (Slope.between a b).dy = -(yExtent a b : Int) := rfl
  rw [dx, dy]
  unfold lineSteps
  omega

theorem mem_segment {p : Point} : p ∈ segment a b ↔ ∃ n ≤ lineSteps a b, linePixel a b n = p := by
  simp only [segment_eq, List.mem_map, List.mem_range, Nat.lt_add_one_iff]

theorem left_mem_segment (a b : Point) : a ∈ segment a b :=
  mem_segment.mpr ⟨0, Nat.zero_le _, linePixel_zero a b⟩

theorem right_mem_segment (a b : Point) : b ∈ segment a b :=
  mem_segment.mpr ⟨_, Nat.le_refl _, linePixel_lineSteps a b⟩

/-! ### Where the pixels are -/

theorem between_of_le {p q : Int} {k : Nat} (le : k ≤ (q - p).natAbs) :
    min p q ≤ p + (if p < q then 1 else -1 : Int) * k ∧ p + (if p < q then 1 else -1 : Int) * k ≤ max p q := by
  split <;> omega

theorem Mode.onCanvas_linePixel {m : Mode} (onA : m.OnCanvas a) (onB : m.OnCanvas b) {n : Nat}
    (inside : n ≤ lineSteps a b) : m.OnCanvas (linePixel a b n) := by
  have x := between_of_le (p := a.x) (q := b.x) (movesIn_le (xExtent a b) inside)
  have y := between_of_le (p := a.y) (q := b.y) (movesIn_le (yExtent a b) inside)
  obtain ⟨ax, ax', ay, ay'⟩ := onA
  obtain ⟨bx, bx', yb, yb'⟩ := onB
  refine ⟨?_, ?_, ?_, ?_⟩
  · exact le_trans (by omega) x.1
  · exact lt_of_le_of_lt x.2 (by omega)
  · exact le_trans (by omega) y.1
  · exact lt_of_le_of_lt y.2 (by omega)

/-- Next to each other, straight or across. -/
def Point.Touches (p q : Point) : Prop := |q.x - p.x| ≤ 1 ∧ |q.y - p.y| ≤ 1

theorem linePixel_touches {n : Nat} (before : n < lineSteps a b) :
    (linePixel a b n).Touches (linePixel a b (n + 1)) := by
  have moved : ∀ (start sign : Int) (extent : Nat), extent ≤ lineSteps a b → sign = 1 ∨ sign = -1 →
      |start + sign * movesIn extent (lineSteps a b) (n + 1) -
        (start + sign * movesIn extent (lineSteps a b) n)| ≤ 1 := by
    intro start sign extent le signs
    rw [movesIn_succ (by omega) le, abs_le]
    rcases signs with rfl | rfl <;> split <;> push_cast <;> omega
  exact ⟨moved _ _ _ (xExtent_le a b) (sign_cases a.x b.x), moved _ _ _ (yExtent_le a b) (sign_cases a.y b.y)⟩

/-- The true line from `a` to `b` has a point beside `p`, at most half a pixel away. -/
def Point.OnLine (p a b : Point) : Prop :=
  ∃ t : ℚ, 0 ≤ t ∧ t ≤ 1 ∧
    ((p.x : ℚ) = a.x + t * (b.x - a.x) ∧ |(p.y : ℚ) - (a.y + t * (b.y - a.y))| ≤ 1 / 2 ∨
      (p.y : ℚ) = a.y + t * (b.y - a.y) ∧ |(p.x : ℚ) - (a.x + t * (b.x - a.x))| ≤ 1 / 2)

theorem movesIn_near {extent total : Nat} (pos : 0 < total) (n : Nat) {sign : Int} (signs : sign = 1 ∨ sign = -1)
    (start : Int) :
    |((start + sign * movesIn extent total n : Int) : ℚ) - (start + n / total * (sign * extent : Int))| ≤ 1 / 2 := by
  obtain ⟨low, high⟩ := movesIn_bounds extent pos n
  have positive : (0 : ℚ) < total := by exact_mod_cast pos
  have off : |(movesIn extent total n : ℚ) - n / total * extent| ≤ 1 / 2 := by
    have low' : (2 * (total * movesIn extent total n) : ℚ) ≤ 2 * (extent * n) + total := by exact_mod_cast low
    have high' : (2 * (extent * n) + total : ℚ) < 2 * (total * movesIn extent total n) + 2 * total := by
      exact_mod_cast high
    have product : (n / total * extent : ℚ) * total = extent * n := by
      field_simp
    rw [abs_le]
    constructor <;> nlinarith
  have scaled : ((start + sign * movesIn extent total n : Int) : ℚ) - (start + n / total * (sign * extent : Int)) =
      sign * (movesIn extent total n - n / total * extent) := by
    push_cast
    ring
  rw [scaled, abs_mul]
  rcases signs with rfl | rfl <;> simpa using off

theorem movesIn_exact {extent total : Nat} (pos : 0 < total) (same : total = extent) (n : Nat) (sign start : Int) :
    ((start + sign * movesIn extent total n : Int) : ℚ) = start + n / total * (sign * extent : Int) := by
  subst same
  have positive : (total : ℚ) ≠ 0 := by exact_mod_cast Nat.ne_of_gt pos
  rw [movesIn_self pos]
  push_cast
  field_simp

theorem linePixel_onLine {n : Nat} (inside : n ≤ lineSteps a b) : (linePixel a b n).OnLine a b := by
  rcases Nat.eq_zero_or_pos (lineSteps a b) with none | pos
  · obtain rfl : n = 0 := by omega
    rw [linePixel_zero]
    exact ⟨0, le_refl 0, zero_le_one, Or.inl (by simp)⟩
  · have positive : (0 : ℚ) < lineSteps a b := by exact_mod_cast pos
    have longest : lineSteps a b = max (xExtent a b) (yExtent a b) := rfl
    refine ⟨n / lineSteps a b, by positivity, ?_, ?_⟩
    · rw [div_le_one positive]
      exact_mod_cast inside
    · rw [← Int.cast_sub, ← Int.cast_sub, ← sx_mul_xExtent, ← sy_mul_yExtent]
      rcases Nat.le_total (yExtent a b) (xExtent a b) with flat | steep
      · have same : lineSteps a b = xExtent a b := by omega
        exact Or.inl ⟨movesIn_exact pos same n _ a.x, movesIn_near pos n (sign_cases a.y b.y) a.y⟩
      · have same : lineSteps a b = yExtent a b := by omega
        exact Or.inr ⟨movesIn_exact pos same n _ a.y, movesIn_near pos n (sign_cases a.x b.x) a.x⟩

/-! ### Drawing -/

theorem Mode.linePoints_of_onCanvas {m : Mode} (onA : m.OnCanvas a) (onB : m.OnCanvas b) :
    m.linePoints a b = segment a b := by
  unfold linePoints clipLine
  rw [if_pos ⟨onA, onB⟩]

/-- What drawing a line comes to. -/
structure LineDrawn (m : Memory) (a b : Point) (c : Color) : Prop where
  /-- The loop meets the end after this many steps. -/
  arrives : ((Slope.between a b).advance^[lineSteps a b] ((Slope.between a b).start a)).point = b
  notBefore : ∀ n < lineSteps a b, ((Slope.between a b).advance^[n] ((Slope.between a b).start a)).point ≠ b
  /-- No larger bound on its steps makes a difference. -/
  loop : ∀ bound, lineSteps a b ≤ bound →
    walk (Slope.between a b) b bound ((Slope.between a b).start a) = m.mode.linePoints a b
  flat : yExtent a b ≤ xExtent a b → 0 < xExtent a b →
    m.mode.linePoints a b = (List.range (xExtent a b + 1)).map fun n =>
      ⟨a.x + (Slope.between a b).sx * n,
        a.y + (Slope.between a b).sy * ((2 * yExtent a b * n + xExtent a b) / (2 * xExtent a b) : Nat)⟩
  steep : xExtent a b < yExtent a b →
    m.mode.linePoints a b = (List.range (yExtent a b + 1)).map fun n =>
      ⟨a.x + (Slope.between a b).sx * ((2 * xExtent a b * n + yExtent a b) / (2 * yExtent a b) : Nat),
        a.y + (Slope.between a b).sy * n⟩
  single : xExtent a b = 0 → yExtent a b = 0 → m.mode.linePoints a b = [a]
  colors : ∀ p, (m.drawLine a b c).pixel? p = if p ∈ m.mode.linePoints a b then some c else m.pixel? p
  ends : a ∈ m.mode.linePoints a b ∧ b ∈ m.mode.linePoints a b
  touching : (m.mode.linePoints a b).IsChain Point.Touches
  near : ∀ p ∈ m.mode.linePoints a b, p.OnLine a b

theorem isChain_segment (a b : Point) : (segment a b).IsChain Point.Touches := by
  rw [segment_eq, List.isChain_map, List.isChain_range_succ]
  intro n before
  exact linePixel_touches before

/-- Between any two points of the canvas, in every direction. -/
theorem line_pixels (m : Memory) {a b : Point} (onA : m.mode.OnCanvas a) (onB : m.mode.OnCanvas b) (c : Color) :
    LineDrawn m a b c := by
  have points := Mode.linePoints_of_onCanvas onA onB
  have longest : lineSteps a b = max (xExtent a b) (yExtent a b) := rfl
  constructor
  case arrives =>
    rw [iterate_advance (Nat.le_refl _)]
    exact linePixel_lineSteps a b
  case notBefore =>
    intro n before
    rw [iterate_advance (Nat.le_of_lt before)]
    exact linePixel_ne before
  case loop =>
    intro bound enough
    rw [points, segment_eq, walk_start enough]
  case flat =>
    intro flat pos
    have same : lineSteps a b = xExtent a b := by omega
    rw [points, segment_eq, same]
    apply List.map_congr_left
    intro n _
    unfold linePixel linePen
    rw [same, movesIn_self pos]
    rfl
  case steep =>
    intro steep
    have same : lineSteps a b = yExtent a b := by omega
    rw [points, segment_eq, same]
    apply List.map_congr_left
    intro n _
    unfold linePixel linePen
    rw [same, movesIn_self (by omega)]
    rfl
  case single =>
    intro narrow low
    have none : lineSteps a b = 0 := by omega
    rw [points, segment_eq, none, Nat.zero_add, List.range_one, List.map_singleton, linePixel_zero]
  case colors =>
    intro p
    have visible : p ∈ m.mode.linePoints a b → m.mode.OnCanvas p := by
      intro member
      obtain ⟨n, inside, rfl⟩ := mem_segment.mp (points ▸ member)
      exact Mode.onCanvas_linePixel onA onB inside
    rw [Memory.drawLine, Memory.pixel?_paint]
    exact if_congr ⟨And.left, fun member => ⟨member, visible member⟩⟩ rfl rfl
  case ends =>
    rw [points]
    exact ⟨left_mem_segment a b, right_mem_segment a b⟩
  case touching =>
    rw [points]
    exact isChain_segment a b
  case near =>
    intro p member
    obtain ⟨n, inside, rfl⟩ := mem_segment.mp (points ▸ member)
    exact linePixel_onLine inside

theorem line_pixels_upward : LineDrawn {} ⟨10, 20⟩ ⟨13, 18⟩ 7 ∧
    (({} : Memory).drawLine ⟨10, 20⟩ ⟨13, 18⟩ 7).pixel? ⟨11, 19⟩ = some 7 ∧
    (({} : Memory).drawLine ⟨10, 20⟩ ⟨13, 18⟩ 7).pixel? ⟨11, 20⟩ = some background := by
  have drawn : LineDrawn {} ⟨10, 20⟩ ⟨13, 18⟩ 7 := line_pixels {} (by decide) (by decide) 7
  refine ⟨drawn, ?_, ?_⟩
  · rw [drawn.colors, if_pos (by decide)]
  · rw [drawn.colors, if_neg (by decide), Memory.pixel?_eq _ (by decide)]
    exact congrArg some (Vector.getElem_replicate _)

end RetroScript.Video
